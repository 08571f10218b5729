import Mathlib.Order.Bounds.Basic
import SequenceTracking.Search

/-!
Bounded searches rearranged: they may start later or stop earlier where nothing passes, be cut in two or
into blocks, be carried out on other names of the same numbers, and be limited from above afterwards. What
they stop at is the nearest member of a set. A walk that stops for want of a successor, and not at its limit,
is the walk without a limit.
-/
namespace SequenceTracking.Search

theorem least?_shrink {p : Nat → Bool} {lo m n : Nat} (shorter : m ≤ n)
    (clear : ∀ i, lo + m ≤ i → i < lo + n → p i = false) : least? p lo n = least? p lo m := by
  cases found : least? p lo m with
  | none =>
    rw [least?_eq_none_iff] at found ⊢
    intro j above below
    by_cases inside : j < lo + m
    · exact found j above inside
    · exact clear j (by omega) below
  | some j =>
    rw [least?_eq_some_iff] at found ⊢
    obtain ⟨above, below, hit, before⟩ := found
    exact ⟨above, by omega, hit, before⟩

theorem least?_skip {p : Nat → Bool} {lo start stop : Nat} (later : lo ≤ start)
    (clear : ∀ i, lo ≤ i → i < start → p i = false) :
    least? p lo (stop - lo) = least? p start (stop - start) := by
  cases found : least? p start (stop - start) with
  | none =>
    rw [least?_eq_none_iff] at found ⊢
    intro j above below
    by_cases early : j < start
    · exact clear j above early
    · exact found j (by omega) (by omega)
  | some j =>
    rw [least?_eq_some_iff] at found ⊢
    obtain ⟨above, below, hit, before⟩ := found
    refine ⟨by omega, by omega, hit, fun k from_k below_k => ?_⟩
    by_cases early : k < start
    · exact clear k from_k early
    · exact before k (by omega) below_k

theorem greatest?_skip {p : Nat → Bool} {lo start stop : Nat} (later : lo ≤ start)
    (clear : ∀ i, lo ≤ i → i < start → p i = false) :
    greatest? p lo (stop - lo) = greatest? p start (stop - start) := by
  cases found : greatest? p start (stop - start) with
  | none =>
    rw [greatest?_eq_none_iff] at found ⊢
    intro j above below
    by_cases early : j < start
    · exact clear j above early
    · exact found j (by omega) (by omega)
  | some j =>
    rw [greatest?_eq_some_iff] at found ⊢
    obtain ⟨above, below, hit, after⟩ := found
    exact ⟨by omega, by omega, hit, fun k above_k below_k => after k above_k (by omega)⟩

theorem least?_congr {p q : Nat → Bool} {lo n : Nat}
    (same : ∀ i, lo ≤ i → i < lo + n → p i = q i) : least? p lo n = least? q lo n := by
  induction n generalizing lo with
  | zero => rfl
  | succ n ih =>
    rw [least?, least?, same lo (Nat.le_refl _) (by omega), ih]
    intro i above below
    exact same i (by omega) (by omega)

theorem greatest?_congr {p q : Nat → Bool} {lo n : Nat}
    (same : ∀ i, lo ≤ i → i < lo + n → p i = q i) : greatest? p lo n = greatest? q lo n := by
  induction n with
  | zero => rfl
  | succ n ih =>
    rw [greatest?, greatest?, same (lo + n) (by omega) (by omega), ih]
    intro i above below
    exact same i above (by omega)

theorem greatest?_shrink {p : Nat → Bool} {lo m n : Nat} (shorter : m ≤ n)
    (clear : ∀ i, lo + m ≤ i → i < lo + n → p i = false) : greatest? p lo n = greatest? p lo m := by
  induction n with
  | zero =>
    have none_left : m = 0 := by omega
    rw [none_left]
  | succ n ih =>
    by_cases whole : m = n + 1
    · rw [whole]
    · rw [greatest?, clear (lo + n) (by omega) (by omega)]
      apply ih (by omega)
      intro i above below
      exact clear i above (by omega)

theorem least?_append (p : Nat → Bool) (lo m n : Nat) :
    least? p lo (m + n) = (least? p lo m).or (least? p (lo + m) n) := by
  induction m generalizing lo with
  | zero => simp [least?]
  | succ m ih =>
    have moved : lo + 1 + m = lo + (m + 1) := by omega
    rw [Nat.succ_add, least?, least?, ih, moved]
    split <;> rfl

theorem greatest?_append (p : Nat → Bool) (lo m n : Nat) :
    greatest? p lo (m + n) = (greatest? p (lo + m) n).or (greatest? p lo m) := by
  induction n with
  | zero => simp [greatest?]
  | succ n ih =>
    rw [← Nat.add_assoc, greatest?, greatest?, ih, Nat.add_assoc]
    split <;> rfl

theorem least?_reindex {p q : Nat → Bool} {lo start n : Nat} {place : Nat → Nat}
    (place_eq : ∀ k, k < n → place (lo + k) = start + k)
    (same : ∀ k, k < n → q (lo + k) = p (start + k)) :
    least? p start n = (least? q lo n).map place := by
  induction n generalizing lo start with
  | zero => rfl
  | succ n ih =>
    have here := same 0 (by omega)
    have place_here := place_eq 0 (by omega)
    simp only [Nat.add_zero] at here place_here
    rw [least?, least?, here]
    split
    · rw [Option.map_some, place_here]
    · apply ih
      · intro k below
        rw [Nat.add_assoc, Nat.add_comm 1 k, place_eq (k + 1) (by omega)]
        omega
      · intro k below
        rw [Nat.add_assoc, Nat.add_comm 1 k, same (k + 1) (by omega), Nat.add_assoc,
          Nat.add_comm 1 k]

theorem greatest?_reindex {p q : Nat → Bool} {lo start n : Nat} {place : Nat → Nat}
    (place_eq : ∀ k, k < n → place (lo + k) = start + k)
    (same : ∀ k, k < n → q (lo + k) = p (start + k)) :
    greatest? p start n = (greatest? q lo n).map place := by
  induction n with
  | zero => rfl
  | succ n ih =>
    rw [greatest?, greatest?, same n (Nat.lt_succ_self n)]
    split
    · rw [Option.map_some, place_eq n (Nat.lt_succ_self n)]
    · apply ih
      · exact fun k below => place_eq k (by omega)
      · exact fun k below => same k (by omega)

theorem least?_blocks {p hit : Nat → Bool} {low : Nat → Nat} {width : Nat}
    (block : ∀ j, least? p (width * j) width = if hit j then some (width * j + low j) else none) (j n : Nat) :
    least? p (width * j) (width * n) = (least? hit j n).map fun k => width * k + low k := by
  induction n generalizing j with
  | zero => rfl
  | succ n ih =>
    rw [Nat.mul_succ, Nat.add_comm (width * n), least?_append, block, ← Nat.mul_succ, ih, least?]
    split <;> rfl

theorem greatest?_blocks {p hit : Nat → Bool} {high : Nat → Nat} {width : Nat}
    (block : ∀ j, greatest? p (width * j) width = if hit j then some (width * j + high j) else none)
    (j n : Nat) :
    greatest? p (width * j) (width * n) = (greatest? hit j n).map fun k => width * k + high k := by
  induction n with
  | zero => rfl
  | succ n ih =>
    rw [Nat.mul_succ, greatest?_append, ← Nat.mul_add, block, ih, greatest?]
    split <;> rfl

theorem least?_filter_lt (p : Nat → Bool) (lo n hi : Nat) :
    (least? p lo n).filter (· < hi) = least? p lo (min n (hi - lo)) := by
  induction n generalizing lo with
  | zero => simp [least?]
  | succ n ih =>
    by_cases above : lo < hi
    · have one_more : min (n + 1) (hi - lo) = min n (hi - (lo + 1)) + 1 := by omega
      rw [one_more, least?, least?, ← ih]
      split
      · simp [above]
      · rfl
    · have none_left : min (n + 1) (hi - lo) = 0 := by omega
      rw [none_left, least?, Option.filter_eq_none_iff]
      intro j found
      have := (least?_eq_some_iff.mp found).1
      simp
      omega

theorem least?_from (p : Nat → Bool) (start n : Nat) :
    least? (fun k => p k && decide (start ≤ k)) 0 n = least? p start (n - start) := by
  have later : least? (fun k => p k && decide (start ≤ k)) 0 (n - 0) =
      least? (fun k => p k && decide (start ≤ k)) start (n - start) := by
    apply least?_skip (Nat.zero_le start)
    intro i _ early
    simp [Nat.not_le_of_lt early]
  rw [Nat.sub_zero] at later
  rw [later]
  apply least?_congr
  intro i above _
  simp [above]

theorem greatest?_upTo (p : Nat → Bool) (stop n : Nat) :
    greatest? (fun k => p k && decide (k ≤ stop)) 0 n = greatest? p 0 (min (stop + 1) n) := by
  rw [greatest?_shrink (Nat.min_le_right (stop + 1) n)]
  · apply greatest?_congr
    intro i _ inside
    have up_to : i ≤ stop := by omega
    simp [up_to]
  · intro i past inside
    have beyond : ¬ i ≤ stop := by omega
    simp [beyond]

theorem countP_range_shrink {p : Nat → Bool} {m n : Nat} (shorter : m ≤ n)
    (clear : ∀ i, m ≤ i → i < n → p i = false) :
    (List.range n).countP p = (List.range m).countP p := by
  have rest : (List.range (n - m)).countP (p ∘ (m + ·)) = 0 := by
    rw [List.countP_eq_zero]
    intro i listed
    have inside := List.mem_range.mp listed
    simp [clear (m + i) (by omega) (by omega)]
  have parts : n = m + (n - m) := by omega
  rw [parts, List.range_add, List.countP_append, List.countP_map, rest,
    Nat.add_zero]

theorem find?_range' (p : Nat → Bool) (lo n : Nat) : (List.range' lo n).find? p = least? p lo n := by
  induction n generalizing lo with
  | zero => rfl
  | succ n ih =>
    rw [List.range'_succ, List.find?_cons, least?, ih]
    cases p lo <;> rfl

theorem find?_reverse_range' (p : Nat → Bool) (lo n : Nat) :
    (List.range' lo n).reverse.find? p = greatest? p lo n := by
  induction n with
  | zero => rfl
  | succ n ih =>
    rw [List.range'_concat, List.reverse_append, List.reverse_singleton, List.singleton_append,
      List.find?_cons, greatest?, ih, Nat.one_mul]
    cases p (lo + n) <;> rfl

theorem find?_filter_from (p : Nat → Bool) (start n : Nat) :
    ((List.range' 0 n).filter p).find? (start ≤ ·) = least? p start (n - start) := by
  rw [List.find?_filter, find?_range', ← least?_from]
  simp only [Bool.decide_and, Bool.decide_eq_true]

theorem find?_reverse_filter_upTo (p : Nat → Bool) (stop n : Nat) :
    ((List.range' 0 n).filter p).reverse.find? (· ≤ stop) = greatest? p 0 (min (stop + 1) n) := by
  rw [← List.filter_reverse, List.find?_filter, find?_reverse_range', ← greatest?_upTo]
  simp only [Bool.decide_and, Bool.decide_eq_true]

theorem filter_range'_of_least? {p : Nat → Bool} {lo n j : Nat} (first : least? p lo n = some j) :
    (List.range' lo n).filter p = (List.range' j (lo + n - j)).filter p := by
  induction n generalizing lo with
  | zero => simp [least?] at first
  | succ n ih =>
    rw [least?] at first
    split at first
    · obtain rfl := Option.some.inj first
      congr 2
      omega
    · rename_i clear
      rw [List.range'_succ, List.filter_cons_of_neg clear, ih first]
      congr 2
      omega

/-! ### Nearest members -/

theorem exists_least? (p : Nat → Bool) {lo n m : Nat} (above : lo ≤ m) (below : m < lo + n)
    (hit : p m = true) : ∃ j, least? p lo n = some j := by
  rw [← Option.ne_none_iff_exists', Ne, least?_eq_none_iff]
  intro clear
  simp [clear m above below] at hit

theorem exists_greatest? (p : Nat → Bool) {lo n m : Nat} (above : lo ≤ m) (below : m < lo + n)
    (hit : p m = true) : ∃ j, greatest? p lo n = some j := by
  rw [← Option.ne_none_iff_exists', Ne, greatest?_eq_none_iff]
  intro clear
  simp [clear m above below] at hit

section Members

variable {S : Set Nat} {p : Nat → Bool} {lo n : Nat}
  (mem_iff : ∀ j, j ∈ S ↔ lo ≤ j ∧ j < lo + n ∧ p j = true)

include mem_iff

theorem eq_empty_iff_of_mem_iff : S = ∅ ↔ ∀ j, lo ≤ j → j < lo + n → p j = false := by
  rw [Set.eq_empty_iff_forall_notMem]
  refine forall_congr' fun j => ?_
  rw [mem_iff, not_and, not_and, Bool.not_eq_true]

/-- Either search stops at a number that passes when none does that would be nearer. -/
theorem nearest_iff_of_mem_iff (near : Nat → Prop) (j : Nat) :
    (j ∈ S ∧ ∀ k ∈ S, near k) ↔ (lo ≤ j ∧ j < lo + n ∧ p j = true) ∧
      ∀ k, lo ≤ k → k < lo + n → ¬ near k → p k = false := by
  rw [mem_iff]
  refine and_congr_right fun _ => forall_congr' fun k => ?_
  rw [mem_iff]
  constructor
  · intro all above below far
    rw [← Bool.not_eq_true]
    exact fun hit => far (all ⟨above, below, hit⟩)
  · intro clear member
    obtain ⟨above, below, hit⟩ := member
    by_contra far
    simp [clear above below far] at hit

theorem least?_eq_some_iff_isLeast {j : Nat} : least? p lo n = some j ↔ IsLeast S j := by
  have nearest := nearest_iff_of_mem_iff mem_iff (j ≤ ·) j
  rw [least?_eq_some_iff, show IsLeast S j ↔ _ from nearest]
  constructor
  · intro found
    obtain ⟨above, below, hit, before⟩ := found
    exact ⟨⟨above, below, hit⟩, fun k above_k _ early => before k above_k (by omega)⟩
  · intro found
    obtain ⟨⟨above, below, hit⟩, before⟩ := found
    exact ⟨above, below, hit, fun k above_k early => before k above_k (by omega) (by omega)⟩

theorem greatest?_eq_some_iff_isGreatest {j : Nat} :
    greatest? p lo n = some j ↔ IsGreatest S j := by
  have nearest := nearest_iff_of_mem_iff mem_iff (· ≤ j) j
  rw [greatest?_eq_some_iff, show IsGreatest S j ↔ _ from nearest]
  constructor
  · intro found
    obtain ⟨above, below, hit, after⟩ := found
    exact ⟨⟨above, below, hit⟩, fun k _ below_k late => after k (by omega) below_k⟩
  · intro found
    obtain ⟨⟨above, below, hit⟩, after⟩ := found
    exact ⟨above, below, hit, fun k late below_k => after k (by omega) below_k (by omega)⟩

/-- The answer is the member that is nearest, or nothing if there is no member. -/
structure Finds (near : Nat → Nat → Prop) (S : Set Nat) (answer : Option Nat) : Prop where
  of_some : ∀ j, answer = some j → j ∈ S ∧ ∀ i ∈ S, near j i
  of_none : answer = none → S = ∅

theorem least?_finds : Finds (· ≤ ·) S (least? p lo n) where
  of_some j found := by
    have least := (least?_eq_some_iff_isLeast mem_iff).mp found
    exact ⟨least.1, fun _ member => least.2 member⟩
  of_none found := (eq_empty_iff_of_mem_iff mem_iff).mpr (least?_eq_none_iff.mp found)

theorem greatest?_finds : Finds (· ≥ ·) S (greatest? p lo n) where
  of_some j found := by
    have greatest := (greatest?_eq_some_iff_isGreatest mem_iff).mp found
    exact ⟨greatest.1, fun _ member => greatest.2 member⟩
  of_none found := (eq_empty_iff_of_mem_iff mem_iff).mpr (greatest?_eq_none_iff.mp found)

end Members

/-- A scan that starts over where nothing lies onward finds what lies onward if anything does, and the nearest
    of what lies on the same side. -/
theorem Finds.or {near : Nat → Nat → Prop} {S : Set Nat} {onward : Nat → Prop} {first second : Option Nat}
    (ahead : Finds near {i | i ∈ S ∧ onward i} first) (anywhere : Finds near S second) {i : Nat}
    (member : i ∈ S) :
    ∃ found, first.or second = some found ∧ found ∈ S ∧
      ∀ j ∈ S, (onward j → onward found) ∧ ((onward found → onward j) → near found j) := by
  cases scan : first with
  | some found =>
    obtain ⟨⟨member_found, onward_found⟩, nearest⟩ := ahead.of_some found scan
    exact ⟨found, rfl, member_found, fun j member_j =>
      ⟨fun _ => onward_found, fun both => nearest j ⟨member_j, both onward_found⟩⟩⟩
  | none =>
    have nothing := Set.eq_empty_iff_forall_notMem.mp (ahead.of_none scan)
    cases again : second with
    | some found =>
      obtain ⟨member_found, nearest⟩ := anywhere.of_some found again
      exact ⟨found, rfl, member_found, fun j member_j =>
        ⟨fun onward_j => absurd ⟨member_j, onward_j⟩ (nothing j), fun _ => nearest j member_j⟩⟩
    | none => exact absurd member (Set.eq_empty_iff_forall_notMem.mp (anywhere.of_none again) i)

/-! ### Walks to the end -/

/-- Following `next` from `start` meets these items, and after the last of them nothing. -/
inductive Yields {α : Type} (next : α → Option α) : Option α → List α → Prop
  | stop : Yields next none []
  | step {x : α} {rest : List α} : Yields next (next x) rest → Yields next (some x) (x :: rest)

theorem Yields.unique {α : Type} {next : α → Option α} {start : Option α} {items others : List α}
    (first : Yields next start items) (second : Yields next start others) : items = others := by
  induction first generalizing others with
  | stop =>
    cases second
    rfl
  | step _ ih =>
    cases second with
    | step tail => rw [ih tail]

theorem yields_chain {α : Type} {next : α → Option α} {limit : Nat} {start : Option α}
    (ended : chain next (limit + 1) start = chain next limit start) :
    Yields next start (chain next limit start) := by
  induction limit generalizing start with
  | zero =>
    cases start with
    | none => exact .stop
    | some x => simp at ended
  | succ limit ih =>
    cases start with
    | none =>
      rw [chain_none]
      exact .stop
    | some x =>
      rw [chain_succ_some, chain_succ_some] at ended
      rw [chain_succ_some]
      exact .step (ih (List.cons.inj ended).2)

theorem Yields.chain_eq {α : Type} {next : α → Option α} {start : Option α} {items : List α}
    (walk : Yields next start items) {limit : Nat} (enough : items.length ≤ limit) :
    chain next limit start = items := by
  induction walk generalizing limit with
  | stop => exact chain_none next limit
  | step _ ih =>
    cases limit with
    | zero => exact absurd enough (Nat.not_succ_le_zero _)
    | succ limit => rw [chain_succ_some, ih (Nat.le_of_succ_le_succ enough)]

theorem yields_least? (p : Nat → Bool) (lo n : Nat) :
    Yields (fun j => least? p (j + 1) (n - (j + 1))) (least? p lo (n - lo))
      ((List.range' lo (n - lo)).filter p) := by
  -- by what is left of the interval: each step goes on behind the number it met
  induction remaining : n - lo using Nat.strongRecOn generalizing lo with
  | ind k ih =>
    cases found : least? p lo k with
    | none =>
      have nothing : (List.range' lo k).filter p = [] := by
        rw [List.filter_eq_nil_iff]
        intro j listed
        obtain ⟨above, below⟩ := List.mem_range'_1.mp listed
        rw [least?_eq_none_iff.mp found j above below]
        exact Bool.false_ne_true
      rw [nothing]
      exact .stop
    | some j =>
      obtain ⟨above, below, hit, _⟩ := least?_eq_some_iff.mp found
      have rest : lo + k - j = n - (j + 1) + 1 := by omega
      rw [filter_range'_of_least? found, rest, List.range'_succ, List.filter_cons_of_pos hit]
      exact .step (ih (n - (j + 1)) (by omega) (j + 1) rfl)

end SequenceTracking.Search
