/-!
Bounded searches over the naturals: the least and the greatest number of an interval that passes a
test, and the list met by following a successor function under a limit. The two searches are pinned
down by `least?_eq_some_iff` and `greatest?_eq_some_iff`, the walk by its unfolding equations.
-/
namespace SequenceTracking.Search

def least? (p : Nat → Bool) (lo : Nat) : Nat → Option Nat
  | 0 => none
  | n + 1 => if p lo then some lo else least? p (lo + 1) n

def greatest? (p : Nat → Bool) (lo : Nat) : Nat → Option Nat
  | 0 => none
  | n + 1 => if p (lo + n) then some (lo + n) else greatest? p lo n

def chainOnto (next : α → Option α) : (limit : Nat) → (start : Option α) → Array α → Array α
  | 0, _, found => found
  | _ + 1, none, found => found
  | n + 1, some x, found => chainOnto next n (next x) (found.push x)

def chain (next : α → Option α) (limit : Nat) (start : Option α) : List α :=
  (chainOnto next limit start #[]).toList

theorem least?_eq_none_iff {p : Nat → Bool} {lo n : Nat} :
    least? p lo n = none ↔ ∀ j, lo ≤ j → j < lo + n → p j = false := by
  induction n generalizing lo with
  | zero => simp only [least?, true_iff]; intro j _ _; omega
  | succ n ih =>
    simp only [least?]
    split
    · rename_i h
      simp only [reduceCtorEq, false_iff]
      intro all
      simp [all lo (Nat.le_refl _) (by omega)] at h
    · rename_i h
      rw [ih]
      constructor
      · intro rest j from_lo below
        by_cases here : j = lo
        · subst here; simpa using h
        · exact rest j (by omega) (by omega)
      · intro all j from_lo below
        exact all j (by omega) (by omega)

theorem least?_eq_some_iff {p : Nat → Bool} {lo n j : Nat} :
    least? p lo n = some j ↔
      lo ≤ j ∧ j < lo + n ∧ p j = true ∧ ∀ k, lo ≤ k → k < j → p k = false := by
  induction n generalizing lo with
  | zero => simp only [least?, reduceCtorEq, false_iff]; omega
  | succ n ih =>
    simp only [least?]
    split
    · rename_i h
      simp only [Option.some.injEq]
      constructor
      · intro same; subst same; exact ⟨Nat.le_refl _, by omega, h, by omega⟩
      · intro ⟨from_lo, _, _, before⟩
        by_cases here : lo = j
        · exact here
        · simp [before lo (Nat.le_refl _) (by omega)] at h
    · rename_i h
      rw [ih]
      constructor
      · intro ⟨from_lo, below, hit, before⟩
        refine ⟨by omega, by omega, hit, fun k from_k below_k => ?_⟩
        by_cases here : k = lo
        · subst here; simpa using h
        · exact before k (by omega) below_k
      · intro ⟨from_lo, below, hit, before⟩
        have apart : j ≠ lo := by intro here; subst here; exact h hit
        exact ⟨by omega, by omega, hit, fun k from_k below_k => before k (by omega) below_k⟩

theorem greatest?_eq_none_iff {p : Nat → Bool} {lo n : Nat} :
    greatest? p lo n = none ↔ ∀ j, lo ≤ j → j < lo + n → p j = false := by
  induction n with
  | zero => simp only [greatest?, true_iff]; intro j _ _; omega
  | succ n ih =>
    simp only [greatest?]
    split
    · rename_i h
      simp only [reduceCtorEq, false_iff]
      intro all
      simp [all (lo + n) (by omega) (by omega)] at h
    · rename_i h
      rw [ih]
      constructor
      · intro rest j from_lo below
        by_cases here : j = lo + n
        · subst here; simpa using h
        · exact rest j from_lo (by omega)
      · intro all j from_lo below
        exact all j from_lo (by omega)

theorem greatest?_eq_some_iff {p : Nat → Bool} {lo n j : Nat} :
    greatest? p lo n = some j ↔
      lo ≤ j ∧ j < lo + n ∧ p j = true ∧ ∀ k, j < k → k < lo + n → p k = false := by
  induction n with
  | zero => simp only [greatest?, reduceCtorEq, false_iff]; omega
  | succ n ih =>
    simp only [greatest?]
    split
    · rename_i h
      simp only [Option.some.injEq]
      constructor
      · intro same; subst same; exact ⟨by omega, by omega, h, by omega⟩
      · intro ⟨_, below, _, after⟩
        by_cases here : lo + n = j
        · exact here
        · simp [after (lo + n) (by omega) (by omega)] at h
    · rename_i h
      rw [ih]
      constructor
      · intro ⟨from_lo, below, hit, after⟩
        refine ⟨from_lo, by omega, hit, fun k above_k below_k => ?_⟩
        by_cases here : k = lo + n
        · subst here; simpa using h
        · exact after k above_k (by omega)
      · intro ⟨from_lo, below, hit, after⟩
        have apart : j ≠ lo + n := by intro here; subst here; exact h hit
        exact ⟨from_lo, by omega, hit, fun k above_k below_k => after k above_k (by omega)⟩

theorem chainOnto_toList (next : α → Option α) (limit : Nat) (start : Option α) (found : Array α) :
    (chainOnto next limit start found).toList = found.toList ++ chain next limit start := by
  induction limit generalizing start found with
  | zero => simp [chain, chainOnto]
  | succ n ih =>
    cases start with
    | none => simp [chain, chainOnto]
    | some x =>
      rw [chain, chainOnto, chainOnto, ih, ih]
      simp

@[simp] theorem chain_zero (next : α → Option α) (start : Option α) : chain next 0 start = [] := rfl

@[simp] theorem chain_none (next : α → Option α) (limit : Nat) : chain next limit none = [] := by
  cases limit <;> rfl

@[simp] theorem chain_succ_some (next : α → Option α) (limit : Nat) (x : α) :
    chain next (limit + 1) (some x) = x :: chain next limit (next x) := by
  rw [chain, chainOnto, chainOnto_toList]
  simp

end SequenceTracking.Search
