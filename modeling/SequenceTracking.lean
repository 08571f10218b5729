import SequenceTracking.Effort
import SequenceTracking.PackedBits.Lemmas
import SequenceTracking.PackedBits.Machine
import SequenceTracking.PackedBits.Text
import SequenceTracking.Proofs.Circle
import SequenceTracking.Proofs.Refusals
import SequenceTracking.Proofs.Window.Agreement
import SequenceTracking.Window.Machine
import SequenceTracking.Window.Text
import SequenceTracking.Proofs.PairedRuns
import SequenceTracking.Proofs.Window.Bisimulation
import SequenceTracking.Proofs.Window.Order
import SequenceTracking.Checked.Basic
import SequenceTracking.Checked.PackedBits
import SequenceTracking.Proofs.Window.Shifting
import SequenceTracking.Checked.Machine
import SequenceTracking.Proofs.Checked.PackedBits
import SequenceTracking.Proofs.Checked.Window
import SequenceTracking.Proofs.Checked.Marking
import SequenceTracking.Proofs.Checked.Merging
import SequenceTracking.Proofs.Checked.Faults
import SequenceTracking.Proofs.PackedBits.Merging
import SequenceTracking.Proofs.PackedBits.Reachable
import SequenceTracking.Proofs.Window.Combining
import SequenceTracking.Proofs.Window.Laws
import SequenceTracking.Proofs.Window.Scanning
import SequenceTracking.Proofs.Window.Gathering
import SequenceTracking.Proofs.Window.Resizing
import SequenceTracking.Proofs.PackedBits.LinearScan
import SequenceTracking.Proofs.PackedBits.BooleanAlgebra
import SequenceTracking.Proofs.PackedBits.Edits
import SequenceTracking.Proofs.PackedBits.Canonical
import SequenceTracking.Proofs.PackedBits.Enumeration
import SequenceTracking.Proofs.Checked.Addressable
import SequenceTracking.Proofs.Checked.BitMerging
import SequenceTracking.Proofs.Checked.RunWrites
import SequenceTracking.Proofs.Window.Enumeration
import SequenceTracking.Proofs.Window.Equality
import SequenceTracking.Proofs.Window.Stepwise
import SequenceTracking.Proofs.HalfCircle
import SequenceTracking.Proofs.Residues
import SequenceTracking.Proofs.Dump
import SequenceTracking.Proofs.Window.Dumps
import SequenceTracking.Proofs.Window.Acts
import SequenceTracking.Proofs.Window.Log
import SequenceTracking.Proofs.Window.Validation
