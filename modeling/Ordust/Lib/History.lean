import Mathlib.Data.Nat.Notation
import Mathlib.Data.Nat.Init

/-!
# Histories and absolute patches

A history is the sequence of states that numbered events go through. A patch sets some keys to
given values; one that covers a range of events sets each key that they touched to what it is
after the last of them. Such a patch may begin anywhere before the state it is applied to.
-/

/-- Event `k + 1` leads from state `k` to state `k + 1` and changes at most the keys it touches. -/
structure History (κ ν : Type) where
  state : Nat → κ → ν
  touched : Nat → κ → Prop
  frame : ∀ k x, ¬ touched (k + 1) x → state (k + 1) x = state k x

/-- What a patch sets each key to, if it does. -/
abbrev Patch (κ ν : Type) := κ → Option ν

namespace Patch

variable {κ ν : Type}

def apply (p : Patch κ ν) (s : κ → ν) : κ → ν := fun x => (p x).getD (s x)

theorem apply_some {p : Patch κ ν} {s : κ → ν} {x : κ} {v : ν} (h : p x = some v) :
    p.apply s x = v := by
  simp [apply, h]

theorem apply_none {p : Patch κ ν} {s : κ → ν} {x : κ} (h : p x = none) : p.apply s x = s x := by
  simp [apply, h]

end Patch

namespace History

variable {κ ν : Type} (h : History κ ν)

/-- Some event from `first` to `last` touches the key. -/
def Touches (first last : Nat) (x : κ) : Prop := ∃ k, first ≤ k ∧ k ≤ last ∧ h.touched k x

/-- The patch sets the keys that the events from `first` to `last` touch, and no others, to what
they are after `last`. -/
structure Covers (p : Patch κ ν) (first last : Nat) : Prop where
  touched : ∀ x, h.Touches first last x → p x = some (h.state last x)
  untouched : ∀ x, ¬ h.Touches first last x → p x = none

variable {h}

theorem state_eq_of_untouched {first last : Nat} (hle : first ≤ last) {x : κ}
    (hno : ¬ h.Touches (first + 1) last x) : h.state last x = h.state first x := by
  induction last, hle using Nat.le_induction with
  | base => rfl
  | succ k hk ih =>
    rw [h.frame k x, ih]
    · rintro ⟨j, hj, hjk, ht⟩
      exact hno ⟨j, hj, by omega, ht⟩
    · exact fun ht => hno ⟨k + 1, by omega, Nat.le_refl _, ht⟩

/-- A patch over a range that begins at or before the next event and does not end before it
leads to the state after the range. -/
theorem Covers.apply_state {p : Patch κ ν} {first last : Nat} (hp : h.Covers p first last) {k : Nat}
    (hf : first ≤ k + 1) (hl : k + 1 ≤ last) : p.apply (h.state k) = h.state last := by
  funext x
  by_cases ht : h.Touches first last x
  · exact Patch.apply_some (hp.touched x ht)
  · rw [Patch.apply_none (hp.untouched x ht)]
    refine (state_eq_of_untouched (Nat.le_of_succ_le hl) ?_).symm
    rintro ⟨j, hj, hjl, htj⟩
    exact ht ⟨j, by omega, hjl, htj⟩

end History
