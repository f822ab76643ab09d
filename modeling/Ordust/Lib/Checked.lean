import Mathlib.Algebra.Ring.Nat
import Mathlib.Data.UInt

/-!
# Rust code that may panic

The value of a computation, or the panic that ended it. A debug build checks every
`u64` addition and subtraction; a release build wraps.
-/

inductive Panic where
  | addOverflow
  | subOverflow
  | unwrapNone
  | expectFailed (message : String)
  | assertFailed (message : String)
  /-- No panic of Rust: a loop of the model used up its fuel. -/
  | outOfFuel
  deriving DecidableEq, Repr

abbrev Checked := Except Panic

inductive Profile where
  | debug
  | release
  deriving DecidableEq, Repr

namespace Checked

theorem ok_bind {α β : Type} (a : α) (f : α → Checked β) : (Except.ok a >>= f) = f a := rfl

theorem pure_eq {α : Type} (a : α) : (pure a : Checked α) = .ok a := rfl

theorem error_bind {α β : Type} (p : Panic) (f : α → Checked β) :
    ((Except.error p : Checked α) >>= f) = .error p := rfl

attribute [simp] ok_bind pure_eq error_bind

theorem bind_eq_ok {α β : Type} {m : Checked α} {f : α → Checked β} {b : β} :
    (m >>= f) = .ok b ↔ ∃ a, m = .ok a ∧ f a = .ok b := by
  cases m with
  | error p => simp
  | ok a => simp

theorem map_eq_ok {α β : Type} {m : Checked α} {f : α → β} {b : β} :
    m.map f = .ok b ↔ ∃ a, m = .ok a ∧ f a = b := by
  cases m with
  | error p => simp [Except.map]
  | ok a => simp [Except.map]

def unwrap {α : Type} : Option α → Checked α
  | some a => .ok a
  | none => .error .unwrapNone

def expect {α : Type} (message : String) : Option α → Checked α
  | some a => .ok a
  | none => .error (.expectFailed message)

@[simp] theorem unwrap_some {α : Type} (a : α) : unwrap (some a) = .ok a := rfl

@[simp] theorem expect_some {α : Type} (message : String) (a : α) :
    expect message (some a) = .ok a := rfl

end Checked

namespace Profile

/-- `a + b` on `u64`. -/
def add (pr : Profile) (a b : UInt64) : Checked UInt64 :=
  match pr with
  | .debug => if a.toNat + b.toNat < 2 ^ 64 then .ok (a + b) else .error .addOverflow
  | .release => .ok (a + b)

/-- `a - b` on `u64`. -/
def sub (pr : Profile) (a b : UInt64) : Checked UInt64 :=
  match pr with
  | .debug => if b ≤ a then .ok (a - b) else .error .subOverflow
  | .release => .ok (a - b)

/-- `debug_assert!`: compiled out of a release build. -/
def debugAssert (pr : Profile) (message : String) (c : Bool) : Checked Unit :=
  match pr with
  | .debug => if c then .ok () else .error (.assertFailed message)
  | .release => .ok ()

theorem add_ok (pr : Profile) (a b : UInt64) (h : a.toNat + b.toNat < 2 ^ 64) :
    pr.add a b = .ok (a + b) := by
  cases pr
  · exact if_pos h
  · rfl

theorem add_one_ok (pr : Profile) {a : UInt64} (h : a.toNat + 1 < 2 ^ 64) :
    pr.add a 1 = .ok (a + 1) := by
  apply add_ok
  rw [UInt64.toNat_one]
  exact h

theorem add_overflow (a b : UInt64) (h : 2 ^ 64 ≤ a.toNat + b.toNat) :
    Profile.debug.add a b = .error .addOverflow :=
  if_neg (Nat.not_lt.mpr h)

theorem fits_of_add_one {a b : UInt64} (h : Profile.debug.add a 1 = .ok b) :
    a.toNat + 1 < 2 ^ 64 := by
  by_contra hfit
  rw [add_overflow a 1 (by rw [UInt64.toNat_one]; omega)] at h
  simp at h

theorem add_error {pr : Profile} {a b : UInt64} {p : Panic} (h : pr.add a b = .error p) :
    p = .addOverflow := by
  cases pr with
  | debug =>
    simp only [add] at h
    split at h
    · simp at h
    · exact (Except.error.inj h).symm
  | release => simp [add] at h

theorem add_bind (pr : Profile) (a b : UInt64) {α : Type} (f : UInt64 → Checked α) :
    (pr.add a b >>= f) = (pr.add a b >>= fun _ => f (a + b)) := by
  cases pr
  · simp only [add]
    split <;> rfl
  · rfl

theorem add_toNat_le {pr : Profile} {a b c : UInt64} (h : pr.add a b = .ok c) :
    c.toNat ≤ a.toNat + b.toNat := by
  have hc : a + b = c := by
    cases pr with
    | debug =>
      simp only [add] at h
      split at h
      · exact Except.ok.inj h
      · simp at h
    | release => exact Except.ok.inj h
  rw [← hc, UInt64.toNat_add]
  exact Nat.mod_le _ _

theorem sub_ok (pr : Profile) (a b : UInt64) (h : b.toNat ≤ a.toNat) :
    pr.sub a b = .ok (a - b) := by
  cases pr
  · exact if_pos (UInt64.le_iff_toNat_le.mpr h)
  · rfl

theorem debugAssert_ok (pr : Profile) (message : String) {c : Bool} (h : pr = .debug → c = true) :
    pr.debugAssert message c = .ok () := by
  cases pr with
  | debug => exact if_pos (h rfl)
  | release => rfl

end Profile

/-- `a.checked_sub(b)`. -/
def UInt64.checkedSub (a b : UInt64) : Option UInt64 :=
  if b ≤ a then some (a - b) else none

theorem UInt64.checkedSub_eq_some (a b : UInt64) (h : b.toNat ≤ a.toNat) :
    a.checkedSub b = some (a - b) :=
  if_pos (UInt64.le_iff_toNat_le.mpr h)

/-- `a.saturating_mul(b)`. -/
def UInt64.saturatingMul (a b : UInt64) : UInt64 :=
  if a.toNat * b.toNat < 2 ^ 64 then a * b else UInt64.ofNat (2 ^ 64 - 1)

/-! ## `u64` values as numbers -/

theorem UInt64.toNat_add_of_fits (a b : UInt64) (h : a.toNat + b.toNat < 2 ^ 64) :
    (a + b).toNat = a.toNat + b.toNat := by
  rw [UInt64.toNat_add, Nat.mod_eq_of_lt h]

theorem UInt64.toNat_add_one {a : UInt64} (h : a.toNat + 1 < 2 ^ 64) :
    (a + 1).toNat = a.toNat + 1 := by
  apply toNat_add_of_fits
  rw [toNat_one]
  exact h

theorem UInt64.toNat_saturatingMul (a b : UInt64) :
    (a.saturatingMul b).toNat = min (a.toNat * b.toNat) (2 ^ 64 - 1) := by
  unfold saturatingMul
  split
  · next h => rw [UInt64.toNat_mul, Nat.mod_eq_of_lt h, Nat.min_eq_left (by omega)]
  · next h =>
    rw [Nat.min_eq_right (by omega)]
    rfl
