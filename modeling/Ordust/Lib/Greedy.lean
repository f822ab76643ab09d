import Mathlib.Algebra.Order.BigOperators.Group.List
import Mathlib.Algebra.Order.Monoid.Unbundled.Pow
import Mathlib.Algebra.Order.Ring.Nat

/-!
# Taking the cheapest first

Items are offered at a price, each in a limited amount. To use them up one after the other, the
cheapest first, costs no more than any other way to take as much. Costs are in an ordered monoid,
so that in its dual the same is said of revenue.
-/

namespace Greedy

variable {ι M : Type} [AddCommMonoid M]

/-- What `n` units cost when the items are used up one after the other. -/
def cost (price : ι → M) (amount : ι → Nat) : Nat → List ι → M
  | _, [] => 0
  | n, x :: xs => min n (amount x) • price x + cost price amount (n - min n (amount x)) xs

variable {price : ι → M} {amount : ι → Nat}

@[simp] theorem cost_zero (xs : List ι) : cost price amount 0 xs = 0 := by
  induction xs with
  | nil => rfl
  | cons x xs ih => simp [cost, ih]

theorem cost_cons_of_le {n : Nat} {x : ι} {xs : List ι} (h : amount x ≤ n) :
    cost price amount n (x :: xs) = amount x • price x + cost price amount (n - amount x) xs := by
  rw [cost, Nat.min_eq_right h]

theorem cost_cons_of_ge {n : Nat} {x : ι} {xs : List ι} (h : n ≤ amount x) :
    cost price amount n (x :: xs) = n • price x := by
  rw [cost, Nat.min_eq_left h, Nat.sub_self, cost_zero, add_zero]

variable [PartialOrder M] [IsOrderedAddMonoid M]

theorem cost_add_le {p : M} {xs : List ι} (hp : ∀ x ∈ xs, p ≤ price x) {n k : Nat}
    (h : n + k ≤ (xs.map amount).sum) :
    cost price amount n xs + k • p ≤ cost price amount (n + k) xs := by
  induction xs generalizing n k with
  | nil =>
    obtain ⟨rfl, rfl⟩ : n = 0 ∧ k = 0 := by simpa using h
    simp
  | cons x xs ih =>
    rw [List.map_cons, List.sum_cons] at h
    have hx : p ≤ price x := hp x List.mem_cons_self
    have hxs : ∀ y ∈ xs, p ≤ price y := fun y hy => hp y (List.mem_cons_of_mem _ hy)
    rcases le_total (amount x) n with hle | hle
    · -- The first item is used up either way.
      have hrest := ih hxs (n := n - amount x) (k := k) (by omega)
      rw [cost_cons_of_le hle, cost_cons_of_le (hle.trans (Nat.le_add_right n k)), add_assoc,
        show n + k - amount x = n - amount x + k by omega]
      exact add_le_add_right hrest _
    · rw [cost_cons_of_ge hle]
      rcases le_total (n + k) (amount x) with hle' | hle'
      · rw [cost_cons_of_ge hle', add_nsmul]
        exact add_le_add_right (nsmul_le_nsmul_right hx k) _
      · -- The further units come from this item and the ones behind it.
        have hrest := ih hxs (n := 0) (k := n + k - amount x) (by omega)
        rw [cost_zero, zero_add, zero_add] at hrest
        obtain ⟨j, hj⟩ := Nat.exists_eq_add_of_le hle
        have hk : k = j + (n + k - amount x) := by omega
        rw [cost_cons_of_le hle']
        calc n • price x + k • p
            = n • price x + (j • p + (n + k - amount x) • p) := by rw [← add_nsmul, ← hk]
          _ ≤ n • price x + (j • price x + cost price amount (n + k - amount x) xs) :=
              add_le_add_right (add_le_add (nsmul_le_nsmul_right hx j) hrest) _
          _ = amount x • price x + cost price amount (n + k - amount x) xs := by
              rw [hj, add_nsmul, add_assoc]

/-- No other way to take as much costs less. -/
theorem cost_le {xs : List ι} (hs : xs.Pairwise (fun x y => price x ≤ price y)) {take : ι → Nat}
    (htake : ∀ x ∈ xs, take x ≤ amount x) :
    cost price amount (xs.map take).sum xs ≤ (xs.map (fun x => take x • price x)).sum := by
  induction xs with
  | nil => exact le_refl _
  | cons x xs ih =>
    rw [List.pairwise_cons] at hs
    have hx := htake x List.mem_cons_self
    have hxs : ∀ y ∈ xs, take y ≤ amount y := fun y hy => htake y (List.mem_cons_of_mem _ hy)
    have hsum : (xs.map take).sum ≤ (xs.map amount).sum := List.sum_le_sum hxs
    rw [List.map_cons, List.map_cons, List.sum_cons, List.sum_cons, cost]
    -- What the first item gives beyond `take x` comes off the others.
    obtain ⟨k, hk⟩ : ∃ k, min (take x + (xs.map take).sum) (amount x) = take x + k :=
      Nat.exists_eq_add_of_le (le_min (Nat.le_add_right _ _) hx)
    have hle : k ≤ (xs.map take).sum := by omega
    have hfit : (xs.map take).sum - k + k ≤ (xs.map amount).sum := by omega
    have hadd := cost_add_le hs.1 hfit
    rw [Nat.sub_add_cancel hle] at hadd
    rw [hk, show take x + (xs.map take).sum - (take x + k) = (xs.map take).sum - k by omega]
    calc (take x + k) • price x + cost price amount ((xs.map take).sum - k) xs
        = take x • price x + (cost price amount ((xs.map take).sum - k) xs + k • price x) := by
          rw [add_nsmul, add_assoc, add_comm (k • price x)]
      _ ≤ take x • price x + cost price amount (xs.map take).sum xs := add_le_add_right hadd _
      _ ≤ take x • price x + (xs.map (fun y => take y • price y)).sum :=
          add_le_add_right (ih hs.2 hxs) _

end Greedy
