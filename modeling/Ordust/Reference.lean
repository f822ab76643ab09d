import Ordust.Spec.Reference
import Mathlib.Data.List.TakeWhile

/-! # The reference engine: priority, sums per price -/

namespace Ordust

/-! ## Sides and quantities -/

theorem Side.better_irrefl (s : Side) (p : Price) : ¬ s.better p p := by
  cases s <;> exact lt_irrefl p

theorem Side.better_trans {s : Side} {p q r : Price} (h : s.better p q) (h' : s.better q r) :
    s.better p r := by
  cases s
  · exact @lt_trans Price _ r q p h' h
  · exact @lt_trans Price _ p q r h h'

theorem Side.better_asymm {s : Side} {p q : Price} (h : s.better p q) : ¬ s.better q p :=
  fun h' => s.better_irrefl p (Side.better_trans h h')

theorem Side.eq_of_not_better {s : Side} {p q : Price} (h : ¬ s.better p q)
    (h' : ¬ s.better q p) : p = q := by
  cases s
  · exact le_antisymm (not_lt.mp h) (not_lt.mp h')
  · exact le_antisymm (not_lt.mp h') (not_lt.mp h)

theorem Side.better_of_better_of_not {s : Side} {p q r : Price} (h : s.better p q)
    (h' : ¬ s.better r q) : s.better p r := by
  by_cases hqr : s.better q r
  · exact Side.better_trans h hqr
  · rw [← Side.eq_of_not_better hqr h']
    exact h

@[simp] theorem oppositeSide_buy : oppositeSide .buy = .sell := rfl

@[simp] theorem oppositeSide_sell : oppositeSide .sell = .buy := rfl

@[simp] theorem oppositeSide_oppositeSide (s : Side) : oppositeSide (oppositeSide s) = s := by
  cases s <;> rfl

theorem oppositeSide_ne (s : Side) : oppositeSide s ≠ s := by
  cases s <;> simp

theorem eq_oppositeSide {s s' : Side} (h : s' ≠ s) : s' = oppositeSide s := by
  cases s <;> cases s' <;> first | rfl | exact absurd rfl h

@[simp] theorem qtySum_nil : qtySum [] = 0 := rfl

@[simp] theorem qtySum_cons (o : Order) (os : List Order) : qtySum (o :: os) = o.rem + qtySum os := rfl

@[simp] theorem qtySum_append (os ps : List Order) : qtySum (os ++ ps) = qtySum os + qtySum ps := by
  simp [qtySum]

theorem rem_le_qtySum {o : Order} {os : List Order} (h : o ∈ os) : o.rem ≤ qtySum os := by
  obtain ⟨xs, ys, rfl⟩ := List.append_of_mem h
  rw [qtySum_append, qtySum_cons]
  omega

@[simp] theorem Order.rem_withRemaining (o : Order) (n : UInt64) :
    (o.withRemaining n).rem = n.toNat := rfl

@[simp] theorem Order.px_withRemaining (o : Order) (n : UInt64) :
    (o.withRemaining n).px = o.px := rfl

@[simp] theorem Order.id_withRemaining (o : Order) (n : UInt64) :
    (o.withRemaining n).id = o.id := rfl

@[simp] theorem Order.qty_withRemaining (o : Order) (n : UInt64) :
    (o.withRemaining n).qty = o.qty := rfl

theorem Order.rem_sub (o : Order) (n : Qty) (h : n.toNat ≤ o.rem) :
    (o.withRemaining (o.remainingQty.val - n.val)).rem = o.rem - n.toNat :=
  UInt64.toNat_sub_of_le _ _ h

theorem Order.rem_eq_zero (o : Order) : o.remainingQty.val = 0 ↔ o.rem = 0 := by
  rw [Order.rem, Qty.toNat, ← UInt64.toNat_zero, UInt64.toNat_inj]

/-- A limit order has a price. -/
def Order.Priced (o : Order) : Prop := o.orderType = .limit → o.price ≠ none

/-- What every order that rests on side `s` at price `p` is like. -/
structure RestsAt (s : Side) (p : Price) (o : Order) : Prop where
  side : o.side = s
  price : o.price = some p
  limit : o.orderType = .limit
  gtc : o.tif = .gtc
  pos : 0 < o.rem

theorem RestsAt.px {s : Side} {p : Price} {o : Order} (h : RestsAt s p o) : o.px = p := by
  simp [Order.px, h.price]

theorem RestsAt.withRemaining {s : Side} {p : Price} {o : Order} (h : RestsAt s p o) (n : UInt64)
    (hn : 0 < n.toNat) : RestsAt s p (o.withRemaining n) :=
  ⟨h.side, h.price, h.limit, h.gtc, hn⟩

namespace RefBook

/-! ## Insertion -/

theorem insertOrder_append (o : Order) (before after : List Order)
    (hb : ∀ y ∈ before, ¬ o.side.better o.px y.px) (ha : ∀ y ∈ after, o.side.better o.px y.px) :
    insertOrder o (before ++ after) = before ++ o :: after := by
  have hgood : ∀ y ∈ before, decide (¬ o.side.better o.px y.px) = true := by
    intro y hy
    rw [decide_eq_true_eq]
    exact hb y hy
  rw [insertOrder, List.takeWhile_append_of_pos hgood, List.dropWhile_append_of_pos hgood]
  cases after with
  | nil => simp
  | cons z zs =>
    have hz := ha z List.mem_cons_self
    rw [List.takeWhile_cons_of_neg (by simp [hz]), List.dropWhile_cons_of_neg (by simp [hz])]
    simp

theorem insertOrder_split (o : Order) (before xs after : List Order)
    (hb : ∀ y ∈ before, o.side.better y.px o.px) (hx : ∀ y ∈ xs, y.px = o.px)
    (ha : ∀ y ∈ after, o.side.better o.px y.px) :
    insertOrder o (before ++ xs ++ after) = before ++ (xs ++ [o]) ++ after := by
  rw [insertOrder_append o (before ++ xs) after _ ha]
  · simp
  · intro y hy
    rcases List.mem_append.mp hy with hy | hy
    · exact Side.better_asymm (hb y hy)
    · rw [hx y hy]
      exact o.side.better_irrefl _

/-- Best price first. -/
def Sorted (s : Side) (os : List Order) : Prop := os.Pairwise (fun x y => ¬ s.better y.px x.px)

theorem Sorted.exists_cut {o : Order} {os : List Order} (h : Sorted o.side os) :
    ∃ before after, os = before ++ after ∧ (∀ y ∈ before, ¬ o.side.better o.px y.px) ∧
      (∀ y ∈ after, o.side.better o.px y.px) ∧ insertOrder o os = before ++ o :: after := by
  refine ⟨_, _, List.takeWhile_append_dropWhile.symm, ?_, ?_, rfl⟩
  · intro y hy
    simpa using List.mem_takeWhile_imp hy
  · cases hd : os.dropWhile (fun x => decide (¬ o.side.better o.px x.px)) with
    | nil => simp
    | cons z zs =>
      have hz : o.side.better o.px z.px := by
        have := List.head?_dropWhile_not (fun x => decide (¬ o.side.better o.px x.px)) os
        rw [hd] at this
        simpa using this
      have hsub : Sorted o.side (z :: zs) := by
        rw [← hd]
        exact h.sublist (List.dropWhile_sublist _)
      intro y hy
      rcases List.mem_cons.mp hy with rfl | hy
      · exact hz
      · exact Side.better_of_better_of_not hz ((List.pairwise_cons.mp hsub).1 y hy)

theorem Sorted.insertOrder {o : Order} {os : List Order} (h : Sorted o.side os) :
    Sorted o.side (insertOrder o os) := by
  obtain ⟨before, after, rfl, hb, ha, hins⟩ := h.exists_cut
  obtain ⟨hbefore, hafter, hcross⟩ := List.pairwise_append.mp h
  rw [hins, Sorted, List.pairwise_append, List.pairwise_cons]
  refine ⟨hbefore, ⟨fun y hy => Side.better_asymm (ha y hy), hafter⟩, ?_⟩
  intro x hx y hy
  rcases List.mem_cons.mp hy with rfl | hy
  · exact hb x hx
  · exact hcross x hx y hy

theorem Sorted.pairwise_insertOrder_iff {R : Order → Order → Prop} {o : Order} {os : List Order}
    (h : Sorted o.side os) :
    (RefBook.insertOrder o os).Pairwise (fun x y => x.px = y.px → R x y) ↔
      os.Pairwise (fun x y => x.px = y.px → R x y) ∧ ∀ x ∈ os, x.px = o.px → R x o := by
  obtain ⟨before, after, rfl, -, ha, hins⟩ := h.exists_cut
  have hworse : ∀ y ∈ after, o.px ≠ y.px := by
    intro y hy hpx
    exact absurd (ha y hy) (hpx ▸ o.side.better_irrefl _)
  rw [hins, List.pairwise_append, List.pairwise_append, List.pairwise_cons]
  constructor
  · rintro ⟨hbefore, ⟨-, hafter⟩, hcross⟩
    refine ⟨⟨hbefore, hafter, fun x hx y hy => hcross x hx y (List.mem_cons_of_mem _ hy)⟩, ?_⟩
    intro x hx hpx
    rcases List.mem_append.mp hx with hx | hx
    · exact hcross x hx o List.mem_cons_self hpx
    · exact absurd hpx.symm (hworse x hx)
  · rintro ⟨⟨hbefore, hafter, hcross⟩, hlast⟩
    refine ⟨hbefore, ⟨fun y hy hpx => absurd hpx (hworse y hy), hafter⟩, ?_⟩
    intro x hx y hy
    rcases List.mem_cons.mp hy with rfl | hy
    · exact hlast x (List.mem_append_left _ hx)
    · exact hcross x hx y hy

theorem insertOrder_perm (o : Order) (os : List Order) : (insertOrder o os).Perm (o :: os) := by
  rw [insertOrder]
  exact List.perm_middle.trans (by rw [List.takeWhile_append_dropWhile])

/-! ## Sums per price -/

theorem mem_perPrice {os : List Order} {l : Price × Nat} (h : l ∈ perPrice os) :
    ∃ o ∈ os, o.px = l.1 := by
  induction os generalizing l with
  | nil => simp [perPrice] at h
  | cons o os ih =>
    rw [perPrice] at h
    split at h
    · obtain rfl := List.mem_singleton.mp h
      exact ⟨o, List.mem_cons_self, rfl⟩
    · next p n ls he =>
      have htail : ∀ l ∈ ls, ∃ o' ∈ o :: os, o'.px = l.1 := by
        intro l hl
        obtain ⟨o', ho', hp⟩ := @ih l (by rw [he]; exact List.mem_cons_of_mem _ hl)
        exact ⟨o', List.mem_cons_of_mem _ ho', hp⟩
      split at h
      · next hp =>
        rcases List.mem_cons.mp h with rfl | h
        · exact ⟨o, List.mem_cons_self, hp.symm⟩
        · exact htail l h
      · rcases List.mem_cons.mp h with rfl | h
        · exact ⟨o, List.mem_cons_self, rfl⟩
        · obtain ⟨o', ho', hp⟩ := @ih l (by rw [he]; exact h)
          exact ⟨o', List.mem_cons_of_mem _ ho', hp⟩

theorem perPrice_run (p : Price) (xs os : List Order) (hne : xs ≠ [])
    (hx : ∀ x ∈ xs, x.px = p) (hos : ∀ o ∈ os, o.px ≠ p) :
    perPrice (xs ++ os) = (p, qtySum xs) :: perPrice os := by
  induction xs with
  | nil => exact absurd rfl hne
  | cons x xs ih =>
    have hxp := hx x List.mem_cons_self
    rw [List.cons_append, perPrice]
    by_cases hxs : xs = []
    · subst hxs
      rw [List.nil_append]
      cases hl : perPrice os with
      | nil => simp [hxp]
      | cons l ls =>
        obtain ⟨o, ho, hpo⟩ := @mem_perPrice os l (by rw [hl]; exact List.mem_cons_self)
        have hlp : ¬ l.1 = p := hpo ▸ hos o ho
        simp [hxp, hlp]
    · rw [ih hxs (fun y hy => hx y (List.mem_cons_of_mem _ hy))]
      simp [hxp]

theorem perPrice_takeWhile (P : Price → Bool) (os : List Order) :
    (((perPrice os).takeWhile (fun l => P l.1)).map Prod.snd).sum =
      qtySum (os.takeWhile (fun o => P o.px)) := by
  induction os with
  | nil => rfl
  | cons o os ih =>
    rw [perPrice, List.takeWhile_cons]
    by_cases hP : P o.px = true
    · rw [if_pos hP, qtySum_cons, ← ih]
      split
      · next h => simp [h, hP]
      · next p n ls h =>
        rw [h]
        split
        · next hp =>
          subst hp
          simp [hP, Nat.add_assoc]
        · simp [hP]
    · rw [if_neg hP]
      split
      · simp [hP]
      · next p n ls h =>
        split
        · next hp =>
          subst hp
          simp [hP]
        · simp [hP]

theorem qtySum_le_of_sublist {os ps : List Order} (h : os.Sublist ps) : qtySum os ≤ qtySum ps := by
  induction h with
  | slnil => rfl
  | cons o _ ih => rw [qtySum_cons]; omega
  | cons_cons o _ ih => rw [qtySum_cons, qtySum_cons]; omega

/-! ## Identifiers -/

theorem mem_ids (r : RefBook) (id : OrderId) : id ∈ r.ids ↔ ∃ s o, o ∈ r s ∧ o.id = id := by
  simp only [ids, List.mem_map, List.mem_append]
  constructor
  · rintro ⟨o, ho | ho, hid⟩
    · exact ⟨.buy, o, ho, hid⟩
    · exact ⟨.sell, o, ho, hid⟩
  · rintro ⟨s, o, ho, hid⟩
    cases s
    · exact ⟨o, Or.inl ho, hid⟩
    · exact ⟨o, Or.inr ho, hid⟩

theorem filter_id_ne (xs ys : List Order) (o : Order)
    (hnd : ((xs ++ o :: ys).map Order.id).Nodup) :
    (xs ++ o :: ys).filter (fun x => x.id ≠ o.id) = xs ++ ys := by
  rw [List.map_append, List.map_cons, List.nodup_append, List.nodup_cons] at hnd
  obtain ⟨-, ⟨hy, -⟩, hcross⟩ := hnd
  rw [List.filter_append, List.filter_cons_of_neg (by simp)]
  congr 1
  · rw [List.filter_eq_self]
    intro x hx
    rw [decide_eq_true_eq]
    exact hcross x.id (List.mem_map_of_mem hx) o.id List.mem_cons_self
  · rw [List.filter_eq_self]
    intro x hx
    rw [decide_eq_true_eq]
    intro he
    exact hy (he ▸ List.mem_map_of_mem hx)

end RefBook

end Ordust
