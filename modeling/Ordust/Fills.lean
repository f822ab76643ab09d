import Ordust.Reference

/-!
# The fills of the reference engine

A submission exhausts a first stretch of the opposite list and takes at most a part of the
order behind it.
-/

namespace Ordust

namespace RefBook

/-- The first resting order crosses the taker. -/
def headCrosses (taker : Order) (makers : List Order) : Bool :=
  makers.head?.any (fun m => taker.crossesAt m.px)

theorem matchOrders_stop (taker : Order) (makers : List Order)
    (h : taker.rem = 0 ∨ headCrosses taker makers = false) :
    matchOrders taker makers = ([], taker, makers) := by
  cases makers with
  | nil => rfl
  | cons m ms =>
    rw [matchOrders, if_pos]
    simpa [headCrosses] using h

theorem matchOrders_exhaust (taker m : Order) (ms : List Order) (hpos : 0 < taker.rem)
    (hc : headCrosses taker (m :: ms) = true) (hle : m.rem ≤ taker.rem) :
    matchOrders taker (m :: ms) =
      let r := matchOrders (taker.withRemaining (taker.remainingQty.val - m.remainingQty.val)) ms
      (tradeOf taker m m.remainingQty :: r.1, r.2) := by
  have hc : taker.crossesAt m.px = true := by simpa [headCrosses] using hc
  rw [matchOrders, if_neg (by simp [hc]; omega), if_pos hle]

theorem matchOrders_inside (taker m : Order) (ms : List Order) (hpos : 0 < taker.rem)
    (hc : headCrosses taker (m :: ms) = true) (hlt : taker.rem < m.rem) :
    matchOrders taker (m :: ms) = ([tradeOf taker m taker.remainingQty], taker.withRemaining 0,
      m.withRemaining (m.remainingQty.val - taker.remainingQty.val) :: ms) := by
  have hc : taker.crossesAt m.px = true := by simpa [headCrosses] using hc
  rw [matchOrders, if_neg (by simp [hc]; omega), if_neg (by omega)]

theorem crossesAt_of_not_better (o : Order) {p p' : Price}
    (h : ¬ (oppositeSide o.side).better p' p) (hc : o.crossesAt p' = true) :
    o.crossesAt p = true := by
  unfold Order.crossesAt at hc ⊢
  cases ht : o.orderType with
  | market => rfl
  | limit =>
    rw [ht] at hc
    cases hs : o.side <;> rw [hs] at h hc <;> simp only [decide_eq_true_eq] at hc ⊢
    · exact le_trans (not_lt.mp h) hc
    · exact le_trans hc (not_lt.mp h)

/-- The trades of a taker with orders that it exhausts. -/
def exhaust (taker : Order) (makers : List Order) : List Trade :=
  makers.map (fun m => tradeOf taker m m.remainingQty)

/-- How a submission ends: before an order, or inside one. -/
inductive Fills (taker : Order) (gone left : List Order) :
    List Trade × Order × List Order → Prop where
  | between (n : UInt64) (hn : n.toNat + qtySum gone = taker.rem)
      (hstop : n.toNat = 0 ∨ headCrosses taker left = false) :
      Fills taker gone left (exhaust taker gone, taker.withRemaining n, left)
  | inside (m : Order) (ms : List Order) (qty : Qty) (hleft : left = m :: ms)
      (hc : taker.crossesAt m.px = true) (hpos : 0 < qty.toNat) (hlt : qty.toNat < m.rem)
      (hn : qty.toNat + qtySum gone = taker.rem) :
      Fills taker gone left (exhaust taker gone ++ [tradeOf taker m qty], taker.withRemaining 0,
        m.withRemaining (m.remainingQty.val - qty.val) :: ms)

theorem matchOrders_fills (taker : Order) (makers : List Order) :
    ∃ gone left, makers = gone ++ left ∧ (∀ m ∈ gone, taker.crossesAt m.px = true) ∧
      Fills taker gone left (matchOrders taker makers) := by
  induction makers generalizing taker with
  | nil =>
    exact ⟨[], [], rfl, by simp, Fills.between taker.remainingQty.val rfl (Or.inr rfl)⟩
  | cons m ms ih =>
    by_cases hstop : taker.rem = 0 ∨ headCrosses taker (m :: ms) = false
    · refine ⟨[], m :: ms, rfl, by simp, ?_⟩
      rw [matchOrders_stop taker _ hstop]
      exact Fills.between taker.remainingQty.val rfl hstop
    · rw [not_or, Bool.not_eq_false] at hstop
      obtain ⟨hne, hc⟩ := hstop
      have hpos := Nat.pos_of_ne_zero hne
      have hcm : taker.crossesAt m.px = true := by simpa [headCrosses] using hc
      by_cases hle : m.rem ≤ taker.rem
      · have hrem := Order.rem_sub taker m.remainingQty hle
        obtain ⟨gone, left, rfl, hg, hf⟩ :=
          ih (taker.withRemaining (taker.remainingQty.val - m.remainingQty.val))
        refine ⟨m :: gone, left, rfl, ?_, ?_⟩
        · intro x hx
          rcases List.mem_cons.mp hx with rfl | hx
          · exact hcm
          · exact hg x hx
        · rw [matchOrders_exhaust taker m _ hpos hc hle]
          generalize matchOrders _ _ = r at hf
          cases hf with
          | between n hn hstop =>
            refine @Fills.between taker (m :: gone) left n ?_ hstop
            rw [qtySum_cons]
            simp only [Order.rem] at *
            omega
          | inside x xs qty hleft hcx hq hlt hn =>
            refine @Fills.inside taker (m :: gone) left x xs qty hleft hcx hq hlt ?_
            rw [qtySum_cons]
            simp only [Order.rem] at *
            omega
      · refine ⟨[], m :: ms, rfl, by simp, ?_⟩
        rw [matchOrders_inside taker m ms hpos hc (by omega)]
        exact Fills.inside m ms taker.remainingQty rfl hcm hpos (Nat.lt_of_not_le hle) rfl

theorem matchOrders_rest (taker : Order) (makers : List Order) :
    ∃ n, (matchOrders taker makers).2.1 = taker.withRemaining n := by
  obtain ⟨gone, left, -, -, hf⟩ := matchOrders_fills taker makers
  generalize matchOrders taker makers = r at hf ⊢
  cases hf with
  | between n => exact ⟨n, rfl⟩
  | inside => exact ⟨0, rfl⟩

theorem mem_matchOrders_left {taker x : Order} {makers : List Order}
    (hx : x ∈ (matchOrders taker makers).2.2) : ∃ y ∈ makers, ∃ n, x = y.withRemaining n := by
  obtain ⟨gone, left, rfl, -, hf⟩ := matchOrders_fills taker makers
  generalize matchOrders taker (gone ++ left) = r at hf hx
  cases hf with
  | between => exact ⟨x, List.mem_append_right _ hx, x.remainingQty.val, rfl⟩
  | inside m ms qty hleft =>
    rw [hleft]
    rcases List.mem_cons.mp hx with rfl | hx
    · exact ⟨m, by simp, _, rfl⟩
    · exact ⟨x, by simp [hx], x.remainingQty.val, rfl⟩

theorem headCrosses_eq_false {taker : Order} {left : List Order}
    (hs : Sorted (oppositeSide taker.side) left) (h : headCrosses taker left = false) :
    ∀ x ∈ left, taker.crossesAt x.px = false := by
  cases left with
  | nil => simp
  | cons m ms =>
    have hm : taker.crossesAt m.px = false := by simpa [headCrosses] using h
    intro x hx
    rcases List.mem_cons.mp hx with rfl | hx
    · exact hm
    · rw [← Bool.not_eq_true] at hm ⊢
      exact fun hc => hm (crossesAt_of_not_better taker ((List.pairwise_cons.mp hs).1 x hx) hc)

theorem matchOrders_rem (taker : Order) (makers : List Order)
    (hs : Sorted (oppositeSide taker.side) makers) :
    (matchOrders taker makers).2.1.rem =
      taker.rem - qtySum (makers.filter (fun x => taker.crossesAt x.px)) := by
  obtain ⟨gone, left, rfl, hg, hf⟩ := matchOrders_fills taker makers
  have hgone : gone.filter (fun x => taker.crossesAt x.px) = gone := List.filter_eq_self.mpr hg
  rw [List.filter_append, hgone, qtySum_append]
  generalize matchOrders taker (gone ++ left) = r at hf ⊢
  cases hf with
  | between n hn hstop =>
    show n.toNat = _
    rcases hstop with hn0 | hstop
    · omega
    · have hnone := headCrosses_eq_false (List.pairwise_append.mp hs).2.1 hstop
      have hleft : left.filter (fun x => taker.crossesAt x.px) = [] := by
        rw [List.filter_eq_nil_iff]
        intro x hx
        rw [hnone x hx]
        simp
      rw [hleft, qtySum_nil]
      omega
  | inside m ms qty hleft hc hpos hlt hn =>
    rw [hleft, List.filter_cons, if_pos hc, qtySum_cons]
    show 0 = _
    omega

theorem matchOrders_uncrossed (taker : Order) (makers : List Order)
    (hs : Sorted (oppositeSide taker.side) makers) (hpos : 0 < (matchOrders taker makers).2.1.rem) :
    ∀ x ∈ (matchOrders taker makers).2.2, taker.crossesAt x.px = false := by
  obtain ⟨gone, left, rfl, hg, hf⟩ := matchOrders_fills taker makers
  generalize matchOrders taker (gone ++ left) = r at hf hpos ⊢
  cases hf with
  | between n hn hstop =>
    have hpos : 0 < n.toNat := hpos
    exact headCrosses_eq_false (List.pairwise_append.mp hs).2.1 (hstop.resolve_left (by omega))
  | inside => exact absurd hpos (lt_irrefl 0)

/-- A trade of a submission comes when everything in front of its maker is exhausted. -/
theorem matchOrders_trade {taker : Order} {makers : List Order} {ts₁ ts₂ : List Trade} {t : Trade}
    (h : (matchOrders taker makers).1 = ts₁ ++ t :: ts₂) :
    ∃ gone m rest qty, makers = gone ++ m :: rest ∧ ts₁ = exhaust taker gone ∧
      t = tradeOf taker m qty ∧ taker.crossesAt m.px = true ∧ qty.toNat ≤ m.rem ∧
      (0 < m.rem → 0 < qty.toNat) ∧ (qty.toNat < m.rem → ts₂ = []) := by
  induction makers generalizing taker ts₁ with
  | nil => simp [matchOrders] at h
  | cons m ms ih =>
    by_cases hstop : taker.rem = 0 ∨ headCrosses taker (m :: ms) = false
    · rw [matchOrders_stop taker _ hstop] at h
      simp at h
    · rw [not_or, Bool.not_eq_false] at hstop
      obtain ⟨hne, hc⟩ := hstop
      have hpos := Nat.pos_of_ne_zero hne
      have hcm : taker.crossesAt m.px = true := by simpa [headCrosses] using hc
      by_cases hle : m.rem ≤ taker.rem
      · rw [matchOrders_exhaust taker m ms hpos hc hle] at h
        cases ts₁ with
        | nil =>
          refine ⟨[], m, ms, m.remainingQty, rfl, rfl, (List.cons.inj h).1.symm, hcm, le_refl _,
            fun hm => hm, fun hlt => absurd hlt (lt_irrefl _)⟩
        | cons t₁ ts₁ =>
          obtain ⟨ht₁, hts⟩ := List.cons.inj h
          obtain ⟨gone, m', rest, qty, rfl, rfl, rfl, hcm', hqty⟩ := ih hts
          exact ⟨m :: gone, m', rest, qty, rfl, by rw [← ht₁]; rfl, rfl, hcm', hqty⟩
      · rw [matchOrders_inside taker m ms hpos hc (Nat.lt_of_not_le hle)] at h
        cases ts₁ with
        | nil =>
          obtain ⟨ht, hts⟩ := List.cons.inj h
          exact ⟨[], m, ms, taker.remainingQty, rfl, rfl, ht.symm, hcm,
            Nat.le_of_lt (Nat.lt_of_not_le hle), fun _ => hpos, fun _ => hts.symm⟩
        | cons t₁ ts₁ =>
          have := (List.cons.inj h).2
          simp at this

def tradeSum (ts : List Trade) : Nat := (ts.map (fun t => t.qty.toNat)).sum

theorem matchOrders_total (taker : Order) (makers : List Order) :
    tradeSum (matchOrders taker makers).1 + (matchOrders taker makers).2.1.rem = taker.rem := by
  obtain ⟨gone, left, -, -, hf⟩ := matchOrders_fills taker makers
  have hgone : tradeSum (exhaust taker gone) = qtySum gone := by
    simp only [tradeSum, exhaust, List.map_map]
    rfl
  generalize matchOrders taker makers = r at hf ⊢
  cases hf with
  | between n hn hstop =>
    rw [hgone, Order.rem_withRemaining]
    omega
  | inside m ms qty hleft hc hpos hlt hn =>
    have hlast : tradeSum (exhaust taker gone ++ [tradeOf taker m qty]) =
        tradeSum (exhaust taker gone) + qty.toNat := by
      simp [tradeSum, tradeOf]
    rw [hlast, hgone, Order.rem_withRemaining, UInt64.toNat_zero]
    omega

end RefBook

end Ordust
