import Ordust.Log
import Ordust.Observe

/-!
# Splitting a taker

Two submissions, one behind the other, do to the book what one submission of their sum does.
-/

namespace Ordust

open RefBook

/-- `o₁` and `o₂` are the order `o` in two parts. -/
structure Splits (o o₁ o₂ : Order) : Prop where
  side : o₁.side = o.side ∧ o₂.side = o.side
  orderType : o₁.orderType = o.orderType ∧ o₂.orderType = o.orderType
  tif : o₁.tif = o.tif ∧ o₂.tif = o.tif
  price : o₁.price = o.price ∧ o₂.price = o.price
  rem : o.rem = o₁.rem + o₂.rem

namespace RefBook

/-! ## The fills -/

theorem madeBy_cons_trade (id : OrderId) (taker m : Order) (qty : Qty) (ts : List Trade) :
    madeBy id ((tradeOf taker m qty :: ts).map .trade) =
      (if m.id = id then qty.toNat else 0) + madeBy id (ts.map .trade) := rfl

/-- The match `m` does to the makers what `m₁` and then `m₂` do. -/
structure Composes (m m₁ m₂ : List Trade × Order × List Order) : Prop where
  left : m.2.2 = m₂.2.2
  rem : m.2.1.rem = m₁.2.1.rem + m₂.2.1.rem
  made : ∀ id, madeBy id (m.1.map .trade) = madeBy id (m₁.1.map .trade) + madeBy id (m₂.1.map .trade)

theorem matchOrders_congr {t t' : Order} (makers : List Order) (hc : t'.crossesAt = t.crossesAt)
    (hq : t'.remainingQty = t.remainingQty) (z : Order) (hz : z.rem = 0) :
    Composes (matchOrders t makers) ([], z, makers) (matchOrders t' makers) := by
  induction makers generalizing t t' with
  | nil => exact ⟨rfl, by simp [matchOrders, Order.rem, hq, show z.remainingQty.toNat = 0 from hz], fun _ => rfl⟩
  | cons k ks ih =>
    have hrem : t'.rem = t.rem := by rw [Order.rem, hq]; rfl
    rw [matchOrders, matchOrders, hrem, hc, hq]
    split
    · exact ⟨rfl, by simp [hz, hrem], by simp⟩
    · split
      · obtain ⟨hleft, hr, hmade⟩ := @ih (t.withRemaining (t.remainingQty.val - k.remainingQty.val))
          (t'.withRemaining (t.remainingQty.val - k.remainingQty.val)) hc rfl
        refine ⟨hleft, hr, fun id => ?_⟩
        have := hmade id
        simp only [madeBy_cons_trade, List.map_nil, madeBy_nil] at this ⊢
        omega
      · exact ⟨rfl, by simp [hz], fun id => (Nat.zero_add _).symm⟩

theorem matchOrders_split_inside {t t₁ t₂ k : Order} {ks : List Order} {n : UInt64}
    (hc₂ : t₂.crossesAt = t.crossesAt) (hrem : t.rem = t₁.rem + t₂.rem) (hpos₁ : 0 < t₁.rem)
    (hcross : headCrosses t (k :: ks) = true) (hn : t₁.rem + n.toNat = k.rem) (hn0 : 0 < n.toNat) :
    Composes (matchOrders t (k :: ks))
      ([tradeOf t₁ k t₁.remainingQty], t₁.withRemaining 0, k.withRemaining n :: ks)
      (matchOrders t₂ (k.withRemaining n :: ks)) := by
  have hcross₂ : headCrosses t₂ (k.withRemaining n :: ks) = true := by
    rw [← hcross]
    simp [headCrosses, hc₂]
  have ht₁ : t₁.remainingQty.toNat = t₁.rem := rfl
  have ht₂ : t₂.remainingQty.toNat = t₂.rem := rfl
  have ht : t.remainingQty.toNat = t.rem := rfl
  have hk : k.remainingQty.toNat = k.rem := rfl
  have hkn : (k.withRemaining n).rem = n.toNat := rfl
  by_cases hle : k.rem ≤ t.rem
  · -- The second part exhausts the head, and so does the whole.
    have hle₂ : n.toNat ≤ t₂.rem := by omega
    have hsub := Order.rem_sub t k.remainingQty hle
    have hsub₂ := Order.rem_sub t₂ ⟨n⟩ hle₂
    have hq : t₂.remainingQty.val - n = t.remainingQty.val - k.remainingQty.val := by
      apply UInt64.toNat_inj.mp
      rw [Order.rem_withRemaining] at hsub hsub₂
      simp only [hsub, hsub₂, show (⟨n⟩ : Qty).toNat = n.toNat from rfl]
      omega
    obtain ⟨hleft, hr, hmade⟩ := @matchOrders_congr
      (t.withRemaining (t.remainingQty.val - k.remainingQty.val))
      (t₂.withRemaining (t₂.remainingQty.val - n)) ks hc₂ (congrArg Qty.mk hq)
      (t₁.withRemaining 0) rfl
    rw [matchOrders_exhaust t k ks (by omega) hcross hle,
      matchOrders_exhaust t₂ _ ks (by omega) hcross₂ hle₂]
    refine ⟨hleft, hr, fun id => ?_⟩
    have := hmade id
    simp only [madeBy_cons_trade, List.map_nil, madeBy_nil, Order.id_withRemaining,
      show (k.withRemaining n).remainingQty = ⟨n⟩ from rfl,
      show (⟨n⟩ : Qty).toNat = n.toNat from rfl] at this ⊢
    split_ifs <;> omega
  · have hsub := Order.rem_sub k t.remainingQty (by omega)
    rw [matchOrders_inside t k ks (by omega) hcross (by omega)]
    by_cases h0 : t₂.rem = 0
    · have hq : k.remainingQty.val - t.remainingQty.val = n := by
        apply UInt64.toNat_inj.mp
        rw [Order.rem_withRemaining] at hsub
        omega
      rw [matchOrders_stop t₂ _ (Or.inl h0), hq]
      refine ⟨rfl, by simp [h0], fun id => ?_⟩
      simp only [madeBy_cons_trade, List.map_nil, madeBy_nil]
      split_ifs <;> omega
    · have hsub₂ := Order.rem_sub (k.withRemaining n) t₂.remainingQty (by omega)
      have hq : k.remainingQty.val - t.remainingQty.val = n - t₂.remainingQty.val := by
        apply UInt64.toNat_inj.mp
        rw [Order.rem_withRemaining] at hsub
        have hsub₂ : (n - t₂.remainingQty.val).toNat = n.toNat - t₂.remainingQty.toNat := hsub₂
        omega
      rw [matchOrders_inside t₂ _ ks (by omega) hcross₂ (by omega), hq]
      refine ⟨rfl, by simp, fun id => ?_⟩
      simp only [madeBy_cons_trade, List.map_nil, madeBy_nil, Order.id_withRemaining]
      by_cases hid : k.id = id <;> simp only [hid, if_true, if_false]
      omega

/-- The parts, one behind the other, take the same from each maker and leave the same. -/
theorem matchOrders_split {t t₁ t₂ : Order} (makers : List Order)
    (hc₁ : t₁.crossesAt = t.crossesAt) (hc₂ : t₂.crossesAt = t.crossesAt)
    (hrem : t.rem = t₁.rem + t₂.rem) :
    Composes (matchOrders t makers) (matchOrders t₁ makers)
      (matchOrders t₂ (matchOrders t₁ makers).2.2) := by
  induction makers generalizing t t₁ t₂ with
  | nil => exact ⟨rfl, hrem, fun _ => rfl⟩
  | cons k ks ih =>
    have hhead₁ : headCrosses t₁ (k :: ks) = headCrosses t (k :: ks) := by
      simp only [headCrosses, hc₁]
    have hhead₂ : headCrosses t₂ (k :: ks) = headCrosses t (k :: ks) := by
      simp only [headCrosses, hc₂]
    by_cases hstop : t.rem = 0 ∨ headCrosses t (k :: ks) = false
    · have hstop₁ : t₁.rem = 0 ∨ headCrosses t₁ (k :: ks) = false := by
        rw [hhead₁]
        exact hstop.imp_left (fun h0 => by omega)
      have hstop₂ : t₂.rem = 0 ∨ headCrosses t₂ (k :: ks) = false := by
        rw [hhead₂]
        exact hstop.imp_left (fun h0 => by omega)
      rw [matchOrders_stop t _ hstop, matchOrders_stop t₁ _ hstop₁, matchOrders_stop t₂ _ hstop₂]
      exact ⟨rfl, hrem, fun _ => rfl⟩
    · rw [not_or, Bool.not_eq_false] at hstop
      obtain ⟨hne, hcross⟩ := hstop
      by_cases h0 : t₁.rem = 0
      · -- The first part is nothing.
        rw [matchOrders_stop t₁ _ (Or.inl h0)]
        refine matchOrders_congr _ hc₂ (Qty.eq_of_toNat ?_) t₁ h0
        show t₂.rem = t.rem
        omega
      · by_cases hle₁ : k.rem ≤ t₁.rem
        · -- The first part exhausts the head, and so does the whole.
          have hle : k.rem ≤ t.rem := by omega
          have hsub := Order.rem_sub t k.remainingQty hle
          have hsub₁ := Order.rem_sub t₁ k.remainingQty hle₁
          have hk : k.remainingQty.toNat = k.rem := rfl
          obtain ⟨hleft, hr, hmade⟩ := @ih (t.withRemaining (t.remainingQty.val - k.remainingQty.val))
            (t₁.withRemaining (t₁.remainingQty.val - k.remainingQty.val)) t₂ hc₁ hc₂ (by omega)
          rw [matchOrders_exhaust t k ks (by omega) hcross hle,
            matchOrders_exhaust t₁ k ks (by omega) (hhead₁.trans hcross) hle₁]
          refine ⟨hleft, hr, fun id => ?_⟩
          have := hmade id
          simp only [madeBy_cons_trade] at this ⊢
          omega
        · have hlt₁ : t₁.rem < k.rem := by omega
          have hsub := Order.rem_sub k t₁.remainingQty (Nat.le_of_lt hlt₁)
          rw [Order.rem_withRemaining, show t₁.remainingQty.toNat = t₁.rem from rfl] at hsub
          rw [matchOrders_inside t₁ k ks (by omega) (hhead₁.trans hcross) hlt₁]
          exact matchOrders_split_inside hc₂ hrem (by omega) hcross (by omega) (by omega)

/-! ## What rests -/

/-- A side on which the remainder `o` comes to rest, if there is any. -/
def restOn (o : Order) (os : List Order) : List Order :=
  if o.rem = 0 then os else insertOrder o os

theorem perPrice_append_congr (xs : List Order) {os ps : List Order} (h : perPrice os = perPrice ps) :
    perPrice (xs ++ os) = perPrice (xs ++ ps) := by
  induction xs with
  | nil => exact h
  | cons x xs ih => rw [List.cons_append, List.cons_append, perPrice, perPrice, ih]

theorem perPrice_cons_congr {x y : Order} (os : List Order) (hp : y.px = x.px) (hr : y.rem = x.rem) :
    perPrice (y :: os) = perPrice (x :: os) := by
  rw [perPrice, perPrice, hp, hr]

theorem perPrice_merge {x y z : Order} (os : List Order) (hy : y.px = x.px) (hz : z.px = x.px)
    (hrem : z.rem = x.rem + y.rem) : perPrice (x :: y :: os) = perPrice (z :: os) := by
  simp only [perPrice, hy, hz, hrem]
  cases perPrice os with
  | nil => simp
  | cons l ls =>
    obtain ⟨p, n⟩ := l
    by_cases hp : p = x.px <;> simp [hp, Nat.add_assoc]

theorem insertOrder_twice {x : Order} {os : List Order} (h : Sorted x.side os) :
    ∃ before after, ∀ y, y.side = x.side → y.px = x.px → insertOrder y os = before ++ y :: after ∧
      insertOrder y (insertOrder x os) = before ++ x :: y :: after := by
  obtain ⟨before, after, rfl, hb, ha, hins⟩ := h.exists_cut
  refine ⟨before, after, ?_⟩
  intro y hs hp
  rw [← hs, ← hp] at hb ha
  refine ⟨insertOrder_append y before after hb ha, ?_⟩
  rw [hins, List.append_cons, insertOrder_append y (before ++ [x]) after _ ha]
  · simp
  · intro z hz
    rcases List.mem_append.mp hz with hz | hz
    · exact hb z hz
    · rw [List.mem_singleton.mp hz, ← hp]
      exact y.side.better_irrefl _

theorem perPrice_restOn {x y z : Order} {os : List Order} (h : Sorted x.side os)
    (hy : y.side = x.side ∧ y.px = x.px) (hz : z.side = x.side ∧ z.px = x.px)
    (hrem : z.rem = x.rem + y.rem) :
    perPrice (restOn y (restOn x os)) = perPrice (restOn z os) := by
  obtain ⟨before, after, hins⟩ := insertOrder_twice h
  have hone : ∀ w, w.side = x.side → w.px = x.px → w.rem = z.rem →
      perPrice (insertOrder w os) = perPrice (insertOrder z os) := by
    intro w hs hp hr
    rw [(hins w hs hp).1, (hins z hz.1 hz.2).1]
    exact perPrice_append_congr before (perPrice_cons_congr after (hp.trans hz.2.symm) hr)
  unfold restOn
  by_cases hx0 : x.rem = 0
  · by_cases hy0 : y.rem = 0
    · rw [if_pos hx0, if_pos hy0, if_pos (by omega)]
    · rw [if_pos hx0, if_neg hy0, if_neg (by omega)]
      exact hone y hy.1 hy.2 (by omega)
  · by_cases hy0 : y.rem = 0
    · rw [if_neg hx0, if_pos hy0, if_neg (by omega)]
      exact hone x rfl rfl (by omega)
    · rw [if_neg hx0, if_neg hy0, if_neg (by omega), (hins y hy.1 hy.2).2, (hins z hz.1 hz.2).1]
      exact perPrice_append_congr before (perPrice_merge after hy.2 hz.2 hrem)

theorem qtySum_filter_restOn (o : Order) (os : List Order) (p : Price) (hp : o.px = p) :
    qtySum ((restOn o os).filter (fun x => x.px = p)) =
      qtySum (os.filter (fun x => x.px = p)) + o.rem := by
  unfold restOn
  split
  · omega
  · have hperm := ((insertOrder_perm o os).filter (fun x => x.px = p)).map Order.rem
    rw [List.filter_cons_of_pos (by simp [hp])] at hperm
    have hsum : qtySum _ = qtySum _ := hperm.sum_eq
    rw [hsum, qtySum_cons, Nat.add_comm]

/-! ## The book after a submission -/

theorem submit_settle {r : RefBook} {o : Order} (hv : r.validate o = .ok ()) (ht : o.tif ≠ .fok) :
    r.submit o = r.settle o := by
  rw [submit_eq, hv]
  simp only [ht, false_and, if_false]

theorem settle_events (r : RefBook) (o : Order) : ∃ evs, (r.settle o).1 = .ok evs ∧
    ∀ id, madeBy id evs = madeBy id ((matchOrders o (r (oppositeSide o.side))).1.map .trade) := by
  refine ⟨_, rfl, fun id => ?_⟩
  have hending : ∀ (r' : RefBook) (o' : Order), madeBy id (remainder r' o').1 = 0 := by
    intro r' o'
    unfold remainder
    split
    · rfl
    · cases o'.tif <;> rfl
  rw [madeBy_append, madeBy_cons, hending]
  simp [BookEvent.madeBy]

theorem settle_opposite (r : RefBook) (o : Order) : (r.settle o).2 (oppositeSide o.side) =
    (matchOrders o (r (oppositeSide o.side))).2.2 := by
  obtain ⟨n, hn⟩ := matchOrders_rest o (r (oppositeSide o.side))
  simp only [settle, hn, remainder]
  split
  · exact Function.update_self ..
  · split
    · show Function.update _ o.side _ _ = _
      rw [Function.update_of_ne (oppositeSide_ne _), Function.update_self]
    · exact Function.update_self ..
    · exact Function.update_self ..

theorem settle_own (r : RefBook) (o : Order) : (r.settle o).2 o.side =
    if o.tif = .gtc then restOn (matchOrders o (r (oppositeSide o.side))).2.1 (r o.side)
    else r o.side := by
  obtain ⟨n, hn⟩ := matchOrders_rest o (r (oppositeSide o.side))
  simp only [settle, hn, remainder, restOn]
  have hown : ∀ os, Function.update r (oppositeSide o.side) os o.side = r o.side :=
    fun os => Function.update_of_ne (oppositeSide_ne o.side).symm ..
  split
  · exact (hown _).trans (ite_self _).symm
  · cases ht : o.tif <;> simp [show (o.withRemaining n).tif = o.tif from rfl, ht, hown,
      show (o.withRemaining n).side = o.side from rfl]

end RefBook

namespace Splits

variable {r : RefBook} {o o₁ o₂ : Order}

theorem px (h : Splits o o₁ o₂) : o₁.px = o.px ∧ o₂.px = o.px := by
  simp [Order.px, h.price.1, h.price.2]

theorem crossesAt (h : Splits o o₁ o₂) :
    o₁.crossesAt = o.crossesAt ∧ o₂.crossesAt = o.crossesAt := by
  constructor <;> funext p
  · rw [Order.crossesAt, Order.crossesAt, h.orderType.1, h.side.1, h.px.1]
  · rw [Order.crossesAt, Order.crossesAt, h.orderType.2, h.side.2, h.px.2]

theorem composes (h : Splits o o₁ o₂) (r : RefBook) :
    Composes (matchOrders o (r (oppositeSide o.side))) (matchOrders o₁ (r (oppositeSide o₁.side)))
      (matchOrders o₂ ((r.settle o₁).2 (oppositeSide o₂.side))) := by
  rw [show o₂.side = o₁.side from h.side.2.trans h.side.1.symm, settle_opposite, h.side.1]
  exact matchOrders_split _ h.crossesAt.1 h.crossesAt.2 h.rem

theorem settle_opposite (h : Splits o o₁ o₂) (r : RefBook) :
    ((r.settle o₁).2.settle o₂).2 (oppositeSide o.side) = (r.settle o).2 (oppositeSide o.side) := by
  have hleft := (h.composes r).left
  rw [RefBook.settle_opposite r o, hleft, ← h.side.2, RefBook.settle_opposite]

theorem settle_perPrice (h : Splits o o₁ o₂) (hok : Ok r) (s : Side) :
    perPrice (((r.settle o₁).2.settle o₂).2 s) = perPrice ((r.settle o).2 s) := by
  by_cases hs : s = o.side
  · subst hs
    have hrem := (h.composes r).rem
    have hown := settle_own (r.settle o₁).2 o₂
    have hown₁ := settle_own r o₁
    rw [h.side.2, h.tif.2] at hown
    rw [h.side.1, h.tif.1] at hown₁
    rw [settle_own r o, hown, hown₁]
    split
    · obtain ⟨n, hn⟩ := matchOrders_rest o (r (oppositeSide o.side))
      obtain ⟨n₁, hn₁⟩ := matchOrders_rest o₁ (r (oppositeSide o.side))
      obtain ⟨n₂, hn₂⟩ := matchOrders_rest o₂ ((r.settle o₁).2 (oppositeSide o.side))
      rw [h.side.1, h.side.2] at hrem
      rw [hn, hn₁, hn₂] at hrem ⊢
      apply perPrice_restOn
      · show Sorted o₁.side _
        rw [h.side.1]
        exact hok.sorted o.side
      · exact ⟨h.side.2.trans h.side.1.symm, h.px.2.trans h.px.1.symm⟩
      · exact ⟨h.side.1.symm, h.px.1.symm⟩
      · exact hrem
    · rfl
  · rw [eq_oppositeSide hs, h.settle_opposite]

theorem settle_ioc (h : Splits o o₁ o₂) (ht : o.tif = .ioc) :
    ((r.settle o₁).2.settle o₂).2 = (r.settle o).2 := by
  funext s
  by_cases hs : s = o.side
  · subst hs
    have hown := settle_own (r.settle o₁).2 o₂
    have hown₁ := settle_own r o₁
    rw [h.side.2, h.tif.2] at hown
    rw [h.side.1, h.tif.1] at hown₁
    rw [settle_own r o, hown, hown₁]
    simp [ht]
  · rw [eq_oppositeSide hs, h.settle_opposite]

theorem crossingQty (h : Splits o o₁ o₂) (r : RefBook) : r.crossingQty o₁ = r.crossingQty o := by
  rw [RefBook.crossingQty, RefBook.crossingQty, h.side.1, h.crossesAt.1]

theorem fits (h : Splits o o₁ o₂) (hok : Ok r) (hok₁ : Ok (r.settle o₁).2) (ht : o.tif ≠ .fok)
    (hv : r.validate o = .ok ()) (hfit : r.Fits (.submit o)) :
    r.Fits (.submit o₁) ∧ (r.settle o₁).2.Fits (.submit o₂) := by
  have hroom := (hfit hv).2
  have hsum := h.rem
  constructor
  · intro _
    refine ⟨fun hf => absurd (h.tif.1.symm.trans hf) ht, fun hg => ?_⟩
    have := hroom (h.tif.1.symm.trans hg)
    rw [h.crossingQty, h.side.1, h.px.1]
    omega
  · intro _
    refine ⟨fun hf => absurd (h.tif.2.symm.trans hf) ht, fun hg => ?_⟩
    have hg' : o.tif = .gtc := h.tif.2.symm.trans hg
    have hlt := hroom hg'
    have hrem := (h.composes r).rem
    rw [matchOrders_rem o _ (hok.sorted _), matchOrders_rem o₂ _ (hok₁.sorted _)] at hrem
    -- What came to rest of the first part is at the level already.
    have hown₁ := settle_own r o₁
    rw [h.tif.1, if_pos hg', h.side.1] at hown₁
    obtain ⟨n₁, hn₁⟩ := matchOrders_rest o₁ (r (oppositeSide o.side))
    have hlevel : (r.settle o₁).2.levelQty o₂.side o₂.px = r.levelQty o.side o.px + n₁.toNat := by
      rw [h.side.2, h.px.2, levelQty, hown₁, hn₁,
        qtySum_filter_restOn (o₁.withRemaining n₁) _ _ h.px.1]
      rfl
    rw [h.side.1, hn₁, Order.rem_withRemaining] at hrem
    rw [hlevel]
    unfold RefBook.crossingQty at hlt ⊢
    omega

theorem valid_second (h : Splits o o₁ o₂) (hok : Ok r) (ht : o.tif ≠ .fok)
    (hv₁ : r.validate o₁ = .ok ()) (hv₂ : r.validate o₂ = .ok ()) (hne : o₁.id ≠ o₂.id) :
    Ok (r.settle o₁).2 ∧ (r.settle o₁).2.validate o₂ = .ok () := by
  have ht₁ : o₁.tif ≠ .fok := fun hf => ht (h.tif.1.symm.trans hf)
  have hcall : r.call (.submit o₁) = r.settle o₁ := submit_settle hv₁ ht₁
  refine ⟨hcall ▸ hok.call (.submit o₁), ?_⟩
  obtain ⟨evs, hevs, he⟩ : ∃ evs, (r.call (.submit o₁)).1 = .ok evs ∧
      Effect r (.submit o₁) evs (r.call (.submit o₁)).2 := by
    rcases call_effect hok (.submit o₁) with ⟨err, hc⟩ | he
    · rw [hcall] at hc
      obtain ⟨evs, hevs, -⟩ := settle_events r o₁
      rw [hc] at hevs
      simp at hevs
    · exact he
  rw [hcall] at he
  have hfresh := (he.quiet (validate_ok hv₂).2.2.2 (fun o' ho' => by
    obtain rfl := Call.submit.inj ho'
    exact hne)).2.2.2
  rw [← hv₂]
  unfold validate
  rw [if_neg (c := o₂.id ∈ r.ids) (validate_ok hv₂).2.2.2, if_neg (c := o₂.id ∈ (r.settle o₁).2.ids) hfresh]

end Splits

variable {S : Type} [Slab S OrderNode]

namespace Engine

variable {e : Engine S} {q : Queues} {o o₁ o₂ : Order}

/-- The events `evs` and the engine `e'` that the order `o` leads to, against those of its two parts. -/
structure SplitsAlike (o : Order) (evs evs₁ evs₂ : List BookEvent) (e' e₂ : Engine S) : Prop where
  made : ∀ id, madeBy id (evs₁ ++ evs₂) = madeBy id evs
  opposite : e₂.book.resting (oppositeSide o.side) = e'.book.resting (oppositeSide o.side)
  depth : ∀ s n, e₂.book.depth s n = e'.book.depth s n
  ioc : o.tif = .ioc → e₂.book.resting = e'.book.resting ∧ e₂.book.Alike e'.book

theorem submit_does (h : BookRep e.book q) (hok : Ok e.book.resting)
    (hfit : e.book.resting.Fits (.submit o)) : Does (fun pr => e.submitOrder pr o)
      (e.book.resting.submit o).1 (e.book.resting.submit o).2 := by
  rcases submit_refines h hok o with ⟨-, hdoes⟩ | ⟨hno, -⟩
  · exact hdoes
  · exact absurd hfit hno

theorem splitsAlike (h : BookRep e.book q) (hok : Ok e.book.resting) (hs : Splits o o₁ o₂)
    (ht : o.tif ≠ .fok) (hv : e.book.resting.validate o = .ok ())
    (hv₁ : e.book.resting.validate o₁ = .ok ()) (hv₂ : e.book.resting.validate o₂ = .ok ())
    (hne : o₁.id ≠ o₂.id) (hfit : e.book.resting.Fits (.submit o)) :
    ∃ evs evs₁ evs₂ e' e₁ e₂, (∀ pr, e.submitOrder pr o = .ok (.ok evs, e')) ∧
      (∀ pr, e.submitOrder pr o₁ = .ok (.ok evs₁, e₁)) ∧
      (∀ pr, e₁.submitOrder pr o₂ = .ok (.ok evs₂, e₂)) ∧
      SplitsAlike o evs evs₁ evs₂ e' e₂ := by
  have ht₁ : o₁.tif ≠ .fok := fun hf => ht (hs.tif.1.symm.trans hf)
  have ht₂ : o₂.tif ≠ .fok := fun hf => ht (hs.tif.2.symm.trans hf)
  obtain ⟨hok₁, hv₂'⟩ := hs.valid_second hok ht hv₁ hv₂ hne
  obtain ⟨hfit₁, hfit₂⟩ := hs.fits hok hok₁ ht hv hfit
  obtain ⟨e', q', hrun, hrep', hres⟩ := submit_does h hok hfit
  obtain ⟨e₁, q₁, hrun₁, hrep₁, hres₁⟩ := submit_does h hok hfit₁
  rw [submit_settle hv ht] at hrun hres
  rw [submit_settle hv₁ ht₁] at hrun₁ hres₁
  rw [← hres₁] at hok₁ hv₂' hfit₂
  obtain ⟨e₂, q₂, hrun₂, hrep₂, hres₂⟩ := submit_does hrep₁ hok₁ hfit₂
  rw [submit_settle hv₂' ht₂] at hrun₂ hres₂
  obtain ⟨evs, hevs, hmade⟩ := settle_events e.book.resting o
  obtain ⟨evs₁, hevs₁, hmade₁⟩ := settle_events e.book.resting o₁
  obtain ⟨evs₂, hevs₂, hmade₂⟩ := settle_events e₁.book.resting o₂
  rw [hevs] at hrun
  rw [hevs₁] at hrun₁
  rw [hevs₂] at hrun₂
  refine ⟨evs, evs₁, evs₂, e', e₁, e₂, hrun, hrun₁, hrun₂, ?_⟩
  rw [hres₁] at hmade₂ hres₂
  constructor
  · intro id
    rw [madeBy_append, hmade, hmade₁, hmade₂]
    exact ((hs.composes e.book.resting).made id).symm
  · rw [hres₂, hres]
    exact hs.settle_opposite _
  · intro s n
    apply hrep₂.depth_congr hrep'
    rw [hres₂, hres]
    exact hs.settle_perPrice hok s
  · intro hioc
    have hsame : e₂.book.resting = e'.book.resting := by
      rw [hres₂, hres]
      exact hs.settle_ioc hioc
    exact ⟨hsame, hrep₂.alike hrep' hsame⟩

end Engine

/-- One submission or two of the same sum: the makers are filled alike, and what is left cannot be
told apart but by the identifiers of what came to rest. -/
theorem split_taker (calls : List Call) (h : NoAddOverflow S calls) :
    ∃ (rs : List Response) (e : Engine S), (∀ pr, Engine.new.run pr calls = .ok (rs, e)) ∧
      ∀ o o₁ o₂, Splits o o₁ o₂ → o.tif ≠ .fok → o₁.id ≠ o₂.id → e.validate o = .ok () →
        e.validate o₁ = .ok () → e.validate o₂ = .ok () →
        (o.tif = .gtc → NoAddOverflow S (calls ++ [.submit o])) →
        ∃ evs evs₁ evs₂ e' e₁ e₂, (∀ pr, e.submitOrder pr o = .ok (.ok evs, e')) ∧
          (∀ pr, e.submitOrder pr o₁ = .ok (.ok evs₁, e₁)) ∧
          (∀ pr, e₁.submitOrder pr o₂ = .ok (.ok evs₂, e₂)) ∧
          Engine.SplitsAlike o evs evs₁ evs₂ e' e₂ := by
  obtain ⟨e, q, hrun, hrep, hres, hok⟩ := reach h
  refine ⟨_, e, hrun, ?_⟩
  intro o o₁ o₂ hs ht hne hv hv₁ hv₂ hroom
  rw [Engine.validate_eq hrep] at hv hv₁ hv₂
  refine Engine.splitsAlike hrep hok hs ht hv hv₁ hv₂ hne ?_
  by_cases hg : o.tif = .gtc
  · have hfits := hroom hg
    rw [noAddOverflow_iff, fitsRun_append, ← hres] at hfits
    exact hfits.2.1
  · exact fun _ => ⟨fun hf => absurd hf ht, fun hg' => absurd hg' hg⟩

/-- The cut is inside the second ask, and five of the second part come to rest. -/
theorem split_taker_twoAsks :
    ∃ (rs : List Response) (e : Engine (FreeListSlab OrderNode)),
      (∀ pr, Engine.new.run pr twoAsks = .ok (rs, e)) ∧
      ∃ evs evs₁ evs₂ e' e₁ e₂,
        (∀ pr, e.submitOrder pr (makeOrder 3 .buy 101 20 3 .limit .gtc) = .ok (.ok evs, e')) ∧
        (∀ pr, e.submitOrder pr (makeOrder 3 .buy 101 12 3 .limit .gtc) = .ok (.ok evs₁, e₁)) ∧
        (∀ pr, e₁.submitOrder pr (makeOrder 4 .buy 101 8 4 .limit .gtc) = .ok (.ok evs₂, e₂)) ∧
        Engine.SplitsAlike (makeOrder 3 .buy 101 20 3 .limit .gtc) evs evs₁ evs₂ e' e₂ := by
  obtain ⟨rs, e, hrun, hall⟩ := split_taker twoAsks twoAsks_noAddOverflow
  have hv : Except.map (fun x => (x.2.validate (makeOrder 3 .buy 101 20 3 .limit .gtc),
      x.2.validate (makeOrder 3 .buy 101 12 3 .limit .gtc),
      x.2.validate (makeOrder 4 .buy 101 8 4 .limit .gtc)))
      ((Engine.new : Engine (FreeListSlab OrderNode)).run .debug twoAsks) =
        .ok (.ok (), .ok (), .ok ()) := by
    decide +kernel
  rw [hrun] at hv
  obtain ⟨hv, hv₁, hv₂⟩ : _ ∧ _ ∧ _ := by simpa [Except.map] using hv
  exact ⟨rs, e, hrun, hall _ _ _ ⟨⟨rfl, rfl⟩, ⟨rfl, rfl⟩, ⟨rfl, rfl⟩, ⟨rfl, rfl⟩, rfl⟩ (by decide)
    (by decide) hv hv₁ hv₂ (fun _ => NoAddOverflow.of_isOk (by decide +kernel))⟩

end Ordust
