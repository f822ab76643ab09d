import Ordust.Effects
import Ordust.Representation

/-!
# The matching loop makes progress

Each iteration takes an order off the other side or fills the taker, so there are no more
iterations than orders on the other side.
-/

namespace Ordust

open RefBook

namespace RefBook

/-! ## The trades of a submission -/

variable {taker : Order} {makers : List Order}

theorem makers_are_first (taker : Order) (makers : List Order) :
    (matchOrders taker makers).1.map Trade.makerOrderId <+: makers.map Order.id := by
  obtain ⟨gone, left, rfl, -, hf⟩ := matchOrders_fills taker makers
  have hgone : (exhaust taker gone).map Trade.makerOrderId = gone.map Order.id := by
    simp only [exhaust, List.map_map]
    rfl
  generalize matchOrders taker (gone ++ left) = r at hf ⊢
  cases hf with
  | between n hn hstop =>
    rw [hgone, List.map_append]
    exact List.prefix_append _ _
  | inside m ms qty hleft hc hpos hlt hn =>
    rw [hleft, List.map_append, hgone, List.map_append, List.map_cons]
    exact ⟨ms.map Order.id, by simp [tradeOf]⟩

theorem matchOrders_exhausts (hnd : (makers.map Order.id).Nodup) {before after : List Trade} {t : Trade}
    (h : (matchOrders taker makers).1 = before ++ t :: after) :
    ∃ m ∈ makers, m.id = t.makerOrderId ∧
      ((t.qty = m.remainingQty ∧ m.id ∉ (matchOrders taker makers).2.2.map Order.id) ∨
        (after = [] ∧ t.qty.toNat < m.rem ∧ (matchOrders taker makers).2.1.rem = 0 ∧
          m.withRemaining (m.remainingQty.val - t.qty.val) ∈ (matchOrders taker makers).2.2)) := by
  obtain ⟨gone, left, rfl, -, hf⟩ := matchOrders_fills taker makers
  rw [List.map_append, List.nodup_append] at hnd
  obtain ⟨-, -, hdisj⟩ := hnd
  -- A trade of the first stretch is with an order that is exhausted.
  have hexhausted : ∀ left' : List Order, left'.map Order.id = left.map Order.id →
      t ∈ exhaust taker gone → ∃ m ∈ gone ++ left, m.id = t.makerOrderId ∧
        t.qty = m.remainingQty ∧ m.id ∉ left'.map Order.id := by
    intro left' hids ht
    obtain ⟨m, hm, rfl⟩ := List.mem_map.mp ht
    refine ⟨m, List.mem_append_left _ hm, rfl, rfl, ?_⟩
    rw [hids]
    exact fun hc => hdisj _ (List.mem_map_of_mem hm) _ hc rfl
  generalize matchOrders taker (gone ++ left) = r at hf h ⊢
  cases hf with
  | between n hn hstop =>
    obtain ⟨m, hm, hid, hqty, hoff⟩ := hexhausted left rfl
      (by rw [show exhaust taker gone = _ from h]; simp)
    exact ⟨m, hm, hid, Or.inl ⟨hqty, hoff⟩⟩
  | inside m ms qty hleft hc hpos hlt hn =>
    subst hleft
    rcases List.eq_nil_or_concat after with rfl | ⟨after, t', rfl⟩
    · -- The last trade is the one inside an order.
      obtain ⟨-, ht⟩ := List.append_inj' h rfl
      obtain rfl := (List.cons.inj ht).1
      exact ⟨m, by simp, rfl, Or.inr ⟨rfl, hlt, rfl, List.mem_cons_self⟩⟩
    · have ht : t ∈ exhaust taker gone := by
        rw [List.concat_eq_append, ← List.cons_append, ← List.append_assoc] at h
        rw [(List.append_inj' h rfl).1]
        simp
      obtain ⟨m', hm', hid, hqty, hoff⟩ :=
        hexhausted (m.withRemaining (m.remainingQty.val - qty.val) :: ms) rfl ht
      exact ⟨m', hm', hid, Or.inl ⟨hqty, hoff⟩⟩

theorem matchOrders_pos (hrest : ∀ m ∈ makers, 0 < m.rem) {t : Trade}
    (ht : t ∈ (matchOrders taker makers).1) : 0 < t.qty.toNat := by
  obtain ⟨before, after, hsplit⟩ := List.append_of_mem ht
  obtain ⟨gone, m, rest, qty, hmk, -, rfl, -, -, hpos, -⟩ := matchOrders_trade hsplit
  exact hpos (hrest m (by rw [hmk]; simp))

end RefBook

variable {S : Type} [Slab S OrderNode]

/-- No slot, no entry of the index and no queue has the identifier. -/
structure OrderBook.Gone (b : OrderBook S) (id : OrderId) : Prop where
  index : b.orderIndex.lookup id = none
  slots : ∀ k node, Slab.get b.arena k = some node → node.order.id ≠ id
  queues : id ∉ b.resting.ids

theorem BookRep.gone {b : OrderBook S} {q : Queues} (h : BookRep b q) {id : OrderId}
    (hid : id ∉ b.resting.ids) : b.Gone id := by
  have hindex := (h.lookup_eq_none id).mpr hid
  refine ⟨hindex, ?_, hid⟩
  intro k node hn hnid
  have := (h.lookup_eq_some id k).mpr ⟨node, hn, hnid⟩
  rw [hindex] at this
  simp at this

namespace Engine

/-! ## More fuel changes nothing -/

theorem loopStep_mono {pr : Profile} {opposite : Side}
    {f g : Engine S → Order → Checked (List Trade × Order × Engine S)} {self : Engine S}
    {taker : Order} {x : List Trade × Order × Engine S}
    (hfg : ∀ self taker y, f self taker = .ok y → g self taker = .ok y)
    (h : loopStep pr opposite f self taker = .ok x) : loopStep pr opposite g self taker = .ok x := by
  unfold loopStep at h ⊢
  split
  · next h0 =>
    rw [if_pos h0] at h
    exact h
  · next h0 =>
    rw [if_neg h0] at h
    obtain ⟨c, hc, h⟩ := Checked.bind_eq_ok.mp h
    rw [hc, Checked.ok_bind]
    split
    · next hno =>
      rw [if_pos hno] at h
      exact h
    · next hyes =>
      rw [if_neg hyes] at h
      obtain ⟨⟨fill, book⟩, hfill, h⟩ := Checked.bind_eq_ok.mp h
      rw [hfill, Checked.ok_bind]
      cases fill with
      | none => exact h
      | some fill =>
        obtain ⟨n, hn, h⟩ := Checked.bind_eq_ok.mp h
        obtain ⟨y, hy, h⟩ := Checked.bind_eq_ok.mp h
        simp only [hn, Checked.ok_bind, hfg _ _ _ hy]
        exact h

theorem matchLoop_mono {pr : Profile} {opposite : Side} {fuel more : Nat} {self : Engine S}
    {taker : Order} {x : List Trade × Order × Engine S} (hle : fuel ≤ more)
    (h : matchLoop pr opposite fuel self taker = .ok x) :
    matchLoop pr opposite more self taker = .ok x := by
  induction fuel generalizing more self taker x with
  | zero => simp [matchLoop] at h
  | succ fuel ih =>
    obtain ⟨more, rfl⟩ := Nat.exists_eq_add_of_le' hle
    rw [← Nat.add_assoc, matchLoop_succ]
    rw [matchLoop_succ] at h
    exact loopStep_mono (fun _ _ _ hy => ih (Nat.le_add_left _ _) hy) h

/-! ## The loop -/

/-- What a loop on `e` that traded `trades`, with `rest` of the taker left, has done. -/
structure Productive (e : Engine S) (taker : Order) (trades : List Trade) (rest : Order)
    (e' : Engine S) : Prop where
  pos : ∀ t ∈ trades, 0 < t.qty.toNat
  distinct : (trades.map Trade.makerOrderId).Nodup
  /-- All but the last trade exhaust their maker. The last may leave some of it, and then nothing of
  the taker. -/
  exhausts : ∀ before t after, trades = before ++ t :: after →
    ∃ m ∈ e.book.resting (oppositeSide taker.side), m.id = t.makerOrderId ∧
      ((t.qty = m.remainingQty ∧ e'.book.Gone m.id) ∨
        (after = [] ∧ t.qty.toNat < m.rem ∧ rest.rem = 0 ∧
          m.withRemaining (m.remainingQty.val - t.qty.val) ∈
            e'.book.resting (oppositeSide taker.side)))

theorem productive {e e' : Engine S} {q' : Queues} {taker : Order} (hok : Ok e.book.resting)
    (hrep : BookRep e'.book q') (hres : e'.book.resting = Function.update e.book.resting
      (oppositeSide taker.side)
      (matchOrders taker (e.book.resting (oppositeSide taker.side))).2.2) :
    e.Productive taker (matchOrders taker (e.book.resting (oppositeSide taker.side))).1
      (matchOrders taker (e.book.resting (oppositeSide taker.side))).2.1 e' where
  pos := by
    intro t ht
    exact matchOrders_pos (fun m hm => (hok.rests _ m hm).pos) ht
  distinct := (hok.nodup_side _).sublist (makers_are_first taker _).sublist
  exhausts := by
    intro before t after hsplit
    obtain ⟨m, hm, hid, ⟨hqty, hoff⟩ | hlast⟩ := matchOrders_exhausts (hok.nodup_side _) hsplit
    · refine ⟨m, hm, hid, Or.inl ⟨hqty, hrep.gone ?_⟩⟩
      rw [mem_ids, hres]
      rintro ⟨s, x, hx, hxm⟩
      by_cases hs : s = oppositeSide taker.side
      · subst hs
        rw [Function.update_self] at hx
        exact hoff (hxm ▸ List.mem_map_of_mem hx)
      · rw [Function.update_of_ne hs] at hx
        exact hs (hok.eq_of_id hm hx hxm.symm).1
    · refine ⟨m, hm, hid, Or.inr ?_⟩
      rw [hres, Function.update_self]
      exact hlast

end Engine

/-- On a reachable book the loop ends after at most one iteration for each order on the other side,
and every iteration but the last takes such an order off the book. -/
theorem match_loop_productive (calls : List Call) (h : NoAddOverflow S calls) :
    ∃ (rs : List Response) (e : Engine S), (∀ pr, Engine.new.run pr calls = .ok (rs, e)) ∧
      ∀ o, e.validate o = .ok () → ∃ trades rest e',
        let bound := (e.book.resting (oppositeSide o.side)).length
        (∀ pr, Engine.matchLoop pr (oppositeSide o.side) (bound + 1) e o = .ok (trades, rest, e')) ∧
        (∀ pr, e.matchAgainstBook pr o = .ok (trades, rest, e')) ∧ trades.length ≤ bound ∧
        e.Productive o trades rest e' := by
  obtain ⟨e, q, hrun, hrep, -, hok⟩ := reach h
  refine ⟨_, e, hrun, ?_⟩
  intro o hv
  rw [Engine.validate_eq hrep o] at hv
  have hp := (validate_ok hv).2.1
  obtain ⟨e₁, q₁, hloop, hrep₁, hres⟩ := Engine.matchLoop_spec
    ((e.book.resting (oppositeSide o.side)).length + 1) e q o hrep hp (Or.inr (Nat.lt_succ_self _))
  obtain ⟨e₂, q₂, hmatch, -⟩ := Engine.matchAgainstBook_spec hrep o hp
  have hsame : e₂ = e₁ := by
    have hmore := Engine.matchLoop_mono (Nat.le_max_left _ (o.remainingQty.toNat + Slab.len e.book.arena + 1))
      (hloop .debug)
    have hmore' := Engine.matchLoop_mono
      (Nat.le_max_right ((e.book.resting (oppositeSide o.side)).length + 1) _) (hmatch .debug)
    rw [hmore] at hmore'
    exact (Prod.mk.inj (Prod.mk.inj (Except.ok.inj hmore')).2).2.symm
  refine ⟨_, _, e₁, hloop, hsame ▸ hmatch, ?_, Engine.productive hok hrep₁ hres⟩
  simpa using (makers_are_first o (e.book.resting (oppositeSide o.side))).length_le

/-- A seller of four takes all of the better bid and a part of the other. -/
theorem match_loop_productive_twoSided :
    ∃ (rs : List Response) (e e' : Engine (FreeListSlab OrderNode)) (trades : List Trade) (rest : Order),
      let o := makeOrder 5 .sell 100 4 7 .limit .ioc
      (∀ pr, Engine.new.run pr twoSided = .ok (rs, e)) ∧
      (∀ pr, Engine.matchLoop pr .buy ((e.book.resting .buy).length + 1) e o =
        .ok (trades, rest, e')) ∧
      (∀ pr, e.matchAgainstBook pr o = .ok (trades, rest, e')) ∧
      trades.map (fun t => t.qty) = [⟨2⟩, ⟨2⟩] ∧ trades.length ≤ (e.book.resting .buy).length ∧
      e.Productive o trades rest e' := by
  obtain ⟨rs, e, hrun, hproductive⟩ :=
    match_loop_productive (S := FreeListSlab OrderNode) twoSided twoSided_noAddOverflow
  have hvalid := Engine.of_run hrun (fun e => e.validate (makeOrder 5 .sell 100 4 7 .limit .ioc))
    (a := .ok ()) (by decide +kernel)
  obtain ⟨trades, rest, e', hloop, hmatch, hlen, hprod⟩ := hproductive _ hvalid
  have hqtys := Engine.of_run hrun
    (fun e => Except.map (fun x => x.1.map (fun t => t.qty))
      (e.matchAgainstBook .debug (makeOrder 5 .sell 100 4 7 .limit .ioc)))
    (a := .ok [⟨2⟩, ⟨2⟩]) (by decide +kernel)
  rw [hmatch] at hqtys
  exact ⟨rs, e, e', trades, rest, hrun, hloop, hmatch, Except.ok.inj hqtys, hlen, hprod⟩

end Ordust
