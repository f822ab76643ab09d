import Ordust.Reach

/-!
# The book is never crossed or locked

Every bid is below every ask, the spread is positive, and an order comes to rest only where it
crosses nothing.
-/

namespace Ordust

variable {S : Type} [Slab S OrderNode]

/-- A limit on side `s` at `p` does not cross an opposite price. -/
def Apart (s : Side) (p opposite : Price) : Prop :=
  match s with
  | .buy => p < opposite
  | .sell => opposite < p

/-- `submit_order` of `o` on `e` calls `insert_resting` with `rest` on the book of `e'`. -/
structure Engine.InsertsResting (pr : Profile) (e : Engine S) (o rest : Order) (e' : Engine S) :
    Prop where
  valid : e.validate o = .ok ()
  fillable : o.tif = .fok → e.canFullyFill pr o = .ok true
  matched : ∃ trades, e.matchOrder pr o = .ok (trades, rest, e')
  left : rest.remainingQty.val ≠ 0
  gtc : rest.tif = .gtc

/-- What `spread` answers on a book that is not crossed. -/
def OrderBook.SpreadsTo (b : OrderBook S) (spread : Option Price) : Prop :=
  (spread.isSome ↔ b.iterSide .buy ≠ [] ∧ b.iterSide .sell ≠ []) ∧
    ∀ d, spread = some d → 0 < d.toNat ∧
      ∃ bid ask, b.bestBid = some bid ∧ b.bestAsk = some ask ∧ d.toNat = ask.toNat - bid.toNat

omit [Slab S OrderNode] in
theorem OrderBook.spread_of_uncrossed (pr : Profile) (b : OrderBook S)
    (h : ∀ bid l ask l', (bid, l) ∈ b.iterSide .buy → (ask, l') ∈ b.iterSide .sell → bid < ask) :
    ∃ spread, b.spread pr = .ok spread ∧ b.SpreadsTo spread := by
  unfold spread SpreadsTo
  rw [b.bestBid_eq, b.bestAsk_eq, best, best]
  cases hb : b.iterSide .buy with
  | nil => exact ⟨none, rfl, by simp⟩
  | cons e es =>
    cases ha : b.iterSide .sell with
    | nil => exact ⟨none, rfl, by simp⟩
    | cons f fs =>
      have hlt : e.1 < f.1 :=
        h e.1 e.2 f.1 f.2 (by rw [hb]; exact List.mem_cons_self) (by rw [ha]; exact List.mem_cons_self)
      have hle : e.1.val.toNat ≤ f.1.val.toNat := Nat.le_of_lt hlt
      have hsub : (f.1.val - e.1.val).toNat = f.1.toNat - e.1.toNat :=
        UInt64.toNat_sub_of_le _ _ hle
      refine ⟨some ⟨f.1.val - e.1.val⟩, ?_, by simp, ?_⟩
      · simp only [List.head?_cons, Option.map_some, if_pos hlt, Price.sub,
          Profile.sub_ok pr _ _ hle, Checked.ok_bind, Checked.pure_eq]
      · rintro d ⟨rfl⟩
        rw [Price.lt_iff] at hlt
        refine ⟨?_, e.1, f.1, rfl, rfl, hsub⟩
        show 0 < (f.1.val - e.1.val).toNat
        omega

namespace BookRep

variable {b : OrderBook S} {q : Queues}

theorem exists_resting (h : BookRep b q) {s : Side} {p : Price} {l : Level}
    (hl : (p, l) ∈ b.iterSide s) : ∃ o ∈ b.resting s, o.px = p := by
  obtain ⟨hne, -⟩ := h.level_of_mem hl
  obtain ⟨⟨k, o⟩, ys, hq⟩ := List.exists_cons_of_ne_nil hne
  have ho : (k, o) ∈ q s p := by
    rw [hq]
    exact List.mem_cons_self
  exact ⟨o, (h.mem_resting s o).mpr ⟨p, k, ho⟩, (h.rests s p k o ho).px⟩

end BookRep

theorem Engine.InsertsResting.remainder {pr : Profile} {e e' : Engine S} {q : Queues} {o rest : Order}
    (h : BookRep e.book q) (hi : e.InsertsResting pr o rest e') :
    o.orderType = .limit ∧ o.price ≠ none ∧ ∃ (n : UInt64) (q' : Queues), rest = o.withRemaining n ∧
      (RefBook.matchOrders o (e.book.resting (oppositeSide o.side))).2.1 = o.withRemaining n ∧
      BookRep e'.book q' ∧ e'.book.resting = Function.update e.book.resting (oppositeSide o.side)
        (RefBook.matchOrders o (e.book.resting (oppositeSide o.side))).2.2 := by
  obtain ⟨trades, hm⟩ := hi.matched
  have hv := hi.valid
  rw [Engine.validate_eq h o] at hv
  obtain ⟨-, hprice, hgtc, -⟩ := RefBook.validate_ok hv
  obtain ⟨e₁, q₁, hrun, hrep, hres⟩ := Engine.matchOrder_spec h o hprice
  obtain ⟨n, hn⟩ := RefBook.matchOrders_rest o (e.book.resting (oppositeSide o.side))
  rw [hrun, hn] at hm
  obtain ⟨-, rfl, rfl⟩ : _ ∧ o.withRemaining n = rest ∧ e₁ = e' := by simpa using hm
  have hlim : o.orderType = .limit := hgtc hi.gtc
  exact ⟨hlim, hprice hlim, n, q₁, rfl, hn, hrep, hres⟩

theorem Engine.InsertsResting.apart {pr : Profile} {e e' : Engine S} {q : Queues} {o rest : Order}
    (h : BookRep e.book q) (hok : RefBook.Ok e.book.resting) (hi : e.InsertsResting pr o rest e') :
    ∀ p l, (p, l) ∈ e'.book.iterSide (oppositeSide rest.side) → Apart rest.side rest.px p := by
  intro p l hl
  have hleft := hi.left
  obtain ⟨hlim, -, n, q', rfl, hn, hrep, hres⟩ := hi.remainder h
  have hpos : 0 < (RefBook.matchOrders o (e.book.resting (oppositeSide o.side))).2.1.rem := by
    rw [hn]
    exact Nat.pos_of_ne_zero (fun h0 => hleft ((Order.rem_eq_zero _).mpr h0))
  obtain ⟨x, hx, rfl⟩ := hrep.exists_resting hl
  rw [hres, show (o.withRemaining n).side = o.side from rfl, Function.update_self] at hx
  have hc := RefBook.matchOrders_uncrossed o _ (hok.sorted _) hpos x hx
  rw [Order.crossesAt, hlim] at hc
  unfold Apart
  show match o.side with | .buy => o.px < x.px | .sell => x.px < o.px
  cases hs : o.side <;> simp only [hs, decide_eq_false_iff_not, not_le] at hc <;> exact hc

/-- The relation tells where `submit_order` inserts: there it goes on as `insert_resting` does. -/
theorem Engine.InsertsResting.submits {pr : Profile} {e e' : Engine S} {q : Queues} {o rest : Order}
    (h : BookRep e.book q) (hi : e.InsertsResting pr o rest e') :
    ∃ events, e.submitOrder pr o = (e'.book.insertResting pr rest >>= fun book =>
      .ok (.ok events, { e' with book := book })) := by
  obtain ⟨trades, hm⟩ := hi.matched
  obtain ⟨p, hp⟩ : ∃ p, rest.price = some p := by
    obtain ⟨-, hpriced, n, -, rfl, -⟩ := hi.remainder h
    exact Option.ne_none_iff_exists'.mp hpriced
  have hfill : (if o.tif = .fok then e.canFullyFill pr o else .ok true) = .ok true := by
    split
    · next ht => exact hi.fillable ht
    · rfl
  refine ⟨.accepted o.id :: trades.map .trade ++ [.restingOnBook rest.id p rest.remainingQty], ?_⟩
  rw [Engine.submitOrder_eq, hi.valid]
  simp only [hfill, Checked.ok_bind, Bool.true_eq_false, if_false]
  rw [Engine.settle, hm, Checked.ok_bind]
  simp only [Engine.applyTifToRemainder, if_neg hi.left, hi.gtc, hp, Checked.unwrap_some,
    Checked.ok_bind]
  cases e'.book.insertResting pr rest <;> rfl

theorem run_uncrossed (calls : List Call) (h : NoAddOverflow S calls) :
    ∃ (rs : List Response) (e : Engine S), (∀ pr, Engine.new.run pr calls = .ok (rs, e)) ∧
      (∀ bid l ask l', (bid, l) ∈ e.book.iterSide .buy → (ask, l') ∈ e.book.iterSide .sell →
        bid < ask) ∧
      (∀ pr, ∃ spread, e.book.spread pr = .ok spread ∧ e.book.SpreadsTo spread) ∧
      ∀ pr o rest e', e.InsertsResting pr o rest e' →
        (∃ events, e.submitOrder pr o = (e'.book.insertResting pr rest >>= fun book =>
          .ok (.ok events, { e' with book := book }))) ∧
        ∀ p l, (p, l) ∈ e'.book.iterSide (oppositeSide rest.side) → Apart rest.side rest.px p := by
  obtain ⟨e, q, hrun, hrep, -, hok⟩ := reach h
  have hun : ∀ bid l ask l', (bid, l) ∈ e.book.iterSide .buy → (ask, l') ∈ e.book.iterSide .sell →
      bid < ask := by
    intro bid l ask l' hb ha
    obtain ⟨x, hx, rfl⟩ := hrep.exists_resting hb
    obtain ⟨y, hy, rfl⟩ := hrep.exists_resting ha
    exact hok.uncrossed x hx y hy
  refine ⟨_, e, hrun, hun, fun pr => e.book.spread_of_uncrossed pr hun, ?_⟩
  intro pr o rest e' hi
  exact ⟨hi.submits hrep, hi.apart hrep hok⟩

theorem run_uncrossed_twoSided :
    ∃ (rs : List Response) (e : Engine (FreeListSlab OrderNode)),
      (∀ pr, Engine.new.run pr twoSided = .ok (rs, e)) ∧
      (∀ bid l ask l', (bid, l) ∈ e.book.iterSide .buy → (ask, l') ∈ e.book.iterSide .sell →
        bid < ask) ∧
      (∀ pr, ∃ spread, e.book.spread pr = .ok spread ∧ e.book.SpreadsTo spread) ∧
      ∀ pr o rest e', e.InsertsResting pr o rest e' →
        (∃ events, e.submitOrder pr o = (e'.book.insertResting pr rest >>= fun book =>
          .ok (.ok events, { e' with book := book }))) ∧
        ∀ p l, (p, l) ∈ e'.book.iterSide (oppositeSide rest.side) → Apart rest.side rest.px p :=
  run_uncrossed twoSided twoSided_noAddOverflow

end Ordust
