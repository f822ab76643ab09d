import Ordust.BookSteps
import Ordust.Fills

/-!
# The matching loop and the fill-or-kill check

On a book that holds the queues `q` the loop of `match_against_book` fills the taker as
`RefBook.matchOrders` does, and the scan of `can_fully_fill` sums what rests at each price.
-/

namespace Ordust

variable {S : Type} [Slab S OrderNode]

/-! ## The fuel of the loop -/

theorem Level.popFront_len (pr : Profile) (l : Level) (arena : S) (k : NodeId) (node : OrderNode)
    (hh : l.head = some k) (hn : Slab.get arena k = some node) (r : Option Order × Level × S)
    (hr : l.popFront pr arena = .ok r) : Slab.len r.2.2 < Slab.len arena := by
  obtain ⟨arena', hrm, -, hlen⟩ := Slab.tryRemove_some arena k node hn
  rcases popFront_ok hh hr with ⟨hrem, -⟩ | ⟨node', arena₁, hrem, hwrite⟩
  · rw [hrm] at hrem
    simp at hrem
  · rw [hrm] at hrem
    obtain ⟨-, rfl⟩ := Prod.mk.inj (Option.some.inj hrem)
    rcases hwrite with hw | ⟨newHead, hw⟩
    · rw [hw]
      omega
    · rw [hw, Slab.len_modify]
      omega

theorem Level.consumeQty_measure (pr : Profile) (l : Level) (qty : Qty) (arena : S)
    (r : Option (OrderId × Qty × Bool) × Level × S) (hr : l.consumeQty pr qty arena = .ok r)
    (id : OrderId) (filled : Qty) (full : Bool) (hf : r.1 = some (id, filled, full))
    (hq : 0 < qty.toNat) :
    filled.toNat ≤ qty.toNat ∧ Slab.len r.2.2 ≤ Slab.len arena ∧
      (filled.toNat = 0 → Slab.len r.2.2 < Slab.len arena) := by
  rcases consumeQty_ok hr with ⟨hnone, -⟩ | ⟨k, node, fill, left, arena₁, hk, hfill, hsum, hres,
    rfl, hleft⟩
  · rw [hnone] at hf
    simp at hf
  · rw [hres] at hf
    obtain ⟨-, heq⟩ := Prod.mk.inj (Option.some.inj hf)
    obtain ⟨rfl, -⟩ := Prod.mk.inj heq
    have hle : fill.toNat ≤ qty.toNat := by omega
    refine ⟨hle, ?_⟩
    rcases hleft with ⟨h0, harena⟩ | ⟨-, level, popped, hhead, hpop⟩
    · rw [harena, Slab.len_modify]
      refine ⟨le_refl _, fun hzero => absurd ?_ h0⟩
      have hzero' : fill.toNat = 0 := hzero
      rw [← UInt64.toNat_inj, UInt64.toNat_zero]
      omega
    · have hget := Slab.get_modify_self arena k (fun node : OrderNode =>
        { node with order := { node.order with remainingQty := ⟨left⟩ } })
      rw [hk, Option.map_some] at hget
      have hlen := popFront_len pr level _ k _ hhead hget _ hpop
      rw [Slab.len_modify] at hlen
      exact ⟨Nat.le_of_lt hlen, fun _ => hlen⟩

theorem OrderBook.matchAtBest_measure (pr : Profile) (b b' : OrderBook S) (s : Side) (qty : Qty)
    (fill : FillResult) (hr : b.matchAtBest pr s qty = .ok (some fill, b')) (hq : 0 < qty.toNat) :
    fill.filledQty.toNat ≤ qty.toNat ∧ Slab.len b'.arena ≤ Slab.len b.arena ∧
      (fill.filledQty.toNat = 0 → Slab.len b'.arena < Slab.len b.arena) := by
  cases hit : b.iterSide s with
  | nil => simp [matchAtBest_nil pr b s qty hit] at hr
  | cons e rest =>
    obtain ⟨p, l⟩ := e
    rw [matchAtBest_eq pr b s qty p l rest hit, Checked.bind_eq_ok] at hr
    obtain ⟨r, hc, hr⟩ := hr
    have hm := Level.consumeQty_measure pr l qty b.arena r hc
    obtain ⟨c, l', arena⟩ := r
    rcases c with _ | ⟨id, filled, full⟩
    · simp at hr
    · simp only [Except.ok.injEq, Prod.mk.injEq, Option.some.injEq] at hr
      obtain ⟨rfl, rfl⟩ := hr
      exact hm id filled full rfl hq

namespace Engine

/-- One test of the loop condition and one iteration, before `next` goes on. -/
def loopStep (pr : Profile) (opposite : Side)
    (next : Engine S → Order → Checked (List Trade × Order × Engine S))
    (self : Engine S) (taker : Order) : Checked (List Trade × Order × Engine S) :=
  if taker.remainingQty.val = 0 then .ok ([], taker, self)
  else self.crosses taker >>= fun c =>
    if c = false then .ok ([], taker, self)
    else self.book.matchAtBest pr opposite taker.remainingQty >>= fun r =>
      match r.1 with
      | none => .ok ([], taker, { self with book := r.2 })
      | some fill =>
        pr.sub taker.remainingQty.val fill.filledQty.val >>= fun n =>
          next { self with book := r.2 } (taker.withRemaining n) >>= fun rest =>
            .ok (⟨fill.makerOrderId, taker.id, fill.price, fill.filledQty, taker.timestamp⟩ :: rest.1,
              rest.2)

theorem matchLoop_succ (pr : Profile) (opposite : Side) (fuel : Nat) (self : Engine S)
    (taker : Order) : matchLoop pr opposite (fuel + 1) self taker =
      loopStep pr opposite (matchLoop pr opposite fuel) self taker := by
  unfold matchLoop loopStep
  split
  · rfl
  · congr 1
    funext c
    cases c
    · rfl
    · simp only [Bool.not_true, Bool.false_eq_true, if_false, reduceCtorEq]
      rfl

/-- What an iteration makes smaller. -/
def measure (self : Engine S) (taker : Order) : Nat := taker.rem + Slab.len self.book.arena

theorem loopStep_congr (pr : Profile) (opposite : Side)
    (f g : Engine S → Order → Checked (List Trade × Order × Engine S)) (self : Engine S)
    (taker : Order)
    (h : ∀ self' n, self'.measure (taker.withRemaining n) < self.measure taker →
      f self' (taker.withRemaining n) = g self' (taker.withRemaining n)) :
    loopStep pr opposite f self taker = loopStep pr opposite g self taker := by
  unfold loopStep
  split
  · rfl
  · next hne =>
    have hpos : 0 < taker.remainingQty.toNat := by
      rw [Order.rem_eq_zero] at hne
      exact Nat.pos_of_ne_zero hne
    congr 1
    funext c
    split
    · rfl
    · cases hm : self.book.matchAtBest pr opposite taker.remainingQty with
      | error p => rfl
      | ok r =>
        obtain ⟨fill, b⟩ := r
        rw [Checked.ok_bind, Checked.ok_bind]
        cases fill with
        | none => rfl
        | some fill =>
          obtain ⟨hle, hlen, hlt⟩ :=
            OrderBook.matchAtBest_measure pr self.book b opposite _ fill hm hpos
          have hrem := Order.rem_sub taker fill.filledQty hle
          simp only
          rw [Profile.sub_ok pr _ _ hle, Checked.ok_bind, Checked.ok_bind, h]
          have hrem' : fill.filledQty.toNat ≤ taker.rem := hle
          rw [measure, measure, hrem]
          show _ + Slab.len b.arena < _
          omega

/-- Fuel past the measure changes nothing. -/
theorem matchLoop_fuel (pr : Profile) (opposite : Side) (fuel fuel' : Nat) (self : Engine S)
    (taker : Order) (h : self.measure taker < fuel) (h' : self.measure taker < fuel') :
    matchLoop pr opposite fuel self taker = matchLoop pr opposite fuel' self taker := by
  induction fuel generalizing fuel' self taker with
  | zero => omega
  | succ fuel ih =>
    cases fuel' with
    | zero => omega
    | succ fuel' =>
      rw [matchLoop_succ, matchLoop_succ]
      apply loopStep_congr
      intro self' n hn
      exact ih fuel' self' _ (by omega) (by omega)

/-- The `while` loop, without the fuel. -/
theorem matchAgainstBook_eq (pr : Profile) (self : Engine S) (taker : Order) :
    self.matchAgainstBook pr taker =
      loopStep pr (oppositeSide taker.side) (matchAgainstBook pr) self taker := by
  show matchLoop pr (oppositeSide taker.side) (self.measure taker + 1) self taker = _
  rw [matchLoop_succ]
  apply loopStep_congr
  intro self' n hn
  exact matchLoop_fuel pr _ _ (self'.measure (taker.withRemaining n) + 1) self' _ hn
    (Nat.lt_succ_self _)

end Engine

/-! ## The loop on a book of queues -/

open RefBook

namespace BookRep

variable {b : OrderBook S} {q : Queues}

theorem best_eq (h : BookRep b q) (s : Side) : b.best s = (b.resting s).head?.map Order.px := by
  rw [OrderBook.best, h.resting_eq]
  cases hit : b.iterSide s with
  | nil => rfl
  | cons e rest =>
    obtain ⟨p, l⟩ := e
    have hmem : (p, l) ∈ b.iterSide s := by
      rw [hit]
      exact List.mem_cons_self
    obtain ⟨hne, -⟩ := h.level_of_mem hmem
    obtain ⟨⟨k, o⟩, ys, hq⟩ := List.exists_cons_of_ne_nil hne
    have hp : o.px = p := h.px_of_mem (s := s) (by rw [hq, Queue.orders_cons]; exact List.mem_cons_self)
    simp [hq, Queue.orders_cons, hp]

end BookRep

namespace Engine

omit [Slab S OrderNode] in
theorem crosses_best (self : Engine S) (o : Order) (hp : o.Priced) :
    self.crosses o = .ok ((self.book.best (oppositeSide o.side)).any o.crossesAt) := by
  unfold crosses
  rw [OrderBook.bestBid_eq, OrderBook.bestAsk_eq]
  cases ht : o.orderType with
  | market =>
    have hc : o.crossesAt = fun _ => true := by
      funext p
      simp [Order.crossesAt, ht]
    rw [hc]
    cases hs : o.side
    · simp only [oppositeSide_buy]
      cases self.book.best .sell <;> rfl
    · simp only [oppositeSide_sell]
      cases self.book.best .buy <;> rfl
  | limit =>
    obtain ⟨p, hpx⟩ := Option.ne_none_iff_exists'.mp (hp ht)
    cases hs : o.side
    · simp only [oppositeSide_buy]
      cases self.book.best .sell <;> simp [Order.crossesAt, Order.px, ht, hs, hpx]
    · simp only [oppositeSide_sell]
      cases self.book.best .buy <;> simp [Order.crossesAt, Order.px, ht, hs, hpx]

theorem crosses_eq {self : Engine S} {q : Queues} (h : BookRep self.book q) (o : Order)
    (hp : o.Priced) :
    self.crosses o = .ok (headCrosses o (self.book.resting (oppositeSide o.side))) := by
  rw [crosses_best self o hp, h.best_eq, headCrosses, Option.any_map]

theorem matchLoop_stop (pr : Profile) (opposite : Side) (fuel : Nat) {self : Engine S} {taker : Order}
    {c : Bool} (hc : self.crosses taker = .ok c) (hstop : taker.rem = 0 ∨ c = false) :
    matchLoop pr opposite (fuel + 1) self taker = .ok ([], taker, self) := by
  rw [matchLoop_succ, loopStep]
  split
  · rfl
  · next hne =>
    rw [Order.rem_eq_zero] at hne
    rw [hc, Checked.ok_bind, if_pos (hstop.resolve_left hne)]

theorem matchLoop_next {pr : Profile} {opposite : Side} {fuel : Nat} {self self' : Engine S}
    {taker maker rest : Order} {filled : Qty} {full : Bool} {b' : OrderBook S} {trades : List Trade}
    (hne : taker.rem ≠ 0) (hc : self.crosses taker = .ok true) (hle : filled.toNat ≤ taker.rem)
    (hfill : self.book.matchAtBest pr opposite taker.remainingQty =
      .ok (some ⟨maker.id, maker.px, filled, full⟩, b'))
    (hloop : matchLoop pr opposite fuel { self with book := b' }
      (taker.withRemaining (taker.remainingQty.val - filled.val)) = .ok (trades, rest, self')) :
    matchLoop pr opposite (fuel + 1) self taker =
      .ok (tradeOf taker maker filled :: trades, rest, self') := by
  rw [matchLoop_succ, loopStep, if_neg (by rw [Order.rem_eq_zero]; exact hne), hc, Checked.ok_bind,
    if_neg (by simp), hfill, Checked.ok_bind]
  simp only [Profile.sub_ok pr _ _ hle, Checked.ok_bind, hloop]
  rfl

/-- What the loop does to the resting orders of the other side. Each iteration takes something from
the taker, and either an order from the other side or the last of the taker. -/
theorem matchLoop_spec (fuel : Nat) (self : Engine S) (q : Queues) (taker : Order)
    (h : BookRep self.book q) (hp : taker.Priced)
    (hf : taker.rem < fuel ∨ (self.book.resting (oppositeSide taker.side)).length < fuel) :
    let m := matchOrders taker (self.book.resting (oppositeSide taker.side))
    ∃ (self' : Engine S) (q' : Queues),
      (∀ pr, matchLoop pr (oppositeSide taker.side) fuel self taker = .ok (m.1, m.2.1, self')) ∧
      BookRep self'.book q' ∧
      self'.book.resting = Function.update self.book.resting (oppositeSide taker.side) m.2.2 := by
  intro m
  induction fuel generalizing self q taker with
  | zero => omega
  | succ fuel ih =>
    have hc := crosses_eq h taker hp
    by_cases hstop : taker.rem = 0 ∨
        headCrosses taker (self.book.resting (oppositeSide taker.side)) = false
    · have hm : m = ([], taker, self.book.resting (oppositeSide taker.side)) :=
        matchOrders_stop taker _ hstop
      refine ⟨self, q, fun pr => ?_, h, by rw [hm, Function.update_eq_self]⟩
      rw [hm]
      exact matchLoop_stop pr _ fuel hc hstop
    · rw [not_or, Bool.not_eq_false] at hstop
      obtain ⟨hne, hcross⟩ := hstop
      rw [hcross] at hc
      have hpos : 0 < taker.rem := Nat.pos_of_ne_zero hne
      obtain ⟨mk, ms, hms⟩ : ∃ mk ms, self.book.resting (oppositeSide taker.side) = mk :: ms := by
        cases hr : self.book.resting (oppositeSide taker.side) with
        | nil => rw [hr] at hcross; simp [headCrosses] at hcross
        | cons mk ms => exact ⟨mk, ms, rfl⟩
      obtain ⟨p, hrest⟩ := h.rests_of_mem (s := oppositeSide taker.side) (o := mk)
        (by rw [hms]; exact List.mem_cons_self)
      have hmk : 0 < mk.remainingQty.toNat := hrest.pos
      rw [hms, List.length_cons] at hf
      have hcross' : headCrosses taker (mk :: ms) = true := hms ▸ hcross
      have hm : m = matchOrders taker (mk :: ms) := by rw [← hms]
      obtain ⟨b', q', h', hcase⟩ := h.matchAtBest_spec taker.remainingQty hms hpos
      -- Whichever order the iteration used up, the loop goes on with what it left.
      have hstep : ∀ (filled : Qty) (full : Bool) (left : List Order),
          taker.rem - filled.toNat < fuel ∨ left.length < fuel → filled.toNat ≤ taker.rem →
          (∀ pr, self.book.matchAtBest pr (oppositeSide taker.side) taker.remainingQty =
            .ok (some ⟨mk.id, mk.px, filled, full⟩, b')) →
          b'.resting = Function.update self.book.resting (oppositeSide taker.side) left →
          m = (tradeOf taker mk filled ::
              (matchOrders (taker.withRemaining (taker.remainingQty.val - filled.val)) left).1,
            (matchOrders (taker.withRemaining (taker.remainingQty.val - filled.val)) left).2) →
          ∃ (self' : Engine S) (q' : Queues),
            (∀ pr, matchLoop pr (oppositeSide taker.side) (fuel + 1) self taker =
              .ok (m.1, m.2.1, self')) ∧
            BookRep self'.book q' ∧
            self'.book.resting =
              Function.update self.book.resting (oppositeSide taker.side) m.2.2 := by
        intro filled full left hfuel hle hrun hres hmn
        have hrem := Order.rem_sub taker filled hle
        have hleft : b'.resting (oppositeSide taker.side) = left := by
          rw [hres, Function.update_self]
        obtain ⟨self', q'', hloop, hrep, hresting⟩ := ih { self with book := b' } q'
          (taker.withRemaining (taker.remainingQty.val - filled.val)) h' hp
          (by rw [hrem]; rw [← hleft] at hfuel; exact hfuel)
        simp only [show (taker.withRemaining (taker.remainingQty.val - filled.val)).side = taker.side
          from rfl, hleft] at hloop hresting
        refine ⟨self', q'', fun pr => ?_, hrep, ?_⟩
        · rw [hmn]
          exact matchLoop_next hne hc hle (hrun pr) (hloop pr)
        · rw [hresting, hres, Function.update_idem, hmn]
      rcases hcase with ⟨hle, hrun, hres⟩ | ⟨hlt, hrun, hres⟩
      · exact hstep mk.remainingQty true ms (by omega) hle hrun hres
          (hm.trans (matchOrders_exhaust taker mk ms hpos hcross' hle))
      · refine hstep taker.remainingQty false _ (Or.inl ?_) (le_refl _) hrun hres (hm.trans ?_)
        · have : taker.rem - taker.remainingQty.toNat = 0 := Nat.sub_self _
          omega
        rw [UInt64.sub_self, matchOrders_stop (taker.withRemaining 0) _ (Or.inl rfl)]
        exact matchOrders_inside taker mk ms hpos hcross' hlt

theorem matchAgainstBook_spec {self : Engine S} {q : Queues} (h : BookRep self.book q)
    (taker : Order) (hp : taker.Priced) :
    let m := matchOrders taker (self.book.resting (oppositeSide taker.side))
    ∃ (self' : Engine S) (q' : Queues),
      (∀ pr, self.matchAgainstBook pr taker = .ok (m.1, m.2.1, self')) ∧ BookRep self'.book q' ∧
      self'.book.resting = Function.update self.book.resting (oppositeSide taker.side) m.2.2 := by
  apply matchLoop_spec _ self q taker h hp
  left
  simp only [Order.rem]
  omega

theorem matchOrder_spec {self : Engine S} {q : Queues} (h : BookRep self.book q) (taker : Order)
    (hp : taker.Priced) :
    let m := matchOrders taker (self.book.resting (oppositeSide taker.side))
    ∃ (self' : Engine S) (q' : Queues),
      (∀ pr, self.matchOrder pr taker = .ok (m.1, m.2.1, self')) ∧ BookRep self'.book q' ∧
      self'.book.resting = Function.update self.book.resting (oppositeSide taker.side) m.2.2 := by
  intro m
  have hc := crosses_eq h taker hp
  by_cases hcross : headCrosses taker (self.book.resting (oppositeSide taker.side)) = true
  · obtain ⟨self', q', hrun, hrep, hres⟩ := matchAgainstBook_spec h taker hp
    refine ⟨self', q', fun pr => ?_, hrep, hres⟩
    rw [matchOrder, hc, Checked.ok_bind, if_pos hcross, hrun]
  · have hm : m = ([], taker, self.book.resting (oppositeSide taker.side)) :=
      matchOrders_stop taker _ (Or.inr (by simpa using hcross))
    refine ⟨self, q, fun pr => ?_, h, by rw [hm, Function.update_eq_self]⟩
    rw [matchOrder, hc, Checked.ok_bind, if_neg hcross, hm]
    rfl

end Engine

/-! ## The scan of the levels -/

namespace BookRep

variable {b : OrderBook S} {q : Queues}

theorem perPrice_resting (h : BookRep b q) (s : Side) :
    perPrice (b.resting s) = (b.iterSide s).map (fun e => (e.1, e.2.totalQty.toNat)) := by
  rw [h.resting_eq]
  have hmem : ∀ e ∈ b.iterSide s, q s e.1 ≠ [] ∧ e.2.totalQty.toNat = qtySum (q s e.1).orders := by
    intro e he
    obtain ⟨hne, hl⟩ := h.level_of_mem he
    exact ⟨hne, by rw [hl]; exact h.toNat_sum s e.1⟩
  have hsorted := b.iterSide_sorted s
  generalize b.iterSide s = es at hmem hsorted ⊢
  induction es with
  | nil => rfl
  | cons e es ih =>
    obtain ⟨hne, htotal⟩ := hmem e List.mem_cons_self
    obtain ⟨hlt, hsorted⟩ := List.pairwise_cons.mp hsorted
    rw [List.flatMap_cons, List.map_cons, perPrice_run e.1,
      ih (fun e' he' => hmem e' (List.mem_cons_of_mem _ he')) hsorted, htotal]
    · simpa [Queue.orders] using hne
    · intro x hx
      exact h.px_of_mem hx
    · intro x hx hxp
      obtain ⟨e', he', hx⟩ := List.mem_flatMap.mp hx
      rw [h.px_of_mem hx] at hxp
      exact s.better_irrefl e.1 (hxp ▸ hlt e' he')

theorem filter_px (h : BookRep b q) (s : Side) (p : Price) :
    (b.resting s).filter (fun x => x.px = p) = (q s p).orders := by
  obtain ⟨before, after, hb, ha, hr⟩ := h.resting_split s p
  have hno : ∀ xs : List Order, (∀ x ∈ xs, x.px ≠ p) → xs.filter (fun x => x.px = p) = [] := by
    intro xs hxs
    simpa [List.filter_eq_nil_iff] using hxs
  rw [hr, List.filter_append, List.filter_append, hno before, hno after, List.filter_eq_self.mpr]
  · simp
  · intro x hx
    rw [decide_eq_true_eq]
    exact h.px_of_mem hx
  · intro x hx hxp
    exact s.better_irrefl p (hxp ▸ ha x hx)
  · intro x hx hxp
    exact s.better_irrefl p (hxp ▸ hb x hx)

theorem levelQty_eq (h : BookRep b q) (s : Side) (p : Price) :
    b.resting.levelQty s p = qtySum (q s p).orders := by
  rw [levelQty, h.filter_px]

end BookRep

namespace Engine

omit [Slab S OrderNode] in
theorem canFullyFillLoop_cons (pr : Profile) (o : Order) (acc : UInt64) (p : Price) (l : Level)
    (levels : List (Price × Level)) :
    canFullyFillLoop pr o acc ((p, l) :: levels) =
      if o.admits p = false then .ok false
      else pr.add acc l.totalQty.val >>= fun acc =>
        if o.remainingQty.val ≤ acc then .ok true else canFullyFillLoop pr o acc levels := by
  rw [canFullyFillLoop]
  unfold Order.admits
  cases o.price with
  | none => rfl
  | some limit => cases o.side <;> by_cases hc : p ≤ limit <;> by_cases hc' : limit ≤ p <;> simp [hc, hc']

/-- The scan, from a running sum that does not cover the order yet. -/
theorem canFullyFillLoop_spec (o : Order) (acc : UInt64) (levels : List (Price × Level))
    (hacc : acc.toNat < o.rem) :
    let ls := levels.map (fun e => (e.1, e.2.totalQty.toNat))
    (ScanFits o acc.toNat ls ∧ ∀ pr, canFullyFillLoop pr o acc levels =
      .ok (decide (o.rem ≤ acc.toNat +
        ((ls.takeWhile (fun l => o.admits l.1)).map Prod.snd).sum))) ∨
    (¬ ScanFits o acc.toNat ls ∧ canFullyFillLoop .debug o acc levels = .error .addOverflow) := by
  intro ls
  induction levels generalizing acc with
  | nil =>
    left
    refine ⟨trivial, fun pr => ?_⟩
    simp [canFullyFillLoop, ls]
    omega
  | cons e levels ih =>
    obtain ⟨p, l⟩ := e
    by_cases hadm : o.admits p = true
    · by_cases hfit : acc.toNat + l.totalQty.toNat < 2 ^ 64
      · have hsum := UInt64.toNat_add_of_fits acc l.totalQty.val hfit
        by_cases hcov : o.rem ≤ acc.toNat + l.totalQty.toNat
        · left
          refine ⟨fun _ => ⟨hfit, fun hlt => absurd hlt (Nat.not_lt.mpr hcov)⟩, fun pr => ?_⟩
          rw [canFullyFillLoop_cons, if_neg (by simp [hadm]), Profile.add_ok pr _ _ hfit,
            Checked.ok_bind, if_pos (UInt64.le_iff_toNat_le.mpr (by rw [hsum]; exact hcov))]
          simp [ls, hadm]
          omega
        · have hstep : ∀ pr, canFullyFillLoop pr o acc ((p, l) :: levels) =
              canFullyFillLoop pr o (acc + l.totalQty.val) levels := by
            intro pr
            rw [canFullyFillLoop_cons, if_neg (by simp [hadm]), Profile.add_ok pr _ _ hfit,
              Checked.ok_bind, if_neg]
            rw [UInt64.le_iff_toNat_le, hsum]
            exact hcov
          have hscan : ScanFits o acc.toNat ls ↔
              ScanFits o (acc + l.totalQty.val).toNat
                (levels.map (fun e => (e.1, e.2.totalQty.toNat))) := by
            rw [hsum]
            constructor
            · intro hs
              exact (hs hadm).2 (Nat.lt_of_not_le hcov)
            · intro hs _
              exact ⟨hfit, fun _ => hs⟩
          rw [hscan]
          rcases ih (acc + l.totalQty.val) (by rw [hsum]; exact Nat.lt_of_not_le hcov) with
            ⟨hs, hrun⟩ | ⟨hs, hrun⟩
          · left
            refine ⟨hs, fun pr => ?_⟩
            rw [hstep, hrun, hsum]
            simp [ls, hadm, Nat.add_assoc, Qty.toNat]
          · right
            exact ⟨hs, by rw [hstep, hrun]⟩
      · right
        refine ⟨fun hs => hfit (hs hadm).1, ?_⟩
        rw [canFullyFillLoop_cons, if_neg (by simp [hadm]),
          Profile.add_overflow _ _ (by simp only [Qty.toNat] at hfit; omega)]
        rfl
    · left
      rw [Bool.not_eq_true] at hadm
      refine ⟨fun hs => by simp [hadm] at hs, fun pr => ?_⟩
      rw [canFullyFillLoop_cons, if_pos hadm]
      simp [ls, hadm]
      omega

theorem canFullyFill_spec {self : Engine S} {q : Queues} (h : BookRep self.book q) (o : Order)
    (hpos : 0 < o.rem) :
    (ScanFits o 0 (perPrice (self.book.resting (oppositeSide o.side))) ∧
      ∀ pr, self.canFullyFill pr o = .ok (self.book.resting.canFullyFill o)) ∨
    (¬ ScanFits o 0 (perPrice (self.book.resting (oppositeSide o.side))) ∧
      self.canFullyFill .debug o = .error .addOverflow) := by
  have hspec := canFullyFillLoop_spec o 0 (self.book.iterSide (oppositeSide o.side)) hpos
  rw [← h.perPrice_resting] at hspec
  simp only [UInt64.toNat_zero, Nat.zero_add] at hspec
  exact hspec

end Engine

end Ordust
