import Ordust.FillOrKill
import Ordust.Noninterference
import Ordust.Splitting

/-!
# The kinds of order

A submission that is cancelled at once is an immediate or cancel order, whatever its time in force.
A market order is a limit order at a price that nothing fails.
-/

namespace Ordust

open RefBook

variable {S : Type} [Slab S OrderNode]

def BookEvent.rests : BookEvent → Bool
  | .restingOnBook _ _ _ => true
  | _ => false

def Order.asIoc (o : Order) : Order := { o with tif := .ioc }

/-- The limit that every price satisfies. -/
def Side.anyPrice : Side → Price
  | .buy => ⟨UInt64.ofNat (2 ^ 64 - 1)⟩
  | .sell => ⟨0⟩

/-- A market order as a limit order. The check of a fill-or-kill order looks at its price field, so
there the field counts. A good till cancelled market order is refused, and stays what it is. -/
def Order.asLimit (o : Order) : Order :=
  if o.orderType = .market ∧ o.tif ≠ .gtc then
    { o with
      orderType := .limit
      price := some (if o.tif = .fok then o.price.getD o.side.anyPrice else o.side.anyPrice) }
  else o

def Call.asLimit : Call → Call
  | .submit o => .submit o.asLimit
  | .cancel id => .cancel id

namespace RefBook

variable {r r' : RefBook} {o o' : Order} {ts : List Trade} {n : UInt64}

/-! ## Takers of two kinds -/

/-- Two takers that differ in what they are called, but not in what they are, to the trades. -/
structure SameTaker (o o' : Order) : Prop where
  id : o'.id = o.id
  side : o'.side = o.side
  qty : o'.remainingQty = o.remainingQty
  timestamp : o'.timestamp = o.timestamp

theorem SameTaker.rem (h : SameTaker o o') : o'.rem = o.rem := congrArg Qty.toNat h.qty

theorem SameTaker.tradeOf (h : SameTaker o o') (m : Order) (qty : Qty) :
    tradeOf o' m qty = tradeOf o m qty := by
  rw [RefBook.tradeOf, RefBook.tradeOf, h.id, h.timestamp]

theorem SameTaker.withRemaining (h : SameTaker o o') (n : UInt64) :
    SameTaker (o.withRemaining n) (o'.withRemaining n) :=
  ⟨h.id, h.side, rfl, h.timestamp⟩

theorem matchOrders_kind (h : SameTaker o o') (front behind : List Order)
    (hc : ∀ m ∈ front, o'.crossesAt m.px = o.crossesAt m.px)
    (hcover : behind = [] ∨ o.rem ≤ qtySum front) :
    matchOrders o' (front ++ behind) = ((matchOrders o (front ++ behind)).1,
      o'.withRemaining (matchOrders o (front ++ behind)).2.1.remainingQty.val,
      (matchOrders o (front ++ behind)).2.2) := by
  have hsame : o' = o'.withRemaining o.remainingQty.val := by
    rw [← h.qty]
    rfl
  induction front generalizing o o' with
  | nil =>
    rcases hcover with rfl | hzero
    · simp [matchOrders, ← hsame]
    · have hzero : o.rem = 0 := Nat.le_zero.mp hzero
      rw [List.nil_append, matchOrders_stop o _ (Or.inl hzero),
        matchOrders_stop o' _ (Or.inl (h.rem.trans hzero)), ← hsame]
  | cons m ms ih =>
    have hhead : headCrosses o' (m :: (ms ++ behind)) = headCrosses o (m :: (ms ++ behind)) :=
      hc m List.mem_cons_self
    rw [List.cons_append]
    by_cases hstop : o.rem = 0 ∨ headCrosses o (m :: (ms ++ behind)) = false
    · rw [matchOrders_stop o _ hstop, matchOrders_stop o' _ (by rwa [h.rem, hhead]), ← hsame]
    · rw [not_or, Bool.not_eq_false] at hstop
      obtain ⟨hne, hcross⟩ := hstop
      have hpos := Nat.pos_of_ne_zero hne
      have hpos' : 0 < o'.rem := by rwa [h.rem]
      rcases Nat.lt_or_ge o.rem m.rem with hlt | hle
      · rw [matchOrders_inside o m _ hpos hcross hlt,
          matchOrders_inside o' m _ hpos' (hhead.trans hcross) (by rwa [h.rem]), h.qty, h.tradeOf]
        rfl
      · have hrest := @ih (o.withRemaining (o.remainingQty.val - m.remainingQty.val))
          (o'.withRemaining (o.remainingQty.val - m.remainingQty.val)) (h.withRemaining _)
          (fun x hx => hc x (List.mem_cons_of_mem _ hx))
          (by
            have hrem := Order.rem_sub o m.remainingQty hle
            rw [qtySum_cons] at hcover
            apply hcover.imp_right
            intro hle
            rw [hrem]
            exact Nat.sub_le_iff_le_add'.mpr hle)
          rfl
        rw [matchOrders_exhaust o m _ hpos hcross hle,
          matchOrders_exhaust o' m _ hpos' (hhead.trans hcross) (by rwa [h.rem]), h.qty, h.tradeOf]
        simp only [hrest]
        rfl

theorem Matched.kind (hm : Matched r o ts n) (h : SameTaker o o') (hc : o'.crossesAt = o.crossesAt)
    (hv : r.validate o' = .ok ()) : Matched r o' ts n := by
  have hkind := matchOrders_kind h (r (oppositeSide o.side)) [] (fun m _ => congrFun hc m.px) (.inl rfl)
  rw [List.append_nil, hm.trades, hm.rest, ← h.side] at hkind
  exact ⟨hv, by rw [hkind], by rw [hkind]; rfl⟩

/-! ## A submission that is cancelled -/

theorem validate_of (hpos : 0 < o.rem) (hprice : o.orderType = .limit → o.price ≠ none)
    (hgtc : o.tif = .gtc → o.orderType = .limit) (hid : o.id ∉ r.ids) : r.validate o = .ok () := by
  have hmarket : ¬ (o.orderType = .market ∧ o.tif = .gtc) := by
    rintro ⟨hm, ht⟩
    rw [hgtc ht] at hm
    simp at hm
  unfold validate
  rw [if_neg (Nat.ne_of_gt hpos), if_neg (fun h => hprice h.1 h.2), if_neg hmarket, if_neg hid]

theorem validate_ioc (hv : r.validate o = .ok ()) : r.validate o.asIoc = .ok () := by
  obtain ⟨hpos, hprice, -, hid⟩ := validate_ok hv
  exact validate_of hpos hprice (fun h => by simp [Order.asIoc] at h) hid

theorem Matched.submit_ioc (hm : Matched r o ts n) (hok : Ok r) : r.submit o.asIoc =
    (.ok (.accepted o.id :: ts.map .trade ++ if n.toNat = 0 then [] else [.cancelled o.id]),
      r.after (ts.map .trade)) := by
  have hv := validate_ioc hm.valid
  have hm' : Matched r o.asIoc ts n := hm.kind ⟨rfl, rfl, rfl, rfl⟩ rfl hv
  have htif : (o.asIoc.withRemaining n).tif = .ioc := rfl
  rw [submit_settle hv (by simp [Order.asIoc])]
  simp only [settle, after_matchOrders hok o.asIoc, hm'.trades, hm'.rest, remainder,
    Order.rem_withRemaining, htif]
  split <;> rfl

theorem filter_rests (id : OrderId) (ts : List Trade) (ending : List BookEvent) :
    (BookEvent.accepted id :: ts.map .trade ++ ending).filter (fun ev => !ev.rests) =
      BookEvent.accepted id :: ts.map .trade ++ ending.filter (fun ev => !ev.rests) := by
  have htrades : (ts.map BookEvent.trade).filter (fun ev => !ev.rests) = ts.map .trade := by
    rw [List.filter_eq_self]
    intro ev hev
    obtain ⟨t, -, rfl⟩ := List.mem_map.mp hev
    rfl
  rw [List.cons_append, List.filter_cons_of_pos (by rfl), List.filter_append, htrades,
    List.cons_append]

theorem cancel_not_mem {id : OrderId} (hid : id ∉ r.ids) :
    r.cancel id = (.error (.orderNotFound id), r) :=
  if_neg hid

theorem submit_then_cancel (hok : Ok r) {evs : List BookEvent}
    (h : (r.call (.submit o)).1 = .ok evs) :
    r.call (.submit o.asIoc) =
      (.ok ((evs ++ eventsOf ((r.call (.submit o)).2.call (.cancel o.id)).1).filter
          (fun ev => !ev.rests)),
        ((r.call (.submit o)).2.call (.cancel o.id)).2) := by
  have he : Effect r (.submit o) evs (r.call (.submit o)).2 := by
    rcases call_effect hok (.submit o) with ⟨err, hc⟩ | ⟨evs', hevs, he⟩
    · rw [hc] at h
      simp at h
    · rw [h] at hevs
      exact Except.ok.inj hevs ▸ he
  generalize (r.call (.submit o)).2 = r' at he ⊢
  show r.submit o.asIoc =
    (.ok ((evs ++ eventsOf (r'.cancel o.id).1).filter (fun ev => !ev.rests)), (r'.cancel o.id).2)
  cases he with
  | @filled _ ts hm =>
    have hgone : o.id ∉ (r.after (ts.map .trade)).ids :=
      fun hc => hm.fresh ((ids_after r _).subset hc)
    have hevents := filter_rests o.id ts []
    rw [List.append_nil] at hevents
    rw [hm.submit_ioc hok, cancel_not_mem hgone]
    simp only [eventsOf, List.append_nil, hevents]
    rfl
  | @rested _ ts n hm hn =>
    have hgone : (o.withRemaining n).id ∉ (r.after (ts.map .trade)).ids :=
      fun hc => hm.fresh ((ids_after r _).subset hc)
    have hmem : o.id ∈ ((r.after (ts.map .trade)).rest (o.withRemaining n)).ids :=
      (ids_rest _ _).mem_iff.mpr List.mem_cons_self
    rw [hm.submit_ioc hok, if_neg (Nat.ne_of_gt hn), cancel, if_pos hmem, List.append_assoc,
      filter_rests]
    exact Prod.ext rfl (erase_rest hgone).symm
  | @dropped _ ts n hm hn =>
    have hgone : o.id ∉ (r.after (ts.map .trade)).ids :=
      fun hc => hm.fresh ((ids_after r _).subset hc)
    rw [hm.submit_ioc hok, if_neg (Nat.ne_of_gt hn), cancel_not_mem hgone, List.append_assoc,
      filter_rests]
    rfl

theorem fits_ioc (r : RefBook) (o : Order) : r.Fits (.submit o.asIoc) :=
  fun _ => ⟨fun ht => by simp [Order.asIoc] at ht, fun ht => by simp [Order.asIoc] at ht⟩

/-! ## A market order -/

theorem anyPrice_admits (s : Side) (p : Price) :
    (match s with
      | .buy => decide (p ≤ s.anyPrice)
      | .sell => decide (s.anyPrice ≤ p)) = true := by
  cases s
  · rw [decide_eq_true_iff, Price.le_iff]
    have hmax : Side.anyPrice .buy = ⟨UInt64.ofNat (2 ^ 64 - 1)⟩ := rfl
    have hlt := p.val.toNat_lt
    rw [hmax]
    show p.val.toNat ≤ 2 ^ 64 - 1
    omega
  · exact decide_eq_true (Nat.zero_le _)

section AsLimit

variable (hm : o.orderType = .market) (ht : o.tif ≠ .gtc)
include hm ht

theorem asLimit_eq : o.asLimit = { o with
    orderType := .limit
    price := some (if o.tif = .fok then o.price.getD o.side.anyPrice else o.side.anyPrice) } :=
  if_pos ⟨hm, ht⟩

theorem sameTaker_asLimit : SameTaker o o.asLimit := by
  rw [asLimit_eq hm ht]
  exact ⟨rfl, rfl, rfl, rfl⟩

theorem validate_asLimit : r.validate o.asLimit = r.validate o := by
  rw [asLimit_eq hm ht]
  unfold validate
  simp [hm, ht, Order.rem]

theorem admits_asLimit (hf : o.tif = .fok) : o.asLimit.admits = o.admits := by
  funext p
  rw [asLimit_eq hm ht]
  unfold Order.admits
  simp only [hf, if_true]
  cases o.price with
  | none => exact anyPrice_admits o.side p
  | some limit => rfl

theorem crossesAt_asLimit_ioc (hi : o.tif = .ioc) (p : Price) :
    o.asLimit.crossesAt p = o.crossesAt p := by
  rw [asLimit_eq hm ht]
  unfold Order.crossesAt Order.px
  simp only [hm, hi, reduceCtorEq, if_false, Option.getD_some]
  exact anyPrice_admits o.side p

theorem crossesAt_asLimit_fok (hf : o.tif = .fok) {p : Price} (ha : o.admits p = true) :
    o.asLimit.crossesAt p = o.crossesAt p := by
  have hcross : o.crossesAt p = true := by simp [Order.crossesAt, hm]
  have hpriced : o.asLimit.Priced := by
    rw [asLimit_eq hm ht]
    exact fun _ => by simp
  rw [hcross]
  exact crossesAt_of_admits hpriced (by rwa [admits_asLimit hm ht hf])

theorem matchOrders_asLimit (hf : o.tif = .fok → r.canFullyFill o = true) :
    matchOrders o.asLimit (r (oppositeSide o.side)) =
      ((matchOrders o (r (oppositeSide o.side))).1,
        o.asLimit.withRemaining (matchOrders o (r (oppositeSide o.side))).2.1.remainingQty.val,
        (matchOrders o (r (oppositeSide o.side))).2.2) := by
  have hsame := sameTaker_asLimit hm ht
  cases htif : o.tif with
  | gtc => exact absurd htif ht
  | ioc =>
    have hkind := matchOrders_kind hsame (r (oppositeSide o.side)) []
      (fun m _ => crossesAt_asLimit_ioc hm ht htif m.px) (Or.inl rfl)
    rwa [List.append_nil] at hkind
  | fok =>
    -- The orders that the check counted come first, and fill the order.
    have hcover : o.rem ≤ qtySum (admitted o (r (oppositeSide o.side))) := by
      have hfill := hf htif
      rwa [canFullyFill_eq, decide_eq_true_iff] at hfill
    have hsplit : admitted o (r (oppositeSide o.side)) ++
        (r (oppositeSide o.side)).dropWhile (fun x => o.admits x.px) = r (oppositeSide o.side) :=
      List.takeWhile_append_dropWhile
    have hcross : ∀ m ∈ admitted o (r (oppositeSide o.side)),
        o.asLimit.crossesAt m.px = o.crossesAt m.px := by
      intro m hmem
      apply crossesAt_asLimit_fok hm ht htif
      simpa using List.mem_takeWhile_imp hmem
    have hkind := matchOrders_kind hsame (admitted o (r (oppositeSide o.side)))
      ((r (oppositeSide o.side)).dropWhile (fun x => o.admits x.px)) hcross (Or.inr hcover)
    rwa [hsplit] at hkind

theorem settle_asLimit (hf : o.tif = .fok → r.canFullyFill o = true) :
    r.settle o.asLimit = r.settle o := by
  have hsame := sameTaker_asLimit hm ht
  obtain ⟨n, hn⟩ := matchOrders_rest o (r (oppositeSide o.side))
  have hmatch := matchOrders_asLimit hm ht hf
  have htif : o.asLimit.tif = o.tif := by rw [asLimit_eq hm ht]
  have hremainder : ∀ r', remainder r' (o.asLimit.withRemaining n) =
      remainder r' (o.withRemaining n) := by
    intro r'
    unfold remainder
    rw [show (o.asLimit.withRemaining n).tif = o.tif from htif,
      show (o.withRemaining n).tif = o.tif from rfl, Order.rem_withRemaining, Order.rem_withRemaining,
      Order.id_withRemaining, Order.id_withRemaining, hsame.id]
    cases htif' : o.tif with
    | gtc => exact absurd htif' ht
    | ioc => rfl
    | fok => rfl
  simp only [settle, hsame.side, hsame.id, hmatch, hn]
  rw [show (o.withRemaining n).remainingQty.val = n from rfl, hremainder]

end AsLimit

theorem call_asLimit (r : RefBook) (c : Call) : r.call c.asLimit = r.call c := by
  cases c with
  | cancel id => rfl
  | submit o =>
    show r.submit o.asLimit = r.submit o
    by_cases hkind : o.orderType = .market ∧ o.tif ≠ .gtc
    · obtain ⟨hm, ht⟩ := hkind
      have hsame := sameTaker_asLimit hm ht
      have htif : o.asLimit.tif = o.tif := by rw [asLimit_eq hm ht]
      have hfill : o.tif = .fok → r.canFullyFill o.asLimit = r.canFullyFill o := by
        intro hf
        rw [canFullyFill, canFullyFill, hsame.side, hsame.rem, admits_asLimit hm ht hf]
      rw [submit_eq, submit_eq, validate_asLimit hm ht, htif]
      cases r.validate o with
      | error err => rfl
      | ok u =>
        simp only
        by_cases hrefused : o.tif = .fok ∧ r.canFullyFill o = false
        · rw [if_pos hrefused, if_pos ⟨hrefused.1, (hfill hrefused.1).trans hrefused.2⟩]
        · have hpass : ∀ ht : o.tif = .fok, r.canFullyFill o = true := by
            intro ht
            rw [← Bool.not_eq_false]
            exact fun hc => hrefused ⟨ht, hc⟩
          rw [if_neg hrefused, if_neg, settle_asLimit hm ht hpass]
          rintro ⟨hf, hc⟩
          exact hrefused ⟨hf, (hfill hf).symm.trans hc⟩
    · rw [Order.asLimit, if_neg hkind]

theorem scanFits_congr (hrem : o'.rem = o.rem) (ha : o'.admits = o.admits)
    (levels : List (Price × Nat)) (acc : Nat) : ScanFits o' acc levels ↔ ScanFits o acc levels := by
  induction levels generalizing acc with
  | nil => exact Iff.rfl
  | cons l levels ih => simp only [ScanFits, hrem, ha, ih]

theorem fits_asLimit {c : Call} (h : r.Fits c) : r.Fits c.asLimit := by
  cases c with
  | cancel id => trivial
  | submit o =>
    show r.Fits (.submit o.asLimit)
    by_cases hkind : o.orderType = .market ∧ o.tif ≠ .gtc
    · obtain ⟨hm, ht⟩ := hkind
      have hsame := sameTaker_asLimit hm ht
      have htif : o.asLimit.tif = o.tif := by rw [asLimit_eq hm ht]
      intro hv
      rw [validate_asLimit hm ht] at hv
      refine ⟨?_, fun hg => absurd (htif.symm.trans hg) ht⟩
      intro hf
      rw [htif] at hf
      rw [hsame.side, scanFits_congr hsame.rem (admits_asLimit hm ht hf)]
      exact (h hv).1 hf
    · rw [Order.asLimit, if_neg hkind]
      exact h

theorem run_cons (r : RefBook) (c : Call) (calls : List Call) : r.run (c :: calls) =
    ((r.call c).1 :: ((r.call c).2.run calls).1, ((r.call c).2.run calls).2) := rfl

theorem run_asLimit (r : RefBook) (calls : List Call) :
    r.run (calls.map Call.asLimit) = r.run calls ∧
      (r.FitsRun calls → r.FitsRun (calls.map Call.asLimit)) := by
  induction calls generalizing r with
  | nil => exact ⟨rfl, fun h => h⟩
  | cons c calls ih =>
    obtain ⟨hrun, hfits⟩ := ih (r.call c).2
    rw [List.map_cons]
    constructor
    · rw [run_cons, run_cons, call_asLimit, hrun]
    · rintro ⟨hc, hrest⟩
      refine ⟨fits_asLimit hc, ?_⟩
      rw [call_asLimit]
      exact hfits hrest

/-! ## Two limits -/

/-- The taker `o` crosses no more than `o'` does, and is the same to the trades. -/
structure Tighter (o o' : Order) : Prop extends SameTaker o o' where
  crosses : ∀ p, o.crossesAt p = true → o'.crossesAt p = true

theorem Tighter.withRemaining (h : Tighter o o') (n : UInt64) :
    Tighter (o.withRemaining n) (o'.withRemaining n) :=
  ⟨h.toSameTaker.withRemaining n, h.crosses⟩

/-- The looser taker trades on where the tighter one stops. -/
theorem matchOrders_tighter (h : Tighter o o') {makers : List Order}
    (hs : Sorted (oppositeSide o.side) makers) :
    (matchOrders o makers).1 = (matchOrders o' makers).1.filter (fun t => o.crossesAt t.price) := by
  induction makers generalizing o o' with
  | nil => rfl
  | cons m ms ih =>
    by_cases hzero : o.rem = 0
    · rw [matchOrders_stop o _ (Or.inl hzero), matchOrders_stop o' _ (Or.inl (h.rem.trans hzero))]
      rfl
    · have hpos := Nat.pos_of_ne_zero hzero
      have hpos' : 0 < o'.rem := by rwa [h.rem]
      by_cases hcross : headCrosses o (m :: ms) = true
      · have hcm : o.crossesAt m.px = true := hcross
        have hcross' : headCrosses o' (m :: ms) = true := h.crosses m.px hcm
        rcases Nat.lt_or_ge o.rem m.rem with hlt | hle
        · rw [matchOrders_inside o m ms hpos hcross hlt,
            matchOrders_inside o' m ms hpos' hcross' (by rwa [h.rem]), h.qty, h.tradeOf]
          exact (List.filter_eq_self.mpr (by simpa [tradeOf] using hcm)).symm
        · have hrest := @ih (o.withRemaining (o.remainingQty.val - m.remainingQty.val))
            (o'.withRemaining (o.remainingQty.val - m.remainingQty.val)) (h.withRemaining _)
            (List.pairwise_cons.mp hs).2
          rw [matchOrders_exhaust o m ms hpos hcross hle,
            matchOrders_exhaust o' m ms hpos' hcross' (by rwa [h.rem]), h.qty, h.tradeOf]
          simp only
          rw [List.filter_cons_of_pos (by exact hcm), hrest]
          rfl
      · -- Nothing that rests crosses the tighter limit, so no trade does.
        rw [Bool.not_eq_true] at hcross
        have hnone := headCrosses_eq_false hs hcross
        rw [matchOrders_stop o _ (Or.inr hcross), eq_comm, List.filter_eq_nil_iff]
        intro t ht
        obtain ⟨ts₁, ts₂, hsplit⟩ := List.append_of_mem ht
        obtain ⟨gone, x, rest, qty, hmk, -, rfl, -⟩ := matchOrders_trade hsplit
        have hx := hnone x (by rw [hmk]; simp)
        simpa [tradeOf] using hx

end RefBook

/-- The trades among some events. -/
def tradesOf (evs : List BookEvent) : List Trade :=
  evs.filterMap (fun ev => match ev with | .trade t => some t | _ => none)

theorem tradesOf_submission (id : OrderId) (ts : List Trade) {ending : List BookEvent}
    (hend : ∀ t, .trade t ∉ ending) : tradesOf (.accepted id :: ts.map .trade ++ ending) = ts := by
  have hending : tradesOf ending = [] := by
    rw [tradesOf, List.filterMap_eq_nil_iff]
    intro ev hev
    cases ev with
    | trade t => exact absurd hev (hend t)
    | _ => rfl
  have htrades : tradesOf (ts.map .trade) = ts := by
    rw [tradesOf, List.filterMap_map]
    exact List.filterMap_some
  rw [tradesOf, List.cons_append, List.filterMap_cons_none (by rfl), List.filterMap_append]
  show tradesOf (ts.map .trade) ++ tradesOf ending = ts
  rw [htrades, hending, List.append_nil]

theorem RefBook.Effect.tradesOf_eq {r r' : RefBook} {o : Order} {evs : List BookEvent}
    (h : Effect r (.submit o) evs r') :
    tradesOf evs = (matchOrders o (r (oppositeSide o.side))).1 := by
  obtain ⟨ts, n, ending, hm, rfl, hend⟩ := h.events_of_submit
  rw [tradesOf_submission o.id ts hend, hm.trades]

/-- A submission that is accepted and cancelled by the next call is an immediate or cancel order: all
later calls answer the same, and the two answers together say what its one answer says. -/
theorem submit_then_cancel_is_ioc (before later : List Call) (o : Order)
    (h : NoAddOverflow S (before ++ .submit o :: .cancel o.id :: later)) :
    ∃ (rs rs' : List Response) (own gone : Response) (e : Engine S),
      (∀ pr, Engine.new.run pr (before ++ .submit o :: .cancel o.id :: later) =
        .ok (rs ++ own :: gone :: rs', e)) ∧
      rs.length = before.length ∧
      ∀ evs, own = .ok evs → ∃ e' : Engine S,
        (∀ pr, Engine.new.run pr (before ++ .submit o.asIoc :: later) =
          .ok (rs ++ .ok ((evs ++ eventsOf gone).filter (fun ev => !ev.rests)) :: rs', e')) ∧
        e'.book.Alike e.book := by
  obtain ⟨e, q, hrun, hrep, hres, -⟩ := reach h
  have hfits := (noAddOverflow_iff _).mp h
  have hok : Ok (RefBook.new.run before).2 := Ok.new.run before
  rw [run_append, RefBook.run_cons, RefBook.run_cons] at hrun hres
  obtain ⟨hbefore, -, -, hlater⟩ := (fitsRun_append _ _ _).mp hfits
  refine ⟨_, _, _, _, e, hrun, Runs.length_run _ _, ?_⟩
  intro evs hown
  have hioc := submit_then_cancel hok hown
  have hno : NoAddOverflow S (before ++ .submit o.asIoc :: later) := by
    rw [noAddOverflow_iff, fitsRun_append]
    refine ⟨hbefore, fits_ioc _ _, ?_⟩
    rw [hioc]
    exact hlater
  obtain ⟨e', q', hrun', hrep', hres', -⟩ := reach hno
  rw [run_append, RefBook.run_cons, hioc] at hrun' hres'
  exact ⟨e', hrun', hrep'.alike hrep (hres'.trans hres.symm)⟩

/-- A remainder of two that would rest. -/
theorem submit_then_cancel_is_ioc_twoAsks :
    ∃ (rs rs' : List Response) (own gone : Response) (e : Engine (FreeListSlab OrderNode)),
      (∀ pr, Engine.new.run pr (twoAsks ++ .submit (makeOrder 3 .buy 100 12 3 .limit .gtc) ::
          .cancel ⟨3⟩ :: [.submit (makeOrder 4 .sell 100 1 4 .limit .ioc)]) =
        .ok (rs ++ own :: gone :: rs', e)) ∧
      rs.length = twoAsks.length ∧
      ∀ evs, own = .ok evs → ∃ e' : Engine (FreeListSlab OrderNode),
        (∀ pr, Engine.new.run pr
            (twoAsks ++ .submit (makeOrder 3 .buy 100 12 3 .limit .gtc).asIoc ::
              [.submit (makeOrder 4 .sell 100 1 4 .limit .ioc)]) =
          .ok (rs ++ .ok ((evs ++ eventsOf gone).filter (fun ev => !ev.rests)) :: rs', e')) ∧
        e'.book.Alike e.book :=
  submit_then_cancel_is_ioc twoAsks [.submit (makeOrder 4 .sell 100 1 4 .limit .ioc)]
    (makeOrder 3 .buy 100 12 3 .limit .gtc) (NoAddOverflow.of_isOk (by decide +kernel))

/-- A run answers the same, and leaves the same book, with every market order in it written as a limit
order. -/
theorem market_orders_are_limits (calls : List Call) (h : NoAddOverflow S calls) :
    ∃ (rs : List Response) (e e' : Engine S), (∀ pr, Engine.new.run pr calls = .ok (rs, e)) ∧
      (∀ pr, Engine.new.run pr (calls.map Call.asLimit) = .ok (rs, e')) ∧ e'.book.Alike e.book := by
  obtain ⟨hsame, hfits⟩ := run_asLimit RefBook.new calls
  have h' : NoAddOverflow S (calls.map Call.asLimit) := by
    rw [noAddOverflow_iff] at h ⊢
    exact hfits h
  obtain ⟨e, q, hrun, hrep, hres, -⟩ := reach h
  obtain ⟨e', q', hrun', hrep', hres', -⟩ := reach h'
  rw [hsame] at hrun' hres'
  exact ⟨_, e, e', hrun, hrun', hrep'.alike hrep (hres'.trans hres.symm)⟩

/-- Two asks, then market orders of every time in force. -/
def marketOrders : List Call :=
  twoAsks ++ [.submit (makeOrder 3 .buy 99 4 3 .market .ioc),
    .submit (makeOrder 4 .buy 100 3 4 .market .fok), .submit (makeOrder 5 .buy 99 3 5 .market .fok),
    .submit (makeOrder 6 .buy 99 3 6 .market .gtc)]

theorem market_orders_are_limits_marketOrders :
    ∃ (rs : List Response) (e e' : Engine (FreeListSlab OrderNode)),
      (∀ pr, Engine.new.run pr marketOrders = .ok (rs, e)) ∧
      (∀ pr, Engine.new.run pr (marketOrders.map Call.asLimit) = .ok (rs, e')) ∧
      e'.book.Alike e.book :=
  market_orders_are_limits marketOrders (NoAddOverflow.of_isOk (by decide +kernel))

/-- On any reachable book, the trades of a submission are those that one with a looser limit would
make, as far as they are within the limit. -/
theorem limit_filters_trades (calls : List Call) (h : NoAddOverflow S calls) :
    ∃ (rs : List Response) (e : Engine S), (∀ pr, Engine.new.run pr calls = .ok (rs, e)) ∧
      ∀ pr o o' evs evs' e₁ e₂, Tighter o o' →
        e.submitOrder pr o = .ok (.ok evs, e₁) → e.submitOrder pr o' = .ok (.ok evs', e₂) →
        tradesOf evs = (tradesOf evs').filter (fun t => o.crossesAt t.price) := by
  obtain ⟨e, q, hrun, hrep, -, hok⟩ := reach h
  refine ⟨_, e, hrun, ?_⟩
  intro pr o o' evs evs' e₁ e₂ htight hsub hsub'
  have hevs := (Engine.submitOrder_effect hrep hok hsub).tradesOf_eq
  have hevs' := (Engine.submitOrder_effect hrep hok hsub').tradesOf_eq
  rw [hevs, hevs', htight.side]
  exact matchOrders_tighter htight (hok.sorted _)

/-- A buyer of twelve up to 100, and one up to 101. -/
theorem limit_filters_trades_twoAsks :
    ∃ (rs : List Response) (e e₁ e₂ : Engine (FreeListSlab OrderNode)) (evs evs' : List BookEvent),
      (∀ pr, Engine.new.run pr twoAsks = .ok (rs, e)) ∧
      e.submitOrder .debug (makeOrder 3 .buy 100 12 3 .limit .ioc) = .ok (.ok evs, e₁) ∧
      e.submitOrder .debug (makeOrder 3 .buy 101 12 3 .limit .ioc) = .ok (.ok evs', e₂) ∧
      (tradesOf evs').length = 2 ∧ tradesOf evs = (tradesOf evs').filter
        (fun t => (makeOrder 3 .buy 100 12 3 .limit .ioc).crossesAt t.price) := by
  obtain ⟨rs, e, hrun, hfilters⟩ :=
    limit_filters_trades (S := FreeListSlab OrderNode) twoAsks twoAsks_noAddOverflow
  obtain ⟨e₁, hsub⟩ := Engine.answer_of_run hrun (.submit (makeOrder 3 .buy 100 12 3 .limit .ioc))
    (.ok [.accepted ⟨3⟩, .trade ⟨⟨1⟩, ⟨3⟩, ⟨100⟩, ⟨10⟩, ⟨3⟩⟩, .cancelled ⟨3⟩]) (by decide +kernel)
  obtain ⟨e₂, hsub'⟩ := Engine.answer_of_run hrun (.submit (makeOrder 3 .buy 101 12 3 .limit .ioc))
    (.ok [.accepted ⟨3⟩, .trade ⟨⟨1⟩, ⟨3⟩, ⟨100⟩, ⟨10⟩, ⟨3⟩⟩, .trade ⟨⟨2⟩, ⟨3⟩, ⟨101⟩, ⟨2⟩, ⟨3⟩⟩])
    (by decide +kernel)
  have htight :
      Tighter (makeOrder 3 .buy 100 12 3 .limit .ioc) (makeOrder 3 .buy 101 12 3 .limit .ioc) := by
    refine ⟨⟨rfl, rfl, rfl, rfl⟩, ?_⟩
    intro p hp
    have hle : p ≤ ⟨100⟩ := of_decide_eq_true hp
    exact decide_eq_true (hle.trans (by decide))
  exact ⟨rs, e, e₁, e₂, _, _, hrun, hsub, hsub', by decide,
    hfilters .debug _ _ _ _ e₁ e₂ htight hsub hsub'⟩

end Ordust
