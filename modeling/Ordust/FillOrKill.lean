import Ordust.Submission

/-!
# Fill or kill

The scan of the levels and the loop that fills the order read the book in two ways. What the scan
lets through is filled whole. What it turns away lacks quantity, unless a market order carries a
price.
-/

namespace Ordust

open RefBook

/-! ## What the scan counts -/

theorem Order.admits_of_not_better (o : Order) {p p' : Price}
    (h : ¬ (oppositeSide o.side).better p' p) (hc : o.admits p' = true) : o.admits p = true := by
  unfold Order.admits at hc ⊢
  cases hp : o.price with
  | none => rfl
  | some limit =>
    rw [hp] at hc
    cases hs : o.side <;> rw [hs] at h hc <;> simp only [decide_eq_true_eq] at hc ⊢
    · exact le_trans (not_lt.mp h) hc
    · exact le_trans hc (not_lt.mp h)

namespace RefBook

theorem Sorted.takeWhile_eq_filter {s : Side} {os : List Order} (h : Sorted s os) (P : Price → Bool)
    (hP : ∀ p p', ¬ s.better p' p → P p' = true → P p = true) :
    os.takeWhile (fun x => P x.px) = os.filter (fun x => P x.px) := by
  induction os with
  | nil => rfl
  | cons o os ih =>
    obtain ⟨ho, hos⟩ := List.pairwise_cons.mp h
    by_cases hpo : P o.px = true
    · rw [List.takeWhile_cons, List.filter_cons, if_pos hpo, if_pos hpo, ih hos]
    · rw [List.takeWhile_cons, List.filter_cons, if_neg hpo, if_neg hpo, eq_comm,
        List.filter_eq_nil_iff]
      intro x hx hpx
      exact hpo (hP _ _ (ho x hx) hpx)

variable {r r' : RefBook} {o : Order} {evs : List BookEvent}

/-- The quantity resting opposite to `o` at prices that its price field admits. -/
def admittedQty (r : RefBook) (o : Order) : Nat :=
  qtySum ((r (oppositeSide o.side)).filter (fun x => o.admits x.px))

theorem canFullyFill_iff (hok : Ok r) : r.canFullyFill o = true ↔ o.rem ≤ r.admittedQty o := by
  rw [canFullyFill, decide_eq_true_iff, perPrice_takeWhile,
    (hok.sorted _).takeWhile_eq_filter o.admits (fun _ _ => o.admits_of_not_better), admittedQty]

/-- The scan and the loop agree on which orders cross, but for a market order with a price. -/
theorem admittedQty_eq_crossingQty (hp : o.Priced) (h : o.orderType = .limit ∨ o.price = none) :
    r.admittedQty o = r.crossingQty o := by
  have hsame : o.admits = o.crossesAt := by
    funext p
    unfold Order.admits Order.crossesAt Order.px
    cases ht : o.orderType with
    | limit =>
      obtain ⟨limit, hl⟩ := Option.ne_none_iff_exists'.mp (hp ht)
      rw [hl]
      rfl
    | market =>
      rw [h.resolve_left (by simp [ht])]
  rw [admittedQty, crossingQty, hsame]

theorem crossingQty_market (ht : o.orderType = .market) :
    r.crossingQty o = qtySum (r (oppositeSide o.side)) := by
  have hall : (fun x : Order => o.crossesAt x.px) = fun _ => true := by
    funext x
    simp [Order.crossesAt, ht]
  rw [crossingQty, hall, List.filter_true]

theorem Effect.of_fok (h : Effect r (.submit o) evs r') (ht : o.tif = .fok) :
    tradedQty evs = o.rem ∧ NoneRests evs ∧ ∀ id, .cancelled id ∉ evs := by
  cases h with
  | @filled _ ts hm =>
    have htotal := hm.total
    refine ⟨?_, noneRests_trades o.id ts, by simp⟩
    simpa [BookEvent.traded] using htotal
  | rested hm hn hg => simp [ht] at hg
  | dropped hm hn hi => simp [ht] at hi

end RefBook

variable {S : Type} [Slab S OrderNode]

namespace Engine

/-! ## All or nothing -/

omit [Slab S OrderNode] in
theorem canFullyFillLoop_error {pr : Profile} {o : Order} {acc : UInt64}
    {levels : List (Price × Level)} {p : Panic} (h : canFullyFillLoop pr o acc levels = .error p) :
    p = .addOverflow := by
  induction levels generalizing acc with
  | nil => simp [canFullyFillLoop] at h
  | cons e levels ih =>
    rw [canFullyFillLoop_cons] at h
    split at h
    · simp at h
    · cases hadd : pr.add acc e.2.totalQty.val with
      | error p' =>
        rw [hadd, Checked.error_bind, Except.error.injEq] at h
        rw [← h]
        exact Profile.add_error hadd
      | ok acc' =>
        rw [hadd, Checked.ok_bind] at h
        split at h
        · simp at h
        · exact ih h

variable {e e' : Engine S} {q : Queues} {pr : Profile} {o : Order}

/-- The order `o` was filled whole, by the events `evs`, and is not on the book that is left. -/
structure FilledWhole (e' : Engine S) (o : Order) (evs : List BookEvent) : Prop where
  traded : tradedQty evs = o.rem
  noneRests : NoneRests evs
  noneCancelled : ∀ id, .cancelled id ∉ evs
  gone : e'.book.getOrder o.id = none
  notResting : o.id ∉ e'.book.resting.ids

theorem filledWhole {evs : List BookEvent} (h : BookRep e.book q) (hok : Ok e.book.resting)
    (ht : o.tif = .fok) (hrun : e.submitOrder pr o = .ok (.ok evs, e')) : e'.FilledWhole o evs := by
  have he := submitOrder_effect h hok hrun
  obtain ⟨htraded, hrests, hcancels⟩ := he.of_fok ht
  have hid := he.not_mem_ids (by simp [ht])
  obtain ⟨q', hrep⟩ := (submitOrder_ok h hok hrun).2 (by simp [ht])
  exact ⟨htraded, hrests, hcancels, hrep.getOrder_of_not_mem hid, hid⟩

theorem settle_ok (h : BookRep e.book q) (hok : Ok e.book.resting)
    (hv : e.book.resting.validate o = .ok ()) (ht : o.tif ≠ .gtc) :
    ∃ evs e', ∀ pr, e.settle pr o = .ok (.ok evs, e') := by
  rcases settle_spec h hok o hv with ⟨-, e', q', hsettle, -⟩ | ⟨⟨hg, -⟩, -⟩
  · exact ⟨_, e', hsettle⟩
  · exact absurd hg ht

theorem submitOrder_panics (h : BookRep e.book q) (hok : Ok e.book.resting) (ht : o.tif = .fok)
    {p : Panic} (hrun : e.submitOrder pr o = .error p) :
    p = .addOverflow ∧ e.canFullyFill pr o = .error p := by
  rw [submitOrder_eq, validate_eq h o] at hrun
  cases hv : e.book.resting.validate o with
  | error err =>
    rw [hv] at hrun
    simp at hrun
  | ok u =>
    rw [hv] at hrun
    simp only [ht, if_true] at hrun
    cases hfill : e.canFullyFill pr o with
    | error p' =>
      rw [hfill, Checked.error_bind, Except.error.injEq] at hrun
      rw [← hrun]
      exact ⟨canFullyFillLoop_error hfill, rfl⟩
    | ok fillable =>
      rw [hfill, Checked.ok_bind] at hrun
      split at hrun
      · simp at hrun
      · obtain ⟨evs, e', hsettle⟩ := settle_ok h hok hv (by simp [ht])
        simp [hsettle] at hrun

end Engine

/-- A fill-or-kill order is filled whole, or refused with no change, or, in a debug build, stopped by
the scan that comes before any change. -/
theorem fok_all_or_nothing (calls : List Call) (h : NoAddOverflow S calls) :
    ∃ (rs : List Response) (e : Engine S), (∀ pr, Engine.new.run pr calls = .ok (rs, e)) ∧
      ∀ pr o, o.tif = .fok →
        (∃ evs e', e.submitOrder pr o = .ok (.ok evs, e') ∧ e'.FilledWhole o evs) ∨
        (∃ err, e.submitOrder pr o = .ok (.error err, e)) ∨
        (e.submitOrder pr o = .error .addOverflow ∧ e.canFullyFill pr o = .error .addOverflow) := by
  obtain ⟨e, q, hrun, hrep, -, hok⟩ := reach h
  refine ⟨_, e, hrun, ?_⟩
  intro pr o ht
  cases hsub : e.submitOrder pr o with
  | error p =>
    obtain ⟨rfl, hfill⟩ := Engine.submitOrder_panics hrep hok ht hsub
    exact Or.inr (Or.inr ⟨rfl, hfill⟩)
  | ok x =>
    obtain ⟨response, e'⟩ := x
    cases response with
    | error err =>
      obtain rfl := Engine.submitOrder_error hsub
      exact Or.inr (Or.inl ⟨err, rfl⟩)
    | ok evs => exact Or.inl ⟨evs, e', rfl, Engine.filledWhole hrep hok ht hsub⟩

theorem fok_all_or_nothing_twoAsks :
    ∃ (rs : List Response) (e : Engine (FreeListSlab OrderNode)),
      (∀ pr, Engine.new.run pr twoAsks = .ok (rs, e)) ∧ ∀ pr,
        (∃ evs e', e.submitOrder pr (makeOrder 3 .buy 101 12 3 .limit .fok) = .ok (.ok evs, e') ∧
          e'.FilledWhole (makeOrder 3 .buy 101 12 3 .limit .fok) evs) ∨
        (∃ err, e.submitOrder pr (makeOrder 3 .buy 101 12 3 .limit .fok) = .ok (.error err, e)) ∨
        (e.submitOrder pr (makeOrder 3 .buy 101 12 3 .limit .fok) = .error .addOverflow ∧
          e.canFullyFill pr (makeOrder 3 .buy 101 12 3 .limit .fok) = .error .addOverflow) := by
  obtain ⟨rs, e, hrun, hall⟩ := fok_all_or_nothing twoAsks twoAsks_noAddOverflow
  exact ⟨rs, e, hrun, fun pr => hall pr _ rfl⟩

/-! ## Refusals -/

namespace Engine

variable {e : Engine S} {q : Queues} {o : Order}

/-- The fill-or-kill order `o` is turned away only where an immediate or cancel one would be left
with a remainder. If it is a market order, the whole other side is too small for it. -/
def RefusedIfShort (pr : Profile) (e : Engine S) (o : Order) : Prop :=
  ∀ e', e.submitOrder pr o = .ok (.error .fokNotFillable, e') →
    (∃ evs e'', e.submitOrder pr { o with tif := .ioc } = .ok (.ok evs, e'') ∧
      .cancelled o.id ∈ evs ∧ tradedQty evs < o.rem) ∧
    (o.orderType = .market → qtySum (e.book.resting (oppositeSide o.side)) < o.rem)

theorem refused_iff (h : BookRep e.book q) (hok : Ok e.book.resting)
    (hsums : ∀ s, qtySum (e.book.resting s) < 2 ^ 64) (hv : e.book.resting.validate o = .ok ())
    (ht : o.tif = .fok) (pr : Profile) :
    (∃ e', e.submitOrder pr o = .ok (.error .fokNotFillable, e')) ↔
      e.book.resting.admittedQty o < o.rem := by
  rw [← Nat.not_le, ← canFullyFill_iff hok, submitOrder_eq, validate_eq h o, hv]
  rcases canFullyFill_spec h o (validate_ok hv).1 with ⟨-, hfill⟩ | ⟨hscan, -⟩
  · simp only [ht, if_true, hfill, Checked.ok_bind]
    cases hc : e.book.resting.canFullyFill o with
    | false => exact ⟨fun _ => by simp, fun _ => ⟨e, rfl⟩⟩
    | true =>
      obtain ⟨evs, e', hsettle⟩ := settle_ok h hok hv (by simp [ht])
      simp [hsettle]
  · exact absurd (checkFits_of_sums (.submit o) hsums ht) hscan

theorem submitOrder_ioc (h : BookRep e.book q) (hok : Ok e.book.resting)
    (hv : e.book.resting.validate o = .ok ()) (ht : o.tif = .fok) (pr : Profile) :
    ∃ evs e', e.submitOrder pr { o with tif := .ioc } = .ok (.ok evs, e') ∧
      tradedQty evs = min o.rem (e.book.resting.crossingQty o) ∧
      (.cancelled o.id ∈ evs ↔ e.book.resting.crossingQty o < o.rem) := by
  have hv' : e.book.resting.validate { o with tif := .ioc } = .ok () := by
    rw [← hv]
    unfold RefBook.validate
    simp only [ht, reduceCtorEq, and_false]
    rfl
  obtain ⟨evs, e', hsettle⟩ := settle_ok h hok hv' (by simp)
  have hrun : e.submitOrder pr { o with tif := .ioc } = .ok (.ok evs, e') := by
    rw [submitOrder_eq, validate_eq h, hv']
    simp [hsettle]
  have he := submitOrder_effect h hok hrun
  have htraded : tradedQty evs = min o.rem (e.book.resting.crossingQty o) := he.tradedQty_eq hok
  refine ⟨evs, e', hrun, htraded, ?_⟩
  rw [he.cancelled_iff hok, htraded]
  show _ ∧ 0 < o.rem - _ ∧ _ ↔ _
  simp only [true_and, and_true]
  omega

theorem refusedIfShort_iff (h : BookRep e.book q) (hok : Ok e.book.resting)
    (hsums : ∀ s, qtySum (e.book.resting s) < 2 ^ 64) (hv : e.book.resting.validate o = .ok ())
    (ht : o.tif = .fok) (pr : Profile) :
    RefusedIfShort pr e o ↔
      (e.book.resting.admittedQty o < o.rem → e.book.resting.crossingQty o < o.rem) := by
  obtain ⟨evs, e'', hrun, htraded, hcan⟩ := submitOrder_ioc h hok hv ht pr
  rw [← refused_iff h hok hsums hv ht pr]
  constructor
  · rintro hshort ⟨e', href⟩
    obtain ⟨⟨evs', e₁, hrun', hcan', -⟩, -⟩ := hshort e' href
    rw [hrun] at hrun'
    obtain ⟨hevs, -⟩ := Prod.mk.inj (Except.ok.inj hrun')
    obtain rfl := Except.ok.inj hevs
    exact hcan.mp hcan'
  · intro hshort e' href
    have hlt := hshort ⟨e', href⟩
    refine ⟨⟨evs, e'', hrun, hcan.mpr hlt, by omega⟩, ?_⟩
    intro hm
    rwa [← crossingQty_market hm]

end Engine

/-- The scan turns away no order that could be filled, unless it is a market order with a price that
the other side would have to be met beyond. -/
theorem fok_refused_iff (calls : List Call) (h : NoAddOverflow S calls) :
    ∃ (rs : List Response) (e : Engine S), (∀ pr, Engine.new.run pr calls = .ok (rs, e)) ∧
      ((∀ s, qtySum (e.book.resting s) < 2 ^ 64) → ∀ pr o, e.validate o = .ok () → o.tif = .fok →
        (Engine.RefusedIfShort pr e o ↔
          o.orderType = .limit ∨ o.price = none ∨
            qtySum (e.book.resting (oppositeSide o.side)) < o.rem ∨
            o.rem ≤ e.book.resting.admittedQty o)) := by
  obtain ⟨e, q, hrun, hrep, -, hok⟩ := reach h
  refine ⟨_, e, hrun, ?_⟩
  intro hsums pr o hv ht
  rw [Engine.validate_eq hrep o] at hv
  rw [Engine.refusedIfShort_iff hrep hok hsums hv ht pr]
  have hp := (validate_ok hv).2.1
  by_cases hagree : o.orderType = .limit ∨ o.price = none
  · rw [admittedQty_eq_crossingQty hp hagree, ← or_assoc]
    simp [hagree]
  · rw [not_or] at hagree
    have hm : o.orderType = .market := by
      cases ho : o.orderType with
      | limit => exact absurd ho hagree.1
      | market => rfl
    rw [crossingQty_market hm]
    simp only [hagree.1, hagree.2, false_or]
    omega

/-- A market order for five, with a price field below the asks. -/
def marketFok : Order := makeOrder 3 .buy 99 5 3 .market .fok

theorem reach_twoAsks :
    ∃ (rs : List Response) (e : Engine (FreeListSlab OrderNode)),
      (∀ pr, Engine.new.run pr twoAsks = .ok (rs, e)) ∧ (∀ s, qtySum (e.book.resting s) < 2 ^ 64) ∧
      e.validate marketFok = .ok () := by
  obtain ⟨e, q, hrun, -⟩ := reach twoAsks_noAddOverflow
  have hstate : Except.map (fun x => (qtySum (x.2.book.resting .buy), qtySum (x.2.book.resting .sell),
      x.2.validate marketFok)) ((Engine.new : Engine (FreeListSlab OrderNode)).run .debug twoAsks) =
        .ok (0, 15, .ok ()) := by
    decide +kernel
  rw [hrun] at hstate
  obtain ⟨hb, ha, hv⟩ : _ ∧ _ ∧ _ := by simpa [Except.map] using hstate
  refine ⟨_, e, hrun, fun s => ?_, hv⟩
  cases s <;> omega

theorem fok_refused_iff_twoAsks :
    ∃ (rs : List Response) (e : Engine (FreeListSlab OrderNode)),
      (∀ pr, Engine.new.run pr twoAsks = .ok (rs, e)) ∧ ∀ pr,
        (Engine.RefusedIfShort pr e marketFok ↔
          marketFok.orderType = .limit ∨ marketFok.price = none ∨
            qtySum (e.book.resting .sell) < 5 ∨ 5 ≤ e.book.resting.admittedQty marketFok) := by
  obtain ⟨rs, e, hrun, hsums, hv⟩ := reach_twoAsks
  obtain ⟨rs', e', hrun', hall⟩ := fok_refused_iff twoAsks twoAsks_noAddOverflow
  obtain ⟨-, rfl⟩ := Prod.mk.inj (Except.ok.inj ((hrun .debug).symm.trans (hrun' .debug)))
  exact ⟨rs, e, hrun, fun pr => hall hsums pr marketFok hv rfl⟩

/-- It is turned away, though five of the ten at 100 would fill it. -/
theorem marketFok_refused :
    ∃ (rs : List Response) (e : Engine (FreeListSlab OrderNode)),
      (∀ pr, Engine.new.run pr twoAsks = .ok (rs, e)) ∧ (∀ s, qtySum (e.book.resting s) < 2 ^ 64) ∧
      e.validate marketFok = .ok () ∧ ∀ pr,
        (∃ e', e.submitOrder pr marketFok = .ok (.error .fokNotFillable, e')) ∧
        (∃ e', e.submitOrder pr { marketFok with tif := .ioc } =
          .ok (.ok [.accepted ⟨3⟩, .trade ⟨⟨1⟩, ⟨3⟩, ⟨100⟩, ⟨5⟩, ⟨3⟩⟩], e')) ∧
        ¬ Engine.RefusedIfShort pr e marketFok := by
  obtain ⟨rs, e, hrun, hsums, hv⟩ := reach_twoAsks
  refine ⟨rs, e, hrun, hsums, hv, fun pr => ?_⟩
  have hanswers : ((Engine.new : Engine (FreeListSlab OrderNode)).run pr twoAsks >>= fun x =>
      x.2.submitOrder pr marketFok >>= fun y =>
        x.2.submitOrder pr { marketFok with tif := .ioc } >>= fun z => .ok (y.1, z.1)) =
      .ok (.error .fokNotFillable, .ok [.accepted ⟨3⟩, .trade ⟨⟨1⟩, ⟨3⟩, ⟨100⟩, ⟨5⟩, ⟨3⟩⟩]) := by
    cases pr <;> decide +kernel
  rw [hrun, Checked.ok_bind] at hanswers
  obtain ⟨⟨y, e₁⟩, hfok, hanswers⟩ := Checked.bind_eq_ok.mp hanswers
  obtain ⟨⟨z, e₂⟩, hioc, hanswers⟩ := Checked.bind_eq_ok.mp hanswers
  obtain ⟨rfl, rfl⟩ := Prod.mk.inj (Except.ok.inj hanswers)
  refine ⟨⟨e₁, hfok⟩, ⟨e₂, hioc⟩, fun hshort => ?_⟩
  obtain ⟨⟨evs, e₃, hioc', hcan, -⟩, -⟩ := hshort e₁ hfok
  rw [hioc] at hioc'
  obtain rfl := Except.ok.inj (Prod.mk.inj (Except.ok.inj hioc')).1
  simp at hcan

end Ordust
