import Ordust.Log
import Ordust.Reach

/-!
# What a submission that succeeds has done

It did what the reference engine does, in either build and even where a sum wrapped: a sum that
wraps counts for less, so the fill-or-kill check passes no order that it should not.
-/

namespace Ordust

open RefBook

variable {S : Type} [Slab S OrderNode]

namespace Engine

/-! ## The answer of a submission -/

omit [Slab S OrderNode] in
theorem canFullyFillLoop_true {pr : Profile} {o : Order} {acc : UInt64}
    {levels : List (Price × Level)} (h : canFullyFillLoop pr o acc levels = .ok true) :
    o.rem ≤ acc.toNat + (((levels.map (fun e => (e.1, e.2.totalQty.toNat))).takeWhile
      (fun l => o.admits l.1)).map Prod.snd).sum := by
  induction levels generalizing acc with
  | nil => simp [canFullyFillLoop] at h
  | cons e levels ih =>
    obtain ⟨p, l⟩ := e
    rw [canFullyFillLoop_cons] at h
    split at h
    · simp at h
    · next hadm =>
      rw [Bool.not_eq_false] at hadm
      obtain ⟨acc', hadd, h⟩ := Checked.bind_eq_ok.mp h
      have hle := Profile.add_toNat_le hadd
      rw [List.map_cons, List.takeWhile_cons, if_pos hadm, List.map_cons, List.sum_cons]
      simp only [Qty.toNat]
      split at h
      · next hcov =>
        have : o.rem ≤ acc'.toNat := UInt64.le_iff_toNat_le.mp hcov
        omega
      · have := ih h
        simp only [Qty.toNat] at this
        omega

variable {e e' : Engine S} {q : Queues} {pr : Profile} {o : Order}

theorem canFullyFill_true (h : BookRep e.book q) (hrun : e.canFullyFill pr o = .ok true) :
    e.book.resting.canFullyFill o = true := by
  have hcov := canFullyFillLoop_true hrun
  rw [← h.perPrice_resting, UInt64.toNat_zero, Nat.zero_add] at hcov
  exact decide_eq_true hcov

theorem submitOrder_error {err : EngineError} (hrun : e.submitOrder pr o = .ok (.error err, e')) :
    e' = e := by
  rw [submitOrder_eq] at hrun
  cases hv : e.validate o with
  | error err' =>
    rw [hv] at hrun
    exact (Prod.mk.inj (Except.ok.inj hrun)).2.symm
  | ok u =>
    rw [hv] at hrun
    obtain ⟨fillable, -, hrun⟩ := Checked.bind_eq_ok.mp hrun
    split at hrun
    · exact (Prod.mk.inj (Except.ok.inj hrun)).2.symm
    · obtain ⟨x, -, hrun⟩ := Checked.bind_eq_ok.mp hrun
      obtain ⟨y, -, hrun⟩ := Checked.bind_eq_ok.mp hrun
      have := (Prod.mk.inj (Except.ok.inj hrun)).1
      simp at this

/-- A submission that succeeds answers and leaves the book as the reference engine does. Only a
remainder that comes to rest can put a total out of step. -/
theorem submitOrder_ok {evs : List BookEvent} (h : BookRep e.book q) (hok : Ok e.book.resting)
    (hrun : e.submitOrder pr o = .ok (.ok evs, e')) :
    e.book.resting.submit o = (.ok evs, e'.book.resting) ∧
      (o.tif ≠ .gtc → ∃ q', BookRep e'.book q') := by
  rw [submitOrder_eq, validate_eq h o] at hrun
  cases hv : e.book.resting.validate o with
  | error err =>
    rw [hv] at hrun
    simp at hrun
  | ok u =>
    rw [hv] at hrun
    obtain ⟨fillable, hfill, hrun⟩ := Checked.bind_eq_ok.mp hrun
    split at hrun
    · simp at hrun
    · next hyes =>
      rw [Bool.not_eq_false] at hyes
      have hcheck : ¬ (o.tif = .fok ∧ e.book.resting.canFullyFill o = false) := by
        rintro ⟨ht, hno⟩
        rw [if_pos ht, hyes] at hfill
        rw [canFullyFill_true h hfill] at hno
        simp at hno
      rw [RefBook.submit_eq, hv]
      simp only [if_neg hcheck]
      rcases settle_spec h hok o hv with ⟨-, e₁, q₁, hsettle, hrep, hres⟩ |
        ⟨⟨hg, -⟩, hover, e₁, hsettle, hres⟩
      · have hsettle := hsettle pr
        simp only [hrun] at hsettle
        obtain ⟨hr, rfl⟩ := Prod.mk.inj (Except.ok.inj hsettle)
        exact ⟨by rw [hr, hres], fun _ => ⟨q₁, hrep⟩⟩
      · refine ⟨?_, fun hne => absurd hg hne⟩
        cases pr with
        | debug =>
          rw [hover] at hrun
          simp at hrun
        | release =>
          simp only [hrun] at hsettle
          obtain ⟨hr, rfl⟩ := Prod.mk.inj (Except.ok.inj hsettle)
          rw [hr, hres]

theorem submitOrder_effect {evs : List BookEvent} (h : BookRep e.book q) (hok : Ok e.book.resting)
    (hrun : e.submitOrder pr o = .ok (.ok evs, e')) :
    Effect e.book.resting (.submit o) evs e'.book.resting := by
  obtain ⟨hsub, -⟩ := submitOrder_ok h hok hrun
  rcases call_effect hok (.submit o) with ⟨err, hc⟩ | ⟨evs', hevs, he⟩
  · rw [RefBook.call, hsub] at hc
    simp at hc
  · rw [RefBook.call, hsub] at hevs he
    obtain rfl := Except.ok.inj hevs
    exact he

end Engine

/-! ## How much it trades -/

namespace RefBook

variable {r r' : RefBook} {o : Order} {evs : List BookEvent}

theorem Matched.left {ts : List Trade} {n : UInt64} (h : Matched r o ts n) (hok : Ok r) :
    n.toNat = o.rem - r.crossingQty o := by
  have hrem := matchOrders_rem o _ (hok.sorted (oppositeSide o.side))
  rwa [h.rest, Order.rem_withRemaining] at hrem

theorem Matched.traded {ts : List Trade} {n : UInt64} (h : Matched r o ts n) (hok : Ok r) :
    tradeSum ts = min o.rem (r.crossingQty o) := by
  have htotal := h.total
  have hleft := h.left hok
  omega

theorem Effect.tradedQty_eq (h : Effect r (.submit o) evs r') (hok : Ok r) :
    tradedQty evs = min o.rem (r.crossingQty o) := by
  cases h with
  | filled hm => simp [BookEvent.traded, hm.traded hok]
  | rested hm => simp [BookEvent.traded, hm.traded hok]
  | dropped hm => simp [BookEvent.traded, hm.traded hok]

theorem Effect.resting_iff (h : Effect r (.submit o) evs r') (hok : Ok r) (id : OrderId) (p : Price)
    (n : Qty) : .restingOnBook id p n ∈ evs ↔ o.tif = .gtc ∧ 0 < o.rem - tradedQty evs ∧
      id = o.id ∧ o.price = some p ∧ n.toNat = o.rem - tradedQty evs := by
  have htraded := h.tradedQty_eq hok
  cases h with
  | @filled _ ts hm =>
    have hleft := hm.left hok
    rw [UInt64.toNat_zero] at hleft
    simp only [List.mem_cons, reduceCtorEq, List.mem_map, and_false, exists_false, or_self, false_iff]
    rintro ⟨-, hpos, -⟩
    omega
  | @rested _ ts n' hm hn ht hc =>
    have hleft := hm.left hok
    have hrest : n'.toNat = o.rem - tradedQty
        (.accepted o.id :: ts.map .trade ++ [.restingOnBook o.id o.px ⟨n'⟩]) := by omega
    obtain ⟨-, hprice, hgtc, -⟩ := validate_ok hm.valid
    obtain ⟨p', hp'⟩ := Option.ne_none_iff_exists'.mp (hprice (hgtc ht))
    have hpx : o.px = p' := by simp [Order.px, hp']
    rw [← hrest]
    simp only [List.mem_append, List.mem_cons, reduceCtorEq, List.mem_map, and_false, exists_false,
      or_self, false_or, List.not_mem_nil, or_false, BookEvent.restingOnBook.injEq, ht, hn, true_and,
      hpx, hp', Option.some.injEq]
    constructor
    · rintro ⟨rfl, rfl, rfl⟩
      exact ⟨rfl, rfl, rfl⟩
    · rintro ⟨rfl, rfl, hn'⟩
      exact ⟨rfl, rfl, Qty.eq_of_toNat hn'⟩
  | dropped hm hn ht => simp [ht]

theorem Effect.cancelled_iff (h : Effect r (.submit o) evs r') (hok : Ok r) (id : OrderId) :
    .cancelled id ∈ evs ↔ o.tif = .ioc ∧ 0 < o.rem - tradedQty evs ∧ id = o.id := by
  have htraded := h.tradedQty_eq hok
  cases h with
  | @filled _ ts hm =>
    have hleft := hm.left hok
    rw [UInt64.toNat_zero] at hleft
    simp only [List.mem_cons, reduceCtorEq, List.mem_map, and_false, exists_false, or_self, false_iff]
    rintro ⟨-, hpos, -⟩
    omega
  | rested hm hn ht => simp [ht]
  | @dropped _ ts n' hm hn ht =>
    have hleft := hm.left hok
    have hrest : n'.toNat = o.rem - tradedQty
        (.accepted o.id :: ts.map .trade ++ [.cancelled o.id]) := by omega
    rw [← hrest]
    simp [ht, hn]

theorem Effect.not_mem_ids (h : Effect r (.submit o) evs r') (ht : o.tif ≠ .gtc) : o.id ∉ r'.ids := by
  cases h with
  | filled hm => exact fun hc => hm.fresh ((ids_after r _).subset hc)
  | rested hm hn hg => exact absurd hg ht
  | dropped hm => exact fun hc => hm.fresh ((ids_after r _).subset hc)

end RefBook

/-- A submission trades what the crossing orders can fill of it, to the last unit. The remainder of
a good till cancelled order rests and that of an immediate or cancel order is dropped. -/
theorem exact_fill (calls : List Call) (h : NoAddOverflow S calls) :
    ∃ (rs : List Response) (e : Engine S), (∀ pr, Engine.new.run pr calls = .ok (rs, e)) ∧
      ∀ pr o evs e', e.submitOrder pr o = .ok (.ok evs, e') →
        let left := o.rem - min o.rem (e.book.resting.crossingQty o)
        tradedQty evs = min o.rem (e.book.resting.crossingQty o) ∧
        (∀ id p n, .restingOnBook id p n ∈ evs ↔
          o.tif = .gtc ∧ 0 < left ∧ id = o.id ∧ o.price = some p ∧ n.toNat = left) ∧
        (∀ id, .cancelled id ∈ evs ↔ o.tif = .ioc ∧ 0 < left ∧ id = o.id) ∧
        (o.tif ≠ .gtc → o.id ∉ e'.book.resting.ids) := by
  obtain ⟨e, q, hrun, hrep, -, hok⟩ := reach h
  refine ⟨_, e, hrun, ?_⟩
  intro pr o evs e' hsub left
  have he := Engine.submitOrder_effect hrep hok hsub
  have htraded := he.tradedQty_eq hok
  have hrests := he.resting_iff hok
  have hcancels := he.cancelled_iff hok
  rw [htraded] at hrests hcancels
  exact ⟨htraded, hrests, hcancels, he.not_mem_ids⟩

/-- Offers at three prices. -/
def threeAsks : List Call :=
  [.submit (makeOrder 1 .sell 100 10 1 .limit .gtc), .submit (makeOrder 2 .sell 101 5 2 .limit .gtc),
   .submit (makeOrder 3 .sell 103 7 3 .limit .gtc)]

/-- It takes the first two and leaves something of the order. -/
def sweep : Order := makeOrder 4 .buy 101 20 4 .limit .ioc

def sweepEvents : List BookEvent :=
  [.accepted ⟨4⟩, .trade ⟨⟨1⟩, ⟨4⟩, ⟨100⟩, ⟨10⟩, ⟨4⟩⟩, .trade ⟨⟨2⟩, ⟨4⟩, ⟨101⟩, ⟨5⟩, ⟨4⟩⟩,
   .cancelled ⟨4⟩]

theorem exact_fill_sweep :
    ∃ (rs : List Response) (e e' : Engine (FreeListSlab OrderNode)),
      (∀ pr, Engine.new.run pr threeAsks = .ok (rs, e)) ∧
      e.submitOrder .debug sweep = .ok (.ok sweepEvents, e') ∧
      min sweep.rem (e.book.resting.crossingQty sweep) = 15 ∧ tradedQty sweepEvents = 15 ∧
      ⟨4⟩ ∉ e'.book.resting.ids := by
  obtain ⟨rs, e, hrun, hfill⟩ := exact_fill (S := FreeListSlab OrderNode) threeAsks
    (NoAddOverflow.of_isOk (by decide +kernel))
  obtain ⟨e', hsub⟩ := Engine.answer_of_run hrun (.submit sweep) (.ok sweepEvents) (by decide +kernel)
  obtain ⟨htraded, -, -, hgone⟩ := hfill .debug sweep sweepEvents e' hsub
  have hsum : tradedQty sweepEvents = 15 := by decide
  exact ⟨rs, e, e', hrun, hsub, htraded.symm.trans hsum, hsum, hgone (by decide)⟩

end Ordust
