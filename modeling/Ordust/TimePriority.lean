import Ordust.Priority

/-!
# Time priority by timestamp

The queue of a price is in order of arrival. It is in order of the timestamps too as long as no
order comes to rest that is older than one that rests at its price, and only then.
-/

namespace Ordust

open RefBook

/-- The timestamp of `a` is the smaller one. -/
def Order.Older (a b : Order) : Prop := a.timestamp.val < b.timestamp.val

instance (a b : Order) : Decidable (a.Older b) := inferInstanceAs (Decidable (_ < _))

namespace RefBook

/-! ## Books in order of the timestamps -/

/-- At one price no order is behind one that it is older than. -/
def InTime (r : RefBook) : Prop :=
  ∀ s, (r s).Pairwise (fun x y => x.px = y.px → ¬ y.Older x)

/-- If the order comes to rest, it is not older than one that rests at its price. -/
def RestsInTime (r : RefBook) : Call → Prop
  | .submit o => r.validate o = .ok () → o.tif = .gtc → r.crossingQty o < o.rem →
      ∀ x ∈ r o.side, x.px = o.px → ¬ o.Older x
  | .cancel _ => True

instance (r : RefBook) : Decidable (InTime r) :=
  decidable_of_iff
    ((r .buy).Pairwise (fun x y => x.px = y.px → ¬ y.Older x) ∧
      (r .sell).Pairwise (fun x y => x.px = y.px → ¬ y.Older x))
    ⟨fun h s => s.rec h.1 h.2, fun h => ⟨h .buy, h .sell⟩⟩

variable {r : RefBook} {o : Order}

theorem InTime.after (h : InTime r) (evs : List BookEvent) : InTime (r.after evs) := by
  intro s
  apply pairwise_after evs (h s)
  intro x _ y _ hxy n n'
  exact hxy

theorem inTime_rest_iff (hok : Ok r) :
    InTime (r.rest o) ↔ InTime r ∧ ∀ x ∈ r o.side, x.px = o.px → ¬ o.Older x := by
  have hside : r.rest o o.side = insertOrder o (r o.side) := Function.update_self _ _ _
  have hother : ∀ s, s ≠ o.side → r.rest o s = r s := fun s hs => Function.update_of_ne hs _ _
  have hown := (hok.sorted o.side).pairwise_insertOrder_iff (R := fun x y => ¬ y.Older x)
  constructor
  · intro h
    obtain ⟨hsame, hnew⟩ := hown.mp (hside ▸ h o.side)
    refine ⟨?_, hnew⟩
    intro s
    by_cases hs : s = o.side
    · rw [hs]
      exact hsame
    · rw [← hother s hs]
      exact h s
  · rintro ⟨h, hnew⟩ s
    by_cases hs : s = o.side
    · rw [hs, hside]
      exact hown.mpr ⟨h o.side, hnew⟩
    · rw [hother s hs]
      exact h s

theorem Matched.after_own_side {ts : List Trade} {n : UInt64} (h : Matched r o ts n) (hok : Ok r) :
    r.after (ts.map .trade) o.side = r o.side := by
  rw [← h.trades, ← after_matchOrders hok o, Function.update_of_ne (oppositeSide_ne o.side).symm]

theorem Matched.rest_toNat {ts : List Trade} {n : UInt64} (h : Matched r o ts n) (hok : Ok r) :
    n.toNat = o.rem - r.crossingQty o := by
  have hrem := matchOrders_rem o _ (hok.sorted (oppositeSide o.side))
  rw [h.rest] at hrem
  exact hrem

theorem Effect.inTime_iff {r' : RefBook} {c : Call} {evs : List BookEvent} (he : Effect r c evs r')
    (hok : Ok r) (h : InTime r) : InTime r' ↔ RestsInTime r c := by
  cases he with
  | cancelled hid => exact iff_of_true (h.after _) trivial
  | @filled o ts hm =>
    refine iff_of_true (h.after _) ?_
    intro _ _ hcross
    have hzero : 0 = o.rem - r.crossingQty o := hm.rest_toNat hok
    omega
  | dropped hm hn ht =>
    refine iff_of_true (h.after _) ?_
    intro _ hgtc
    rw [ht] at hgtc
    simp at hgtc
  | @rested o ts n hm hn ht hc =>
    have hside : (o.withRemaining n).side = o.side := rfl
    rw [inTime_rest_iff (hok.after _), hside, hm.after_own_side hok]
    constructor
    · rintro ⟨-, hnew⟩ _ _ _ x hx hpx
      exact hnew x hx hpx
    · intro hrests
      have hrem := hm.rest_toNat hok
      refine ⟨h.after _, ?_⟩
      intro x hx hpx
      exact hrests hm.valid ht (by omega) x hx hpx

theorem inTime_call_iff (hok : Ok r) (h : InTime r) (c : Call) :
    InTime (r.call c).2 ↔ RestsInTime r c := by
  rcases call_effect hok c with ⟨err, hc⟩ | ⟨evs, -, he⟩
  · refine iff_of_true (by rwa [hc]) ?_
    cases c with
    | cancel id => trivial
    | submit o =>
      intro hv hgtc
      have hsettle : r.call (.submit o) = r.settle o := by
        rw [call, submit_eq, hv]
        simp [hgtc]
      rw [hsettle, settle] at hc
      simp at hc
  · exact he.inTime_iff hok h

/-- The book is in order after every part of a run if and only if each order that comes to rest
does so in time. -/
theorem inTime_run_iff (calls : List Call) :
    (∀ done, done <+: calls → InTime (new.run done).2) ↔
      ∀ done c, done ++ [c] <+: calls → RestsInTime (new.run done).2 c := by
  have hlast : ∀ done c, (new.run (done ++ [c])).2 = ((new.run done).2.call c).2 := by
    intro done c
    rw [run_append]
    rfl
  constructor
  · intro h done c hdone
    have hbefore := h done ((List.prefix_append _ _).trans hdone)
    have hafter := h _ hdone
    rw [hlast] at hafter
    exact (inTime_call_iff (Ok.new.run done) hbefore c).mp hafter
  · intro h done hdone
    induction done using List.reverseRecOn with
    | nil => exact fun s => List.Pairwise.nil
    | append_singleton done c ih =>
      have hbefore := ih ((List.prefix_append _ _).trans hdone)
      rw [hlast]
      exact (inTime_call_iff (Ok.new.run done) hbefore c).mpr (h done c hdone)

/-! ## What shows that a book is out of order -/

theorem run_cancels {gone : List OrderId} (hnd : gone.Nodup) (hids : ∀ id ∈ gone, id ∈ r.ids) :
    r.run (gone.map .cancel) = (gone.map (fun id => .ok [.cancelled id]),
      fun s => (r s).filter (fun o => o.id ∉ gone)) ∧ r.FitsRun (gone.map .cancel) := by
  induction gone generalizing r with
  | nil =>
    refine ⟨?_, trivial⟩
    simp [run]
  | cons id gone ih =>
    obtain ⟨hid, hnd⟩ := List.nodup_cons.mp hnd
    have hcall : r.call (.cancel id) =
        (.ok [.cancelled id], fun s => (r s).filter (fun o => o.id ≠ id)) :=
      if_pos (hids id List.mem_cons_self)
    have hleft : ∀ id' ∈ gone, id' ∈ (r.call (.cancel id)).2.ids := by
      intro id' hid'
      obtain ⟨s, o, ho, rfl⟩ := (mem_ids r id').mp (hids id' (List.mem_cons_of_mem _ hid'))
      have hne : o.id ≠ id := fun hc => hid (hc ▸ hid')
      rw [hcall, mem_ids]
      exact ⟨s, o, List.mem_filter.mpr ⟨ho, decide_eq_true hne⟩, rfl⟩
    obtain ⟨hrun, hfits⟩ := ih hnd hleft
    refine ⟨?_, trivial, hfits⟩
    rw [List.map_cons, run, Runs.run_cons, ← run, hrun, hcall]
    simp [List.filter_filter, Bool.and_comm]

theorem logOf_cancels (gone : List OrderId) :
    logOf (gone.map (fun id => .ok [.cancelled id])) = gone.map .cancelled := by
  induction gone with
  | nil => rfl
  | cons id gone ih =>
    rw [List.map_cons, logOf_cons, ih]
    rfl

/-- A market order for one piece. -/
def probe (s : Side) (id : OrderId) : Order :=
  { id := id, side := oppositeSide s, orderType := .market, tif := .ioc, price := none,
    qty := ⟨1⟩, remainingQty := ⟨1⟩, timestamp := ⟨0⟩ }

theorem exists_fresh (id id' : OrderId) : ∃ id'' : OrderId, id'' ≠ id ∧ id'' ≠ id' := by
  by_contra h
  have hall : ∀ i : OrderId, i = id ∨ i = id' := by
    intro i
    by_contra hi
    exact h ⟨i, not_or.mp hi⟩
  have h0 := hall ⟨0⟩
  have h1 := hall ⟨1⟩
  have h2 := hall ⟨2⟩
  grind

theorem probe_trades {s : Side} {id : OrderId} {b : Order} {behind : List Order} (hb : r s = b :: behind)
    (hid : id ∉ r.ids) : r.Fits (.submit (probe s id)) ∧ ∃ t evs,
      (r.call (.submit (probe s id))).1 = .ok (.accepted id :: .trade t :: evs) ∧
        t.makerOrderId = b.id := by
  have hv : r.validate (probe s id) = .ok () := by
    have hzero : ¬ (probe s id).rem = 0 := one_ne_zero
    have hid' : ¬ (probe s id).id ∈ r.ids := hid
    rw [validate, if_neg hzero, if_neg (by simp [probe]), if_neg (by simp [probe]), if_neg hid']
  have hcall : r.call (.submit (probe s id)) = r.settle (probe s id) := by
    rw [call, submit_eq, hv]
    simp [probe]
  refine ⟨fun _ => ⟨fun h => by simp [probe] at h, fun h => by simp [probe] at h⟩, ?_⟩
  have hmakers : r (oppositeSide (probe s id).side) = b :: behind := by
    rw [show (probe s id).side = oppositeSide s from rfl, oppositeSide_oppositeSide, hb]
  have hpos : 0 < (probe s id).rem := one_pos
  have hc : headCrosses (probe s id) (b :: behind) = true := rfl
  obtain ⟨t, ts, hts, ht⟩ : ∃ t ts, (matchOrders (probe s id) (b :: behind)).1 = t :: ts ∧
      t.makerOrderId = b.id := by
    rcases Nat.lt_or_ge (probe s id).rem b.rem with hlt | hle
    · rw [matchOrders_inside _ _ _ hpos hc hlt]
      exact ⟨_, _, rfl, rfl⟩
    · rw [matchOrders_exhaust _ _ _ hpos hc hle]
      exact ⟨_, _, rfl, rfl⟩
  rw [hcall, settle, hmakers, hts]
  exact ⟨t, _, rfl, ht⟩

theorem stillRests_of_not_mem {x : Order} {gone : List OrderId} (hpos : 0 < x.rem) (hx : x.id ∉ gone)
    (id : OrderId) : StillRests x (gone.map .cancelled ++ [.accepted id]) := by
  have hmade : madeBy x.id (gone.map .cancelled) = 0 := by
    rw [madeBy, List.map_map]
    exact List.sum_map_zero
  refine ⟨by simp [hx], ?_⟩
  rw [madeBy_append, hmade]
  exact hpos

/-- The identifiers that rest, but for those of two orders. -/
def others (r : RefBook) (a b : Order) : List OrderId :=
  r.ids.filter (fun id => id ≠ a.id ∧ id ≠ b.id)

theorem mem_others {a b : Order} {id : OrderId} :
    id ∈ r.others a b ↔ id ∈ r.ids ∧ id ≠ a.id ∧ id ≠ b.id := by
  simp [others]

/-- The book with all others cancelled. -/
def pair (r : RefBook) (a b : Order) : RefBook :=
  fun s => (r s).filter (fun o => o.id ∉ r.others a b)

theorem of_mem_pair {a b x : Order} {s : Side} (hx : x ∈ r.pair a b s) :
    x ∈ r s ∧ (x.id = a.id ∨ x.id = b.id) := by
  obtain ⟨hx, hno⟩ := List.mem_filter.mp hx
  rw [decide_eq_true_eq, mem_others, not_and, not_and_or, not_not, not_not] at hno
  exact ⟨hx, hno ((mem_ids r x.id).mpr ⟨s, x, hx, rfl⟩)⟩

theorem pair_first {a b : Order} {s : Side} (hok : Ok r) (h : Ahead r s b a) :
    ∃ behind, r.pair a b s = b :: behind := by
  have hsub : [b, a].Sublist (r.pair a b s) := by
    have hfilter := List.Sublist.filter (fun o => o.id ∉ r.others a b) h
    rwa [List.filter_eq_self.mpr (by simp [mem_others])] at hfilter
  have hnd : ((r.pair a b s).map Order.id).Nodup :=
    (hok.nodup_side s).sublist (List.filter_sublist.map Order.id)
  cases hl : r.pair a b s with
  | nil =>
    rw [hl] at hsub
    exact absurd hsub.length_le (by simp)
  | cons x behind =>
    rw [hl] at hsub hnd
    obtain ⟨hx, hid | hid⟩ := of_mem_pair (hl ▸ List.mem_cons_self : x ∈ r.pair a b s)
    · -- Were it the other one, nothing would be in front of that.
      obtain ⟨-, rfl⟩ := hok.eq_of_id hx h.snd hid
      have hfront : b ∈ ([] : List Order) := mem_of_ahead hsub hnd
      exact absurd hfront List.not_mem_nil
    · obtain ⟨-, rfl⟩ := hok.eq_of_id hx h.fst hid
      exact ⟨behind, rfl⟩

/-- Of a book that is out of order, two orders can be left over and the younger one be hit. -/
theorem exists_unfair (hok : Ok r) (h : ¬ InTime r) :
    ∃ s, ∃ a ∈ r s, ∃ b ∈ r s, a.px = b.px ∧ a.Older b ∧ ∃ calls evs t evs', r.FitsRun calls ∧
      logOf (r.run calls).1 = evs ++ .trade t :: evs' ∧ StillRests a evs ∧ StillRests b evs ∧
        t.makerOrderId = b.id := by
  obtain ⟨s, hs⟩ := not_forall.mp h
  rw [List.pairwise_iff_forall_sublist] at hs
  simp only [not_forall, not_not] at hs
  obtain ⟨b, a, hsub, hpx, holder⟩ := hs
  have hahead : Ahead r s b a := hsub
  refine ⟨s, a, hahead.snd, b, hahead.fst, hpx.symm, holder, ?_⟩
  have hnd : (r.others a b).Nodup := hok.nodup.filter _
  obtain ⟨hcancels, hfits⟩ := run_cancels hnd (fun id hid => (mem_others.mp hid).1)
  change r.run _ = (_, r.pair a b) at hcancels
  obtain ⟨behind, hfirst⟩ := pair_first hok hahead
  obtain ⟨id, hida, hidb⟩ := exists_fresh a.id b.id
  have hid : id ∉ (r.pair a b).ids := by
    intro hc
    obtain ⟨s', o, ho, rfl⟩ := (mem_ids _ id).mp hc
    exact (of_mem_pair ho).2.elim hida hidb
  obtain ⟨hfit, t, evs', hprobe, ht⟩ := probe_trades hfirst hid
  have ha : a.id ∉ r.others a b := fun hc => (mem_others.mp hc).2.1 rfl
  have hb : b.id ∉ r.others a b := fun hc => (mem_others.mp hc).2.2 rfl
  refine ⟨(r.others a b).map .cancel ++ [.submit (probe s id)],
    (r.others a b).map .cancelled ++ [.accepted id], t, evs', ?_, ?_,
    stillRests_of_not_mem (hok.rests s a hahead.snd).pos ha id,
    stillRests_of_not_mem (hok.rests s b hahead.fst).pos hb id, ht⟩
  · rw [fitsRun_append, hcancels]
    exact ⟨hfits, hfit, trivial⟩
  · have hlast : ((r.pair a b).run [.submit (probe s id)]).1 =
        [((r.pair a b).call (.submit (probe s id))).1] := rfl
    rw [run_append, hcancels, hlast, logOf_snoc, logOf_cancels, hprobe, List.append_assoc]
    rfl

end RefBook

/-! ## The engine -/

variable {S : Type} [Slab S OrderNode] {calls : List Call}

/-- Whatever comes after these calls, no order that is now on the book makes a trade while an older
one of its side and price rests. -/
def Fair (S : Type) [Slab S OrderNode] (before : List Call) : Prop :=
  ∀ after, NoAddOverflow S (before ++ after) → ∃ (rs later : List Response) (e e' : Engine S),
    (∀ pr, Engine.new.run pr before = .ok (rs, e)) ∧ (∀ pr, e.run pr after = .ok (later, e')) ∧
    ∀ s, ∀ a ∈ e.book.resting s, ∀ b ∈ e.book.resting s, a.px = b.px → a.Older b →
      ∀ evs t evs', logOf later = evs ++ .trade t :: evs' → StillRests a evs → StillRests b evs →
        t.makerOrderId ≠ b.id

/-- No call of the run brings an order to rest that is older than one at its price. -/
def AllRestInTime (S : Type) [Slab S OrderNode] (calls : List Call) : Prop :=
  ∀ done c, done ++ [c] <+: calls → ∀ pr rs (e : Engine S), Engine.new.run pr done = .ok (rs, e) →
    e.book.resting.RestsInTime c

theorem fair_of_inTime {before : List Call} (h : InTime (RefBook.new.run before).2) :
    Fair S before := by
  intro after hno
  obtain ⟨e, e', q, hrun, hafter, -, hres, hok⟩ := reach_between hno
  refine ⟨_, _, e, e', hrun, hafter, ?_⟩
  intro s a ha b hb hpx holder evs t evs' hlog hra hrb
  have hne : a ≠ b := by
    rintro rfl
    exact UInt64.lt_irrefl _ holder
  rcases pair_sublist ha hb hne with hab | hba
  · have hahead : Ahead e.book.resting s a b := hab
    exact hahead.waits hok after hlog hra hrb
  · rw [← hres] at h
    have hnot := List.rel_of_pairwise_cons ((h s).sublist hba) (List.mem_singleton_self a)
    exact absurd holder (hnot hpx.symm)

theorem Fair.inTime {before : List Call} (hno : NoAddOverflow S before) (h : Fair S before) :
    InTime (RefBook.new.run before).2 := by
  by_contra hout
  obtain ⟨s, a, ha, b, hb, hpx, holder, calls, evs, t, evs', hfits, hlog, hra, hrb, ht⟩ :=
    exists_unfair (Ok.new.run before) hout
  have hno' : NoAddOverflow S (before ++ calls) := by
    rw [noAddOverflow_iff, fitsRun_append]
    exact ⟨(noAddOverflow_iff before).mp hno, hfits⟩
  obtain ⟨rs, later, e, e', hrun, hafter, hfair⟩ := h calls hno'
  obtain ⟨e₀, e₀', q, hrun₀, hafter₀, -, hres, -⟩ := reach_between hno'
  have hrun' := (hrun .debug).symm.trans (hrun₀ .debug)
  obtain ⟨-, rfl⟩ := Prod.mk.inj (Except.ok.inj hrun')
  have hafter' := (hafter .debug).symm.trans (hafter₀ .debug)
  obtain ⟨rfl, -⟩ := Prod.mk.inj (Except.ok.inj hafter')
  rw [hres] at hfair
  exact hfair s a ha b hb hpx holder evs t evs' hlog hra hrb ht

theorem allRestInTime_iff (h : NoAddOverflow S calls) :
    AllRestInTime S calls ↔
      ∀ done c, done ++ [c] <+: calls → (RefBook.new.run done).2.RestsInTime c := by
  have hreach : ∀ done c, done ++ [c] <+: calls → ∃ e : Engine S,
      (∀ pr, Engine.new.run pr done = .ok ((RefBook.new.run done).1, e)) ∧
        e.book.resting = (RefBook.new.run done).2 := by
    rintro done c ⟨later, rfl⟩
    rw [List.append_assoc] at h
    obtain ⟨e, -, hrun, -, hres, -⟩ := reach h.of_append
    exact ⟨e, hrun, hres⟩
  constructor
  · intro hall done c hdone
    obtain ⟨e, hrun, hres⟩ := hreach done c hdone
    rw [← hres]
    exact hall done c hdone .debug _ e (hrun .debug)
  · intro hall done c hdone pr rs e hrun
    obtain ⟨e', hrun', hres⟩ := hreach done c hdone
    rw [hrun'] at hrun
    obtain ⟨-, rfl⟩ := Prod.mk.inj (Except.ok.inj hrun)
    rw [hres]
    exact hall done c hdone

/-- The older order is served first, from every moment of the run on and whatever comes then, if
and only if each order that came to rest in the run did so in time. -/
theorem timestamp_priority_iff (h : NoAddOverflow S calls) :
    (∀ before, before <+: calls → Fair S before) ↔ AllRestInTime S calls := by
  rw [allRestInTime_iff h, ← inTime_run_iff]
  refine forall₂_congr ?_
  rintro before ⟨later, rfl⟩
  exact ⟨fun hfair => hfair.inTime h.of_append, fair_of_inTime⟩

theorem timestamp_priority_cancelMiddleOrder :
    AllRestInTime (FreeListSlab OrderNode) cancelMiddleOrder ∧
      Fair (FreeListSlab OrderNode) (cancelMiddleOrder.take 3) := by
  have hrest : AllRestInTime (FreeListSlab OrderNode) cancelMiddleOrder := by
    rw [allRestInTime_iff cancelMiddleOrder_noAddOverflow, ← inTime_run_iff]
    intro done hdone
    have hmem : done ∈ cancelMiddleOrder.inits := (List.mem_inits _ _).mpr hdone
    have hall : ∀ done ∈ cancelMiddleOrder.inits, InTime (RefBook.new.run done).2 := by
      decide +kernel
    exact hall done hmem
  exact ⟨hrest, (timestamp_priority_iff cancelMiddleOrder_noAddOverflow).mpr hrest _
    (List.take_prefix 3 cancelMiddleOrder)⟩

/-- The second order is the older one, but the first one is filled. -/
def youngerFirst : List Call :=
  [.submit (makeOrder 1 .sell 100 5 9 .limit .gtc), .submit (makeOrder 2 .sell 100 5 4 .limit .gtc),
    .submit (makeOrder 3 .buy 100 5 10 .limit .ioc)]

theorem youngerFirst_unfair :
    ∃ (rs later : List Response) (e e' : Engine (FreeListSlab OrderNode)) (a b : Order) (t : Trade),
      (∀ pr, Engine.new.run pr (youngerFirst.take 2) = .ok (rs, e)) ∧
      (∀ pr, e.run pr (youngerFirst.drop 2) = .ok (later, e')) ∧
      e.book.resting .sell = [b, a] ∧ a.px = b.px ∧ a.Older b ∧
      logOf later = [.accepted ⟨3⟩, .trade t] ∧ StillRests a [.accepted ⟨3⟩, .trade t] ∧
      t.makerOrderId = b.id ∧ ¬ Fair (FreeListSlab OrderNode) (youngerFirst.take 2) := by
  have hno : NoAddOverflow (FreeListSlab OrderNode)
      (youngerFirst.take 2 ++ youngerFirst.drop 2) := NoAddOverflow.of_isOk (by decide +kernel)
  obtain ⟨e, e', q, hrun, hafter, -, hres, -⟩ := reach_between hno
  refine ⟨_, _, e, e', makeOrder 2 .sell 100 5 4 .limit .gtc, makeOrder 1 .sell 100 5 9 .limit .gtc,
    { makerOrderId := ⟨1⟩, takerOrderId := ⟨3⟩, price := ⟨100⟩, qty := ⟨5⟩, timestamp := ⟨10⟩ },
    hrun, hafter, ?_, rfl, by decide, ?_, ⟨by decide, by decide⟩, rfl, ?_⟩
  · rw [hres]
    decide +kernel
  · rw [hres]
    decide +kernel
  · intro hfair
    have hout : ¬ InTime (RefBook.new.run (youngerFirst.take 2)).2 := by decide +kernel
    exact hout (hfair.inTime hno.of_append)

end Ordust
