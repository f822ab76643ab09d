import Ordust.Submission
import Ordust.MatchLoop

/-!
# Calls that fail

A call that fails changes nothing. A cancellation fails exactly for what the log does not show to
be resting, and otherwise takes one order out of its queue.
-/

namespace Ordust

open RefBook

/-! ## What the log shows to be resting -/

/-- An order came to rest under `id`, was not cancelled since, and its fills since leave `left`. -/
def LiveWith (log : List BookEvent) (id : OrderId) (left : Nat) : Prop :=
  ∃ before after p n, log = before ++ .restingOnBook id p n :: after ∧ .cancelled id ∉ after ∧
    left + madeBy id after = n.toNat

theorem live_iff (log : List BookEvent) (id : OrderId) :
    Live log id ↔ ∃ left, 0 < left ∧ LiveWith log id left := by
  constructor
  · rintro ⟨before, after, p, n, hlog, hc, hlt⟩
    exact ⟨n.toNat - madeBy id after, by omega, before, after, p, n, hlog, hc, by omega⟩
  · rintro ⟨left, hpos, before, after, p, n, hlog, hc, hsum⟩
    exact ⟨before, after, p, n, hlog, hc, by omega⟩

theorem RefBook.Effect.resting_last {r r' : RefBook} {c : Call} {w after : List BookEvent}
    {id : OrderId} {p : Price} {n : Qty}
    (h : Effect r c (w ++ .restingOnBook id p n :: after) r') :
    after = [] ∧ ∃ s, ∃ x ∈ r' s, x.id = id ∧ x.rem = n.toNat := by
  rcases h.shape with ⟨hno, -⟩ | ⟨o, ts, m, -, -, -, hevs, rfl⟩
  · exact absurd (by simp) (hno id p n)
  · rcases List.eq_nil_or_concat after with rfl | ⟨after, ev, rfl⟩
    · obtain ⟨-, hev⟩ := List.append_inj' hevs rfl
      obtain ⟨rfl, -, rfl⟩ := BookEvent.restingOnBook.inj (List.cons.inj hev).1
      exact ⟨rfl, o.side, o.withRemaining m, mem_rest.mpr (Or.inl ⟨rfl, rfl⟩), rfl, rfl⟩
    · rw [List.concat_eq_append, ← List.cons_append, ← List.append_assoc] at hevs
      obtain ⟨hinit, -⟩ := List.append_inj' hevs rfl
      exact absurd (by rw [← hinit]; simp) (noneRests_trades o.id ts id p n)

/-- The log shows what rests: which orders, and how much of each is left. -/
structure Tracked (log : List BookEvent) (r : RefBook) : Prop where
  sound : ∀ s, ∀ x ∈ r s, LiveWith log x.id x.rem
  complete : ∀ id left, 0 < left → LiveWith log id left → ∃ s, ∃ x ∈ r s, x.id = id ∧ x.rem = left

namespace Tracked

variable {log evs : List BookEvent} {r r' : RefBook} {c : Call}

theorem sound_effect (h : Tracked log r) (he : Effect r c evs r') {s : Side} {y : Order}
    (hy : y ∈ r' s) : LiveWith (log ++ evs) y.id y.rem := by
  rcases he.mem_cases hy with ⟨x, hx, hxy⟩ | ⟨o, ts, n, -, -, -, rfl, rfl⟩
  · obtain ⟨before, after, p, n, rfl, hc, hsum⟩ := h.sound s x hx
    obtain ⟨hrem, hc'⟩ := survive_some_rem hxy
    obtain ⟨n', rfl, -⟩ := survive_eq_some hxy
    refine ⟨before, after ++ evs, p, n, by simp, ?_, ?_⟩
    · rw [List.mem_append, not_or]
      exact ⟨hc, hc'⟩
    · rw [madeBy_append]
      simp only [Order.id_withRemaining]
      omega
  · refine ⟨log ++ .accepted o.id :: ts.map .trade, [], o.px, ⟨n⟩, by simp, by simp, ?_⟩
    rw [madeBy_nil]
    rfl

theorem complete_effect (h : Tracked log r) (he : Effect r c evs r') {id : OrderId} {left : Nat}
    (hpos : 0 < left) (hl : LiveWith (log ++ evs) id left) :
    ∃ s, ∃ x ∈ r' s, x.id = id ∧ x.rem = left := by
  obtain ⟨before, after, p, n, hlog, hc, hsum⟩ := hl
  rcases append_eq_append_cons hlog with ⟨w, rfl⟩ | ⟨w, rfl, rfl⟩
  · obtain ⟨rfl, s, x, hx, hid, hrem⟩ := he.resting_last
    rw [madeBy_nil, Nat.add_zero] at hsum
    exact ⟨s, x, hx, hid, hrem.trans hsum.symm⟩
  · rw [List.mem_append, not_or] at hc
    rw [madeBy_append] at hsum
    obtain ⟨s, x, hx, rfl, hrem⟩ := h.complete id (left + madeBy id evs) (by omega)
      ⟨before, w, p, n, rfl, hc.1, by omega⟩
    cases hs : survive evs x with
    | none =>
      rcases survive_none hs with hcan | hge
      · exact absurd hcan hc.2
      · omega
    | some y =>
      obtain ⟨hyrem, -⟩ := survive_some_rem hs
      have hy := he.mem_of_survive hx hs
      obtain ⟨n', rfl, -⟩ := survive_eq_some hs
      exact ⟨s, _, hy, rfl, by omega⟩

end Tracked

theorem run_tracked (calls : List Call) :
    Tracked (logOf (RefBook.new.run calls).1) (RefBook.new.run calls).2 := by
  have hstep : ∀ (rs : List Response) (r : RefBook) (c : Call), Ok r ∧ Tracked (logOf rs) r →
      Ok (r.call c).2 ∧ Tracked (logOf (rs ++ [(r.call c).1])) (r.call c).2 := by
    rintro rs r c ⟨hok, ht⟩
    refine ⟨hok.call c, ?_⟩
    rw [logOf_snoc]
    rcases call_effect hok c with ⟨err, hc⟩ | ⟨evs, hevs, he⟩
    · rw [hc]
      simpa [eventsOf] using ht
    · rw [hevs]
      exact ⟨fun s y hy => ht.sound_effect he hy, fun id left hpos hl => ht.complete_effect he hpos hl⟩
  have hnew : Tracked (logOf []) RefBook.new := by
    refine ⟨by simp [RefBook.new], ?_⟩
    rintro id left hpos ⟨before, after, p, n, hlog, -⟩
    simp [logOf] at hlog
  exact (Runs.run_history (fun rs r => Ok r ∧ Tracked (logOf rs) r) hstep [] RefBook.new calls
    ⟨Ok.new, hnew⟩).2

theorem Tracked.live_iff_mem {log : List BookEvent} {r : RefBook} (h : Tracked log r) (hok : Ok r)
    (id : OrderId) : Live log id ↔ id ∈ r.ids := by
  rw [live_iff, mem_ids]
  constructor
  · rintro ⟨left, hpos, hl⟩
    obtain ⟨s, x, hx, hid, -⟩ := h.complete id left hpos hl
    exact ⟨s, x, hx, hid⟩
  · rintro ⟨s, x, hx, rfl⟩
    exact ⟨x.rem, (hok.rests s x hx).pos, h.sound s x hx⟩

/-! ## A cancellation -/

variable {S : Type} [Slab S OrderNode]

/-- The queue of the level at a price, empty where there is no level. -/
def OrderBook.queueAt (b : OrderBook S) (s : Side) (p : Price) : List Order :=
  ((b.level s p).map (fun l => l.queue b.arena)).getD []

/-- `b'` is `b` without the order `o`. -/
structure OrderBook.Without (b b' : OrderBook S) (o : Order) : Prop where
  side : ∃ before after, b.resting o.side = before ++ o :: after ∧ b'.resting o.side = before ++ after
  opposite : b'.resting (oppositeSide o.side) = b.resting (oppositeSide o.side)
  queues : ∀ s p, b'.queueAt s p = (b.queueAt s p).filter (fun x => x.id ≠ o.id)
  others : ∀ id, id ≠ o.id → b'.getOrder id = b.getOrder id
  gone : b'.Gone o.id

namespace BookRep

variable {b b' : OrderBook S} {q q' : Queues}

theorem queueAt_eq (h : BookRep b q) (s : Side) (p : Price) :
    b.queueAt s p = (b.resting s).filter (fun x => x.px = p) := by
  rw [h.filter_px, OrderBook.queueAt, h.level, levelOf]
  split
  · next hq => rw [hq]; rfl
  · exact queue_of b.arena p _ _ (h.stored s p)

theorem getOrder_of_mem (h : BookRep b q) (hok : Ok b.resting) {s : Side} {x : Order}
    (hx : x ∈ b.resting s) : b.getOrder x.id = some x := by
  rcases h.getOrder_eq x.id with ⟨hid, -⟩ | ⟨-, s', y, hget, hid, hy⟩
  · exact absurd ((mem_ids _ _).mpr ⟨s, x, hx, rfl⟩) hid
  · rw [hget, (hok.eq_of_id hx hy hid.symm).2]

theorem without (h : BookRep b q) (h' : BookRep b' q') (hok : Ok b.resting) (hok' : Ok b'.resting)
    {s : Side} {o : Order} (ho : o ∈ b.resting s)
    (hres : b'.resting = fun s => (b.resting s).filter (fun x => x.id ≠ o.id)) : b.Without b' o := by
  obtain rfl : o.side = s := (hok.rests s o ho).side
  have hmem : ∀ s x, x ∈ b'.resting s ↔ x ∈ b.resting s ∧ x.id ≠ o.id := by
    intro s x
    rw [hres, List.mem_filter, decide_eq_true_eq]
  constructor
  · obtain ⟨before, after, hsplit⟩ := List.append_of_mem ho
    refine ⟨before, after, hsplit, ?_⟩
    rw [hres]
    show (b.resting o.side).filter _ = _
    rw [hsplit]
    exact filter_id_ne before after o (hsplit ▸ hok.nodup_side o.side)
  · rw [hres]
    apply List.filter_eq_self.mpr
    intro x hx
    exact decide_eq_true (hok.not_mem_ids ho hx).symm
  · intro s p
    rw [h'.queueAt_eq, h.queueAt_eq, hres, List.filter_comm]
  · intro id hid
    rcases h.getOrder_eq id with ⟨hno, hget⟩ | ⟨-, s', y, hget, rfl, hy⟩
    · rw [hget]
      apply h'.getOrder_of_not_mem
      rw [mem_ids] at hno ⊢
      rintro ⟨s', x, hx, hxid⟩
      exact hno ⟨s', x, ((hmem s' x).mp hx).1, hxid⟩
    · rw [hget]
      exact h'.getOrder_of_mem hok' ((hmem s' y).mpr ⟨hy, hid⟩)
  · apply h'.gone
    rw [mem_ids]
    rintro ⟨s', x, hx, hxid⟩
    exact ((hmem s' x).mp hx).2 hxid

end BookRep

namespace Engine

variable {e e' : Engine S} {q : Queues}

theorem cancelOrder_of_not_mem (h : BookRep e.book q) (hok : Ok e.book.resting) {id : OrderId}
    (hid : id ∉ e.book.resting.ids) : e.cancelOrder id = .ok (.error (.orderNotFound id), e) := by
  rcases h.removeOrder_spec hok.nodup id with ⟨-, hrun⟩ | ⟨hmem, -⟩
  · simp [cancelOrder, hrun]
  · exact absurd hmem hid

theorem cancelOrder_without (h : BookRep e.book q) (hok : Ok e.book.resting) {id : OrderId}
    (hid : id ∈ e.book.resting.ids) : ∃ o e', o.id = id ∧
      e.cancelOrder id = .ok (.ok [.cancelled id], e') ∧ e.book.Without e'.book o := by
  rcases h.removeOrder_spec hok.nodup id with ⟨hno, -⟩ | ⟨-, o, b', q', hrun, rfl, hrep, hres⟩
  · exact absurd hid hno
  · obtain ⟨s, x, hx, hxid⟩ := (mem_ids _ _).mp hid
    have hok' : Ok b'.resting := by
      have := hok.call (.cancel o.id)
      rwa [RefBook.call, RefBook.cancel, if_pos hid, ← hres] at this
    refine ⟨x, { e with book := b' }, hxid, by simp [cancelOrder, hrun], ?_⟩
    exact h.without hrep hok hok' hx (hxid ▸ hres)

theorem call_error (h : BookRep e.book q) (hok : Ok e.book.resting) {pr : Profile} {c : Call}
    {err : EngineError} (hrun : e.call pr c = .ok (.error err, e')) : e' = e := by
  cases c with
  | submit o => exact submitOrder_error hrun
  | cancel id =>
    rw [call] at hrun
    by_cases hid : id ∈ e.book.resting.ids
    · obtain ⟨o, e₁, -, hcan, -⟩ := cancelOrder_without h hok hid
      simp [hcan] at hrun
    · rw [cancelOrder_of_not_mem h hok hid] at hrun
      exact (Prod.mk.inj (Except.ok.inj hrun)).2.symm

end Engine

/-- A call that fails changes nothing. A cancellation fails for an identifier under which the log
shows no live order, and takes the live order out of its queue otherwise. -/
theorem failure_changes_nothing (calls : List Call) (h : NoAddOverflow S calls) :
    ∃ (rs : List Response) (e : Engine S), (∀ pr, Engine.new.run pr calls = .ok (rs, e)) ∧
      (∀ pr c err e', e.call pr c = .ok (.error err, e') → e' = e) ∧
      (∀ id, (∃ e', e.cancelOrder id = .ok (.error (.orderNotFound id), e')) ↔ ¬ Live (logOf rs) id) ∧
      ∀ id, Live (logOf rs) id → ∃ o e', o.id = id ∧
        e.cancelOrder id = .ok (.ok [.cancelled id], e') ∧ e.book.Without e'.book o := by
  obtain ⟨e, q, hrun, hrep, hres, hok⟩ := reach h
  have hlive : ∀ id, Live (logOf (RefBook.new.run calls).1) id ↔ id ∈ e.book.resting.ids :=
    (hres ▸ run_tracked calls).live_iff_mem hok
  refine ⟨_, e, hrun, fun pr c err e' => Engine.call_error hrep hok, ?_, ?_⟩
  · intro id
    rw [hlive]
    constructor
    · rintro ⟨e', hcan⟩ hid
      obtain ⟨o, e₁, -, hcan', -⟩ := Engine.cancelOrder_without hrep hok hid
      simp [hcan'] at hcan
    · intro hid
      exact ⟨e, Engine.cancelOrder_of_not_mem hrep hok hid⟩
  · intro id hid
    exact Engine.cancelOrder_without hrep hok ((hlive id).mp hid)

/-- An order that never was, and the one that is left. -/
theorem failure_changes_nothing_cancelMiddleOrder :
    ∃ (rs : List Response) (e : Engine (FreeListSlab OrderNode)),
      (∀ pr, Engine.new.run pr cancelMiddleOrder = .ok (rs, e)) ∧
      e.cancelOrder ⟨9⟩ = .ok (.error (.orderNotFound ⟨9⟩), e) ∧ ¬ Live (logOf rs) ⟨9⟩ ∧
      Live (logOf rs) ⟨3⟩ ∧ ∃ o e', o.id = ⟨3⟩ ∧
        e.cancelOrder ⟨3⟩ = .ok (.ok [.cancelled ⟨3⟩], e') ∧ e.book.Without e'.book o := by
  obtain ⟨rs, e, hrun, hsame, hnotFound, hcancel⟩ :=
    failure_changes_nothing (S := FreeListSlab OrderNode) cancelMiddleOrder
      cancelMiddleOrder_noAddOverflow
  obtain ⟨e₁, hunknown⟩ := Engine.answer_of_run hrun (.cancel ⟨9⟩) (.error (.orderNotFound ⟨9⟩))
    (by decide +kernel)
  obtain rfl := hsame .debug _ _ e₁ hunknown
  obtain ⟨e₂, hknown⟩ := Engine.answer_of_run hrun (.cancel ⟨3⟩) (.ok [.cancelled ⟨3⟩])
    (by decide +kernel)
  have hlive : Live (logOf rs) ⟨3⟩ := by
    by_contra hno
    obtain ⟨e₃, hcan⟩ := (hnotFound ⟨3⟩).mpr hno
    rw [show e₁.cancelOrder ⟨3⟩ = _ from hknown] at hcan
    simp at hcan
  exact ⟨rs, e₁, hrun, hunknown, (hnotFound ⟨9⟩).mp ⟨e₁, hunknown⟩, hlive, hcancel ⟨3⟩ hlive⟩

end Ordust
