import Ordust.Observe
import Ordust.Replay

/-!
# When the sums of quantities overflow

The code bounds no sum of accepted quantities. As long as each call leaves room for its
additions, the totals of the levels are exact and no resting order is lost.
-/

namespace Ordust

open RefBook

/-- Each call of the run leaves room for its additions, on the book before it. -/
def StepsFit (S : Type) [Slab S OrderNode] (calls : List Call) : Prop :=
  ∀ done c, done ++ [c] <+: calls → ∀ rs e,
    (Engine.new : Engine S).run .release done = .ok (rs, e) → e.book.resting.Fits c

variable {S : Type} [Slab S OrderNode]

/-- After the responses `rs`, every sum that the engine uses is exact and it has lost no order. -/
structure Engine.SumsExact (e : Engine S) (rs : List Response) : Prop where
  total : ∀ s p l, (p, l) ∈ e.book.iterSide s →
    l.totalQty.toNat = qtySum (l.queue e.book.arena)
  depth : ∀ s n, (e.book.depth s n).map (fun l => (l.1, l.2.toNat)) =
    (perPrice (e.book.resting s)).take n
  check : ∀ o, e.validate o = .ok () → o.tif = .fok → e.book.resting.Fits (.submit o) →
    e.canFullyFill .release o = .ok (e.book.resting.canFullyFill o)
  /-- What came to rest and was neither filled nor cancelled is on a level and can be cancelled. -/
  reachable : ∃ es, replay (logOf rs) = some es ∧ ∀ x ∈ es,
    (∃ s l, (x.price, l) ∈ e.book.iterSide s ∧ ∃ o ∈ l.queue e.book.arena, o.entry = x) ∧
      ∃ e', e.cancelOrder x.id = .ok (.ok [.cancelled x.id], e')

theorem StepsFit.of_append {calls calls' : List Call} (h : StepsFit S (calls ++ calls')) :
    StepsFit S calls :=
  fun done c hd => h done c (hd.trans (List.prefix_append _ _))

theorem stepsFit_iff (calls : List Call) : StepsFit S calls ↔ RefBook.new.FitsRun calls := by
  constructor
  · intro h
    induction calls using List.reverseRecOn with
    | nil => trivial
    | append_singleton calls c ih =>
      have hpre := ih h.of_append
      obtain ⟨e, q, hrun, hrep, hres, hok⟩ := reach ((noAddOverflow_iff (S := S) calls).mpr hpre)
      have hfit := h calls c (List.prefix_refl _) _ e (hrun .release)
      rw [hres] at hfit
      exact (fitsRun_append _ _ _).mpr ⟨hpre, hfit, trivial⟩
  · rintro h done c ⟨later, rfl⟩ rs e hrun
    rw [List.append_assoc, fitsRun_append] at h
    obtain ⟨e', q, hrun', hrep, hres, hok⟩ := reach ((noAddOverflow_iff (S := S) done).mpr h.1)
    rw [hrun' .release] at hrun
    obtain ⟨-, rfl⟩ := Prod.mk.inj (Except.ok.inj hrun)
    rw [hres]
    exact h.2.1

theorem BookRep.exists_queue {b : OrderBook S} {q : Queues} (h : BookRep b q) {s : Side} {o : Order}
    (ho : o ∈ b.resting s) : ∃ l, (o.px, l) ∈ b.iterSide s ∧ o ∈ l.queue b.arena := by
  obtain ⟨p, k, hk⟩ := (h.mem_resting s o).mp ho
  rw [(h.rests s p k o hk).px]
  obtain ⟨l, hl⟩ := h.exists_level (List.ne_nil_of_mem hk)
  obtain ⟨-, rfl⟩ := h.level_of_mem hl
  refine ⟨_, hl, ?_⟩
  rw [queue_of b.arena p _ _ (h.stored s p)]
  exact Queue.mem_orders.mpr ⟨k, hk⟩

theorem Engine.cancelOrder_of_mem {e : Engine S} {q : Queues} (h : BookRep e.book q)
    (hok : Ok e.book.resting) {id : OrderId} (hid : id ∈ e.book.resting.ids) :
    ∃ e', e.cancelOrder id = .ok (.ok [.cancelled id], e') := by
  obtain ⟨e', q', hrun, -⟩ := cancel_refines h hok id
  refine ⟨e', ?_⟩
  have := hrun .release
  simpa [RefBook.cancel, hid] using this

theorem Engine.sumsExact {e : Engine S} {q : Queues} {calls : List Call} (h : BookRep e.book q)
    (hres : e.book.resting = (RefBook.new.run calls).2) (hok : Ok e.book.resting) :
    e.SumsExact (RefBook.new.run calls).1 where
  total := by
    intro s p l hl
    obtain ⟨-, rfl⟩ := h.level_of_mem hl
    rw [queue_of e.book.arena p _ _ (h.stored s p)]
    exact h.toNat_sum s p
  depth := h.depth_eq
  check := by
    intro o hv ht hfit
    rw [validate_eq h o] at hv
    rcases canFullyFill_spec h o (validate_ok hv).1 with ⟨-, hrun⟩ | ⟨hscan, -⟩
    · exact hrun .release
    · exact absurd ((hfit hv).1 ht) hscan
  reachable := by
    obtain ⟨es, hreplay, hm⟩ := run_matches calls
    rw [← hres] at hm
    refine ⟨es, hreplay, ?_⟩
    intro x hx
    have hmem := hm.perm.subset hx
    obtain ⟨o, ho, rfl⟩ := List.mem_map.mp hmem
    obtain ⟨s, hs⟩ : ∃ s, o ∈ e.book.resting s := by
      rcases List.mem_append.mp ho with ho | ho
      · exact ⟨.buy, ho⟩
      · exact ⟨.sell, ho⟩
    obtain ⟨l, hl, hol⟩ := h.exists_queue hs
    exact ⟨⟨s, l, hl, o, hol, rfl⟩, cancelOrder_of_mem h hok ((mem_ids _ _).mpr ⟨s, o, hs, rfl⟩)⟩

/-- The additions stay in `u64` exactly in the runs whose calls all leave room for them. In these
runs a release build, too, computes exact sums. -/
theorem sums_fit_iff (calls : List Call) :
    (NoAddOverflow S calls ↔ StepsFit S calls) ∧
      (StepsFit S calls → ∀ done, done <+: calls → ∃ (rs : List Response) (e : Engine S),
        Engine.new.run .release done = .ok (rs, e) ∧ e.SumsExact rs) := by
  constructor
  · rw [stepsFit_iff, noAddOverflow_iff]
  · rintro h done ⟨later, rfl⟩
    rw [stepsFit_iff, ← noAddOverflow_iff (S := S)] at h
    obtain ⟨e, q, hrun, hrep, hres, hok⟩ := reach h.of_append
    exact ⟨_, e, hrun .release, e.sumsExact hrep hres hok⟩

/-- Two orders at one price that sum to `2^64`. -/
def twoHalves : List Call :=
  [.submit (makeOrder 1 .buy 100 (2 ^ 63) 1 .limit .gtc),
   .submit (makeOrder 2 .buy 100 (2 ^ 63) 2 .limit .gtc)]

/-- The sum of two accepted orders overflows. In a release build the total wraps, a later fill
brings it to zero with both orders on the level, and the level is dropped with them. -/
theorem twoHalves_overflow :
    ¬ NoAddOverflow (FreeListSlab OrderNode) twoHalves ∧
    ((Engine.new : Engine (FreeListSlab OrderNode)).run .release (twoHalves ++
        [.submit (makeOrder 3 .buy 100 5 3 .limit .gtc),
         .submit (makeOrder 4 .sell 100 5 4 .limit .ioc), .cancel ⟨1⟩])).map
      (fun r => (r.1, r.2.book.bestBid)) =
    .ok ([.ok [.accepted ⟨1⟩, .restingOnBook ⟨1⟩ ⟨100⟩ ⟨2 ^ 63⟩],
      .ok [.accepted ⟨2⟩, .restingOnBook ⟨2⟩ ⟨100⟩ ⟨2 ^ 63⟩],
      .ok [.accepted ⟨3⟩, .restingOnBook ⟨3⟩ ⟨100⟩ ⟨5⟩],
      .ok [.accepted ⟨4⟩, .trade ⟨⟨1⟩, ⟨4⟩, ⟨100⟩, ⟨5⟩, ⟨4⟩⟩],
      .error (.orderNotFound ⟨1⟩)], none) := by
  refine ⟨fun h => h ?_, by decide +kernel⟩
  have hrun : ((Engine.new : Engine (FreeListSlab OrderNode)).run .debug twoHalves).map Prod.fst =
      .error .addOverflow := by decide +kernel
  cases hr : (Engine.new : Engine (FreeListSlab OrderNode)).run .debug twoHalves with
  | ok r =>
    rw [hr] at hrun
    simp [Except.map] at hrun
  | error p =>
    rw [hr] at hrun
    exact congrArg Except.error (Except.error.inj hrun)

end Ordust
