import Ordust.Reach

/-!
# The engine is the reference engine, as far as can be seen

The results of the calls, the resting orders, the best prices and the depth of both sides.
-/

namespace Ordust

variable {S : Type} [Slab S OrderNode]

theorem levelSum_injective : Function.Injective (fun l : Price × Qty => (l.1, l.2.toNat)) := by
  rintro ⟨p, n⟩ ⟨p', n'⟩ heq
  obtain ⟨rfl, hn⟩ := Prod.mk.inj heq
  exact congrArg (Prod.mk p) (Qty.eq_of_toNat hn)

namespace BookRep

variable {b : OrderBook S} {q : Queues}

theorem depth_eq (h : BookRep b q) (s : Side) (n : Nat) :
    (b.depth s n).map (fun l => (l.1, l.2.toNat)) = (RefBook.perPrice (b.resting s)).take n := by
  rw [h.perPrice_resting, ← List.map_take]
  cases s
  · simp only [OrderBook.depth, OrderBook.iterSide, ← List.map_take, List.map_map]
    rfl
  · simp only [OrderBook.depth, OrderBook.iterSide, List.map_map]
    rfl

theorem depth_congr {b' : OrderBook S} {q' : Queues} (h : BookRep b q) (h' : BookRep b' q') (s : Side)
    (he : RefBook.perPrice (b.resting s) = RefBook.perPrice (b'.resting s)) (n : Nat) :
    b.depth s n = b'.depth s n := by
  apply List.map_injective_iff.mpr levelSum_injective
  rw [h.depth_eq, h'.depth_eq, he]

theorem bestBid_resting (h : BookRep b q) : b.bestBid = (b.resting .buy).head?.map Order.px := by
  rw [b.bestBid_eq, h.best_eq]

theorem bestAsk_resting (h : BookRep b q) : b.bestAsk = (b.resting .sell).head?.map Order.px := by
  rw [b.bestAsk_eq, h.best_eq]

theorem queues_eq (h : BookRep b q) (s : Side) :
    (b.iterSide s).map (fun e => (e.1, e.2.queue b.arena)) =
      (RefBook.perPrice (b.resting s)).map
        (fun l => (l.1, (b.resting s).filter (fun o => o.px = l.1))) := by
  rw [h.perPrice_resting, List.map_map]
  apply List.map_congr_left
  rintro ⟨p, l⟩ hl
  obtain ⟨-, rfl⟩ := h.level_of_mem hl
  simp only [Function.comp_apply, h.filter_px]
  rw [queue_of b.arena p _ _ (h.stored s p)]

end BookRep

/-- Two books that cannot be told apart, though their arenas may differ. -/
structure OrderBook.Alike (b b' : OrderBook S) : Prop where
  bestBid : b.bestBid = b'.bestBid
  bestAsk : b.bestAsk = b'.bestAsk
  depth : ∀ s n, b.depth s n = b'.depth s n
  queues : ∀ s, (b.iterSide s).map (fun e => (e.1, e.2.queue b.arena)) =
    (b'.iterSide s).map (fun e => (e.1, e.2.queue b'.arena))

theorem BookRep.alike {b b' : OrderBook S} {q q' : Queues} (h : BookRep b q) (h' : BookRep b' q')
    (he : b.resting = b'.resting) : b.Alike b' := by
  constructor
  · rw [h.bestBid_resting, h'.bestBid_resting, he]
  · rw [h.bestAsk_resting, h'.bestAsk_resting, he]
  · intro s n
    exact h.depth_congr h' s (by rw [he]) n
  · intro s
    rw [h.queues_eq, h'.queues_eq, he]

theorem BookRep.runs_alike {e e' : Engine S} {q q' : Queues} {later : List Call}
    (h : BookRep e.book q) (h' : BookRep e'.book q') (hok : RefBook.Ok e.book.resting)
    (he : e'.book.resting = e.book.resting) (hfits : e.book.resting.FitsRun later) :
    ∃ (rs : List Response) (e₁ e₂ : Engine S), (∀ pr, e.run pr later = .ok (rs, e₁)) ∧
      (∀ pr, e'.run pr later = .ok (rs, e₂)) ∧ e₂.book.Alike e₁.book := by
  obtain ⟨e₁, q₁, hrun₁, hrep₁, hres₁⟩ := Engine.run_of_fits h hok hfits
  obtain ⟨e₂, q₂, hrun₂, hrep₂, hres₂⟩ := Engine.run_of_fits h' (he ▸ hok) (he ▸ hfits)
  rw [he] at hrun₂ hres₂
  exact ⟨_, e₁, e₂, hrun₁, hrun₂, hrep₂.alike hrep₁ (hres₂.trans hres₁.symm)⟩

/-- A book shows what a reference book shows. -/
structure OrderBook.Shows (b : OrderBook S) (r : RefBook) : Prop where
  resting : b.resting = r
  bestBid : b.bestBid = (r .buy).head?.map Order.px
  bestAsk : b.bestAsk = (r .sell).head?.map Order.px
  depth : ∀ s n, (b.depth s n).map (fun l => (l.1, l.2.toNat)) = (RefBook.perPrice (r s)).take n

theorem BookRep.shows {b : OrderBook S} {q : Queues} (h : BookRep b q) : b.Shows b.resting where
  resting := rfl
  bestBid := h.bestBid_resting
  bestAsk := h.bestAsk_resting
  depth := h.depth_eq

/-- A run without overflow answers each call as the reference engine does, and after each the book
shows the same. -/
theorem engine_refines (calls : List Call) (h : NoAddOverflow S calls) :
    ∀ done, done <+: calls → ∃ e : Engine S,
      (∀ pr, Engine.new.run pr done = .ok ((RefBook.new.run done).1, e)) ∧
      e.book.Shows (RefBook.new.run done).2 := by
  rintro done ⟨later, rfl⟩
  obtain ⟨e, q, hrun, hrep, hres, -⟩ := reach h.of_append
  exact ⟨e, hrun, hres ▸ hrep.shows⟩

theorem engine_refines_cancelMiddleOrder :
    (∀ done, done <+: cancelMiddleOrder → ∃ e : Engine (FreeListSlab OrderNode),
      (∀ pr, Engine.new.run pr done = .ok ((RefBook.new.run done).1, e)) ∧
      e.book.Shows (RefBook.new.run done).2) ∧
    (RefBook.new.run cancelMiddleOrder).1.getLast? = some (.ok
      [.accepted ⟨4⟩, .trade ⟨⟨1⟩, ⟨4⟩, ⟨100⟩, ⟨10⟩, ⟨4⟩⟩, .trade ⟨⟨3⟩, ⟨4⟩, ⟨100⟩, ⟨15⟩, ⟨4⟩⟩]) :=
  ⟨engine_refines cancelMiddleOrder cancelMiddleOrder_noAddOverflow, by decide +kernel⟩

end Ordust
