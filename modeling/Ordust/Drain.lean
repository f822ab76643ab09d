import Ordust.Observe
import Ordust.TimePriority

/-!
# Taking every order off the book

The orders of any reachable book can be cancelled in any order, and nothing of them is left: not in
the maps, not in the index, not in the arena. The engine then behaves like a new one.
-/

namespace Ordust

open RefBook

variable {S : Type} [Slab S OrderNode]

/-- Nothing is stored. -/
structure OrderBook.Empty (b : OrderBook S) : Prop where
  bids : b.bids.entries = []
  asks : b.asks.entries = []
  index : ∀ id, b.orderIndex.lookup id = none
  arena : ∀ k, Slab.get b.arena k = none

namespace RefBook

theorem filter_ids {r : RefBook} {gone : List OrderId} (h : gone.Perm r.ids) :
    (fun s => (r s).filter (fun o => o.id ∉ gone)) = RefBook.new := by
  funext s
  show _ = []
  rw [List.filter_eq_nil_iff]
  intro o ho
  have hmem : o.id ∈ gone := h.mem_iff.mpr ((mem_ids r _).mpr ⟨s, o, ho, rfl⟩)
  simpa using hmem

end RefBook

namespace BookRep

variable {b : OrderBook S} {q : Queues}

theorem iterSide_nil (h : BookRep b q) {s : Side} (hs : b.resting s = []) : b.iterSide s = [] := by
  have hlevels := h.perPrice_resting s
  rw [hs] at hlevels
  exact List.map_eq_nil_iff.mp hlevels.symm

theorem empty (h : BookRep b q) (hr : b.resting = RefBook.new) : b.Empty where
  bids := List.map_eq_nil_iff.mp (h.iterSide_nil (congrFun hr .buy))
  asks := h.iterSide_nil (congrFun hr .sell)
  index := by
    intro id
    rw [h.lookup_eq_none, hr]
    simp [RefBook.new, RefBook.ids]
  arena := by
    intro k
    by_contra hk
    obtain ⟨s, p, hkq⟩ := h.full k hk
    obtain ⟨o, ho⟩ := Queue.mem_keys.mp hkq
    have hmem := (h.mem_resting s o).mpr ⟨p, k, ho⟩
    rw [hr] at hmem
    exact absurd hmem List.not_mem_nil

end BookRep

/-- From any reachable book, cancelling the resting orders in any order succeeds each time and leaves
nothing behind. Whatever is called then is answered as by a new engine. -/
theorem drained (calls : List Call) (h : NoAddOverflow S calls) :
    ∃ (rs : List Response) (e : Engine S), (∀ pr, Engine.new.run pr calls = .ok (rs, e)) ∧
      ∀ gone : List OrderId, gone.Perm e.book.resting.ids → ∃ e' : Engine S,
        (∀ pr, e.run pr (gone.map .cancel) = .ok (gone.map (fun id => .ok [.cancelled id]), e')) ∧
        e'.book.Empty ∧
        ∀ later, NoAddOverflow S later → ∃ (rs' : List Response) (e₁ e₂ : Engine S),
          (∀ pr, e'.run pr later = .ok (rs', e₁)) ∧ (∀ pr, Engine.new.run pr later = .ok (rs', e₂)) ∧
          e₁.book.Alike e₂.book := by
  obtain ⟨e, q, hrun, hrep, -, hok⟩ := reach h
  refine ⟨_, e, hrun, ?_⟩
  intro gone hgone
  obtain ⟨hcancels, hfits⟩ := run_cancels (hgone.nodup_iff.mpr hok.nodup)
    (fun id hid => hgone.mem_iff.mp hid)
  obtain ⟨e', q', hrun', hrep', hres'⟩ := Engine.run_of_fits hrep hok hfits
  rw [hcancels] at hrun' hres'
  have hnew : e'.book.resting = RefBook.new := hres'.trans (filter_ids hgone)
  refine ⟨e', hrun', hrep'.empty hnew, ?_⟩
  intro later hlater
  have hrepNew : BookRep (Engine.new : Engine S).book _ := BookRep.new
  have hempty : (Engine.new : Engine S).book.resting = RefBook.new := resting_new
  obtain ⟨rs', e₂, e₁, hrun₂, hrun₁, halike⟩ := hrepNew.runs_alike hrep' (hempty ▸ Ok.new)
    (hnew.trans hempty.symm) (hempty ▸ (noAddOverflow_iff later).mp hlater)
  exact ⟨rs', e₁, e₂, hrun₁, hrun₂, halike⟩

/-- Three orders on both sides, cancelled out of turn, and then the same calls again. -/
theorem drained_twoSided :
    ∃ (rs rs' : List Response) (e e' e₁ e₂ : Engine (FreeListSlab OrderNode)),
      (∀ pr, Engine.new.run pr twoSided = .ok (rs, e)) ∧
      (∀ pr, e.run pr [.cancel ⟨2⟩, .cancel ⟨1⟩, .cancel ⟨4⟩] =
        .ok ([.ok [.cancelled ⟨2⟩], .ok [.cancelled ⟨1⟩], .ok [.cancelled ⟨4⟩]], e')) ∧
      e'.book.Empty ∧ (∀ pr, e'.run pr twoSided = .ok (rs', e₁)) ∧
      (∀ pr, Engine.new.run pr twoSided = .ok (rs', e₂)) ∧ e₁.book.Alike e₂.book := by
  obtain ⟨rs, e, hrun, hdrained⟩ :=
    drained (S := FreeListSlab OrderNode) twoSided twoSided_noAddOverflow
  have hids := Engine.of_run hrun (fun e => e.book.resting.ids) (a := [⟨4⟩, ⟨1⟩, ⟨2⟩])
    (by decide +kernel)
  obtain ⟨e', hcancels, hempty, hlater⟩ := hdrained [⟨2⟩, ⟨1⟩, ⟨4⟩] (by rw [hids]; decide)
  obtain ⟨rs', e₁, e₂, hrun₁, hrun₂, halike⟩ := hlater twoSided twoSided_noAddOverflow
  exact ⟨rs, rs', e, e', e₁, e₂, hrun, hcancels, hempty, hrun₁, hrun₂, halike⟩

end Ordust
