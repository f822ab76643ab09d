import Ordust.Failure
import Ordust.Priority
import Ordust.Replay

/-!
# The place of an order in its queue

While an order rests, what is in front of it at its price only ever shrinks. Once it trades, nothing
is in front of it.
-/

namespace Ordust

open RefBook

variable {S : Type} [Slab S OrderNode]

/-- What stands in front of an identifier. -/
def front (id : OrderId) (os : List Order) : List Order := os.takeWhile (fun x => x.id ≠ id)

/-- What stands in front of an identifier in the queue at a price. -/
def OrderBook.aheadOf (self : OrderBook S) (s : Side) (p : Price) (id : OrderId) : List Order :=
  front id (self.queueAt s p)

theorem front_cons_of_eq {id : OrderId} {x : Order} (os : List Order) (h : x.id = id) :
    front id (x :: os) = [] :=
  List.takeWhile_cons_of_neg (by simpa using h)

theorem front_cons_of_ne {id : OrderId} {x : Order} (os : List Order) (h : x.id ≠ id) :
    front id (x :: os) = x :: front id os :=
  List.takeWhile_cons_of_pos (by simpa using h)

theorem front_filterMap {x y : Order} {os : List Order} {evs : List BookEvent} (hx : x ∈ os)
    (hnd : (os.map Order.id).Nodup) (hs : survive evs x = some y) (behind : List Order) :
    front x.id (os.filterMap (survive evs) ++ behind) =
      (front x.id os).filterMap (survive evs) := by
  induction os with
  | nil => simp at hx
  | cons z zs ih =>
    obtain ⟨hz, hnd⟩ := List.nodup_cons.mp hnd
    rcases List.mem_cons.mp hx with rfl | hx
    · obtain ⟨n, rfl, -⟩ := survive_eq_some hs
      rw [List.filterMap_cons_some hs, List.cons_append, front_cons_of_eq zs rfl]
      exact front_cons_of_eq _ rfl
    · have hne : z.id ≠ x.id := fun hc => hz (hc ▸ List.mem_map_of_mem hx)
      rw [front_cons_of_ne zs hne]
      cases hzs : survive evs z with
      | none => rw [List.filterMap_cons_none hzs, List.filterMap_cons_none hzs, ih hx hnd]
      | some z' =>
        obtain ⟨n, rfl, -⟩ := survive_eq_some hzs
        rw [List.filterMap_cons_some hzs, List.filterMap_cons_some hzs, List.cons_append,
          front_cons_of_ne _ (by exact hne), ih hx hnd]

theorem qtySum_filterMap_le (evs : List BookEvent) (os : List Order) :
    qtySum (os.filterMap (survive evs)) ≤ qtySum os := by
  induction os with
  | nil => exact le_refl _
  | cons o os ih =>
    cases hs : survive evs o with
    | none =>
      rw [List.filterMap_cons_none hs, qtySum_cons]
      omega
    | some x =>
      have hrem := (survive_some_rem hs).1
      rw [List.filterMap_cons_some hs, qtySum_cons, qtySum_cons]
      omega

namespace RefBook

variable {r r' : RefBook} {c : Call} {evs : List BookEvent}

/-- The orders at one price. -/
def queue (r : RefBook) (s : Side) (p : Price) : List Order := (r s).filter (fun x => x.px = p)

theorem queue_after (r : RefBook) (evs : List BookEvent) (s : Side) (p : Price) :
    (r.after evs).queue s p = (r.queue s p).filterMap (survive evs) := by
  unfold queue after
  rw [List.filter_filterMap, List.filterMap_filter]
  congr 1
  funext o
  cases hs : survive evs o with
  | none => simp
  | some x =>
    obtain ⟨n, rfl, -⟩ := survive_eq_some hs
    by_cases hp : o.px = p <;> simp [Option.filter, hp]

theorem Effect.queue_eq (h : Effect r c evs r') (hok : Ok r) (s : Side) (p : Price) :
    ∃ behind, r'.queue s p = (r.queue s p).filterMap (survive evs) ++ behind := by
  rcases h.shape with ⟨-, rfl⟩ | ⟨o, ts, n, -, -, -, -, rfl⟩
  · exact ⟨[], by rw [queue_after, List.append_nil]⟩
  · by_cases hs : s = o.side
    · subst hs
      refine ⟨if o.px = p then [o.withRemaining n] else [], ?_⟩
      have hsorted : Sorted (o.withRemaining n).side (r.after evs o.side) := (hok.after evs).sorted o.side
      rw [← queue_after, RefBook.queue, rest, show (o.withRemaining n).side = o.side from rfl,
        Function.update_self, filter_insertOrder hsorted]
      rfl
    · refine ⟨[], ?_⟩
      rw [List.append_nil, ← queue_after, RefBook.queue, rest,
        show (o.withRemaining n).side = o.side from rfl, Function.update_of_ne hs]
      rfl

theorem ahead_of_front {s : Side} {x z : Order} (hx : x ∈ r.queue s x.px)
    (hz : z ∈ front x.id (r.queue s x.px)) : Ahead r s z x := by
  have hsplit : r.queue s x.px = front x.id (r.queue s x.px) ++
      (r.queue s x.px).dropWhile (fun y => y.id ≠ x.id) := List.takeWhile_append_dropWhile.symm
  have hdrop : x ∈ (r.queue s x.px).dropWhile (fun y => y.id ≠ x.id) := by
    rw [hsplit] at hx
    rcases List.mem_append.mp hx with hc | hx
    · have := List.mem_takeWhile_imp hc
      simp at this
    · exact hx
  have hpair : [z, x].Sublist (r.queue s x.px) := by
    rw [hsplit]
    exact (List.singleton_sublist.mpr hz).append (List.singleton_sublist.mpr hdrop)
  exact hpair.trans List.filter_sublist

theorem Effect.front_eq (h : Effect r c evs r') (hok : Ok r) {s : Side} {x : Order} (hx : x ∈ r s)
    (hstay : x.id ∈ r'.ids) :
    front x.id (r'.queue s x.px) = (front x.id (r.queue s x.px)).filterMap (survive evs) ∧
      ∀ t, .trade t ∈ evs → t.makerOrderId = x.id → front x.id (r'.queue s x.px) = [] := by
  have hxq : x ∈ r.queue s x.px := List.mem_filter.mpr ⟨hx, decide_eq_true rfl⟩
  have hnd : ((r.queue s x.px).map Order.id).Nodup :=
    (hok.nodup_side s).sublist (List.filter_sublist.map Order.id)
  obtain ⟨y, hy⟩ : ∃ y, survive evs x = some y := by
    rw [← Option.ne_none_iff_exists']
    exact fun hnone => h.not_mem_of_survive_none hok hx hnone hstay
  obtain ⟨behind, hqueue⟩ := h.queue_eq hok s x.px
  have hfront := front_filterMap hxq hnd hy behind
  rw [← hqueue] at hfront
  refine ⟨hfront, ?_⟩
  intro t ht hid
  rw [hfront, List.filterMap_eq_nil_iff]
  intro z hz
  obtain ⟨evs₁, evs₂, rfl⟩ := List.append_of_mem ht
  have hgone := (ahead_of_front hxq hz).exhausted hok h rfl hid
  rw [survive_append, hgone]
  rfl

/-- As long as an order rests, what is in front of it shrinks. -/
theorem run_front (hok : Ok r) {s : Side} {x : Order} (hx : x ∈ r s) (calls : List Call)
    (hstay : ∀ mid, mid <+: calls → x.id ∈ (r.run mid).2.ids) :
    let left := front x.id ((r.run calls).2.queue s x.px)
    (left.map Order.id).Sublist ((front x.id (r.queue s x.px)).map Order.id) ∧
      qtySum left ≤ qtySum (front x.id (r.queue s x.px)) ∧
      ∀ t, .trade t ∈ logOf (r.run calls).1 → t.makerOrderId = x.id → left = [] := by
  induction calls generalizing r x with
  | nil => exact ⟨List.Sublist.refl _, le_refl _, fun t ht => by simp [run, logOf] at ht⟩
  | cons c calls ih =>
    have hnext : x.id ∈ (r.call c).2.ids := hstay [c] (by simp)
    -- What the call leaves of the order, and of what is in front of it.
    have hstep : ∃ y ∈ (r.call c).2 s, y.id = x.id ∧ y.px = x.px ∧
        ((front x.id ((r.call c).2.queue s x.px)).map Order.id).Sublist
          ((front x.id (r.queue s x.px)).map Order.id) ∧
        qtySum (front x.id ((r.call c).2.queue s x.px)) ≤
          qtySum (front x.id (r.queue s x.px)) ∧
        ∀ t, .trade t ∈ eventsOf (r.call c).1 → t.makerOrderId = x.id →
          front x.id ((r.call c).2.queue s x.px) = [] := by
      rcases call_effect hok c with ⟨err, hc⟩ | ⟨evs, hevs, he⟩
      · rw [hc]
        exact ⟨x, hx, rfl, rfl, List.Sublist.refl _, le_refl _, fun t ht => by simp [eventsOf] at ht⟩
      · obtain ⟨hfront, htrade⟩ := he.front_eq hok hx hnext
        obtain ⟨y, hy⟩ : ∃ y, survive evs x = some y := by
          rw [← Option.ne_none_iff_exists']
          exact fun hnone => he.not_mem_of_survive_none hok hx hnone hnext
        have hmem := he.mem_of_survive hx hy
        obtain ⟨n, rfl, -⟩ := survive_eq_some hy
        refine ⟨_, hmem, rfl, rfl, ?_, ?_, ?_⟩
        · rw [hfront]
          exact map_id_after _ evs
        · rw [hfront]
          exact qtySum_filterMap_le evs _
        · rw [hevs]
          exact htrade
    obtain ⟨y, hy, hid, hpx, hsub, hle, htrade⟩ := hstep
    have hlater : ∀ mid, mid <+: calls → y.id ∈ ((r.call c).2.run mid).2.ids := by
      intro mid hmid
      rw [hid]
      exact hstay (c :: mid) ((List.prefix_cons_inj c).mpr hmid)
    have hrest := ih (hok.call c) hy hlater
    rw [hid, hpx] at hrest
    obtain ⟨hsub', hle', htrade'⟩ := hrest
    refine ⟨hsub'.trans hsub, hle'.trans hle, ?_⟩
    intro t ht hmaker
    have hlog : logOf (r.run (c :: calls)).1 =
        eventsOf (r.call c).1 ++ logOf ((r.call c).2.run calls).1 := rfl
    rw [hlog] at ht
    rcases List.mem_append.mp ht with ht | ht
    · rw [htrade t ht hmaker] at hsub'
      exact List.map_eq_nil_iff.mp (List.sublist_nil.mp hsub')
    · exact htrade' t ht hmaker

end RefBook

/-- As long as an order stays in its queue, the orders in front of it are ones that were there before,
with no more left in all, and if it trades in that time there are none. -/
theorem queue_position_improves (before later : List Call) (h : NoAddOverflow S (before ++ later))
    (s : Side) (p : Price) (id : OrderId) :
    ∃ (rs rs' : List Response) (e e' : Engine S), (∀ pr, Engine.new.run pr before = .ok (rs, e)) ∧
      (∀ pr, e.run pr later = .ok (rs', e')) ∧
      ((∀ mid, mid <+: later → ∀ out eₘ, e.run .debug mid = .ok (out, eₘ) →
          ∃ x ∈ eₘ.book.queueAt s p, x.id = id) →
        ((e'.book.aheadOf s p id).map Order.id).Sublist ((e.book.aheadOf s p id).map Order.id) ∧
        qtySum (e'.book.aheadOf s p id) ≤ qtySum (e.book.aheadOf s p id) ∧
        ((∃ t, .trade t ∈ logOf rs' ∧ t.makerOrderId = id) → e'.book.aheadOf s p id = [])) := by
  obtain ⟨e, q, hrun, hrep, hres, hok⟩ := reach h.of_append
  have hfits := h.fits_later
  rw [← hres] at hfits
  -- The engine after a part of the later calls.
  have hpart : ∀ mid, mid <+: later → ∃ (eₘ : Engine S) (qₘ : Queues),
      (∀ pr, e.run pr mid = .ok ((e.book.resting.run mid).1, eₘ)) ∧ BookRep eₘ.book qₘ ∧
      eₘ.book.resting = (e.book.resting.run mid).2 := by
    rintro mid ⟨rest, rfl⟩
    exact Engine.run_of_fits hrep hok ((fitsRun_append _ _ _).mp hfits).1
  obtain ⟨e', q', hrun', hrep', hres'⟩ := hpart later (List.prefix_refl later)
  refine ⟨_, _, e, e', hrun, hrun', ?_⟩
  intro hstay
  obtain ⟨x, hx, rfl⟩ := hstay [] (List.nil_prefix) _ e rfl
  rw [hrep.queueAt_eq, List.mem_filter, decide_eq_true_iff] at hx
  obtain ⟨hx, rfl⟩ := hx
  have hids : ∀ mid, mid <+: later → x.id ∈ (e.book.resting.run mid).2.ids := by
    intro mid hmid
    obtain ⟨eₘ, qₘ, hrunₘ, hrepₘ, hresₘ⟩ := hpart mid hmid
    obtain ⟨y, hy, hid⟩ := hstay mid hmid _ eₘ (hrunₘ .debug)
    rw [hrepₘ.queueAt_eq, List.mem_filter, hresₘ] at hy
    exact (mem_ids _ _).mpr ⟨s, y, hy.1, hid⟩
  obtain ⟨hsub, hle, htrade⟩ := run_front hok hx later hids
  rw [← hres', RefBook.queue, ← hrep'.queueAt_eq, RefBook.queue, ← hrep.queueAt_eq] at hsub hle
  rw [← hres', RefBook.queue, ← hrep'.queueAt_eq] at htrade
  exact ⟨hsub, hle, fun ⟨t, ht, hid⟩ => htrade t ht hid⟩

/-- The third of three bids, while the second is cancelled and the first trades. -/
theorem queue_position_improves_cancelMiddleOrder :
    ∃ (rs rs' : List Response) (e e' : Engine (FreeListSlab OrderNode)),
      (∀ pr, Engine.new.run pr (cancelMiddleOrder.take 3) = .ok (rs, e)) ∧
      (∀ pr, e.run pr (cancelMiddleOrder.drop 3) = .ok (rs', e')) ∧
      ((e'.book.aheadOf .buy ⟨100⟩ ⟨3⟩).map Order.id).Sublist
        ((e.book.aheadOf .buy ⟨100⟩ ⟨3⟩).map Order.id) ∧
      qtySum (e'.book.aheadOf .buy ⟨100⟩ ⟨3⟩) ≤ qtySum (e.book.aheadOf .buy ⟨100⟩ ⟨3⟩) ∧
      qtySum (e.book.aheadOf .buy ⟨100⟩ ⟨3⟩) = 30 ∧ e'.book.aheadOf .buy ⟨100⟩ ⟨3⟩ = [] := by
  obtain ⟨rs, rs', e, e', hrun, hlater, himproves⟩ :=
    queue_position_improves (S := FreeListSlab OrderNode) (cancelMiddleOrder.take 3)
      (cancelMiddleOrder.drop 3)
      (by rw [List.take_append_drop]; exact cancelMiddleOrder_noAddOverflow) .buy ⟨100⟩ ⟨3⟩
  -- The bid is in its queue after each part of the later calls.
  have hparts := Engine.of_run hrun
    (fun e => (cancelMiddleOrder.drop 3).inits.all (fun mid => decide
      (Except.map (fun x => (x.2.book.queueAt .buy ⟨100⟩).any (fun x => x.id = ⟨3⟩))
        (e.run .debug mid) = .ok true))) (a := true) (by decide +kernel)
  have hstay : ∀ mid, mid <+: cancelMiddleOrder.drop 3 → ∀ out eₘ,
      e.run .debug mid = .ok (out, eₘ) → ∃ x ∈ eₘ.book.queueAt .buy ⟨100⟩, x.id = ⟨3⟩ := by
    intro mid hmid out eₘ hout
    have hpart := List.all_eq_true.mp hparts mid ((List.mem_inits _ _).mpr hmid)
    rw [hout, decide_eq_true_iff] at hpart
    obtain ⟨x, hx, hid⟩ := List.any_eq_true.mp (Except.ok.inj hpart)
    exact ⟨x, hx, of_decide_eq_true hid⟩
  obtain ⟨hsub, hle, hfirst⟩ := himproves hstay
  have hanswers := Engine.of_run hrun
    (fun e => Except.map Prod.fst (e.run .debug (cancelMiddleOrder.drop 3)))
    (a := .ok [.ok [.cancelled ⟨2⟩], .ok [.accepted ⟨4⟩, .trade ⟨⟨1⟩, ⟨4⟩, ⟨100⟩, ⟨10⟩, ⟨4⟩⟩,
      .trade ⟨⟨3⟩, ⟨4⟩, ⟨100⟩, ⟨15⟩, ⟨4⟩⟩]]) (by decide +kernel)
  rw [hlater] at hanswers
  obtain rfl := Except.ok.inj hanswers
  have hahead := Engine.of_run hrun (fun e => qtySum (e.book.aheadOf .buy ⟨100⟩ ⟨3⟩)) (a := 30)
    (by decide +kernel)
  exact ⟨rs, _, e, e', hrun, hlater, hsub, hle, hahead,
    hfirst ⟨⟨⟨3⟩, ⟨4⟩, ⟨100⟩, ⟨15⟩, ⟨4⟩⟩, by decide, rfl⟩⟩

end Ordust
