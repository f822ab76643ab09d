import Ordust.Log
import Ordust.Reach

/-!
# No quantity is lost

What a submission traded, as the taker and then as a maker, and what still rests of it make up
what was submitted, until an event says that it was cancelled.
-/

namespace Ordust

open RefBook

/-- What still rests under an identifier. -/
def Engine.restingQty {S : Type} [Slab S OrderNode] (e : Engine S) (id : OrderId) : Nat :=
  ((e.book.getOrder id).map Order.rem).getD 0

theorem takeWhile_accepted {id : OrderId} {evs : List BookEvent} (h : .accepted id ∉ evs) :
    evs.takeWhile (fun ev => ev ≠ .accepted id) = evs := by
  rw [List.takeWhile_eq_self_iff]
  intro ev hev
  rw [decide_eq_true_eq]
  rintro rfl
  exact h hev

theorem window_snoc {id : OrderId} {own later : List BookEvent} (h : .accepted id ∉ later)
    (evs : List BookEvent) : window id own (later ++ evs) = window id own later ++
      evs.takeWhile (fun ev => ev ≠ .accepted id) := by
  rw [window, window, List.takeWhile_append, if_pos (by rw [takeWhile_accepted h]),
    takeWhile_accepted h, List.append_assoc]

theorem window_closed {id : OrderId} {own later : List BookEvent} (h : .accepted id ∈ later)
    (evs : List BookEvent) : window id own (later ++ evs) = window id own later := by
  have hlen : (later.takeWhile (fun ev => ev ≠ .accepted id)).length ≠ later.length := by
    intro hl
    have hall := List.takeWhile_eq_self_iff.mp
      ((List.takeWhile_sublist _).eq_of_length hl) (.accepted id) h
    simp at hall
  rw [window, window, List.takeWhile_append, if_neg hlen]

/-- The books are balanced without the order on the book. -/
def Balanced (o : Order) (w : List BookEvent) : Prop :=
  filledOf o.id w ≤ o.rem ∧ (filledOf o.id w = o.rem ↔ .cancelled o.id ∉ w)

/-- Where a submission `o` is, after its own events and some later ones. -/
inductive Lifetime (o : Order) (own later : List BookEvent) (r : RefBook) : Prop where
  | resting (s : Side) (x : Order) (hopen : .accepted o.id ∉ later) (hx : x ∈ r s)
      (hid : x.id = o.id) (hsum : filledOf o.id (window o.id own later) + x.rem = o.rem)
      (hno : .cancelled o.id ∉ window o.id own later)
  | gone (hopen : .accepted o.id ∉ later) (hid : o.id ∉ r.ids)
      (hbal : Balanced o (window o.id own later))
  /-- The identifier was used again. -/
  | reused (hreused : .accepted o.id ∈ later) (hbal : Balanced o (window o.id own later))

theorem Lifetime.effect_resting {o x : Order} {own later evs : List BookEvent} {r r' : RefBook}
    {c : Call} {s : Side} (hopen : .accepted o.id ∉ later) (hx : x ∈ r s) (hid : x.id = o.id)
    (hsum : filledOf o.id (window o.id own later) + x.rem = o.rem)
    (hno : .cancelled o.id ∉ window o.id own later) (hok : Ok r) (he : Effect r c evs r') :
    Lifetime o own (later ++ evs) r' := by
  have hmem : o.id ∈ r.ids := (mem_ids r _).mpr ⟨s, x, hx, hid⟩
  have hacc : .accepted o.id ∉ evs := by
    intro ha
    obtain ⟨o', -, -, hnot⟩ := he.of_accepted ha
    exact hnot hmem
  have hopen' : .accepted o.id ∉ later ++ evs := by
    rw [List.mem_append, not_or]
    exact ⟨hopen, hacc⟩
  have hmade : filledOf o.id evs = madeBy x.id evs := by
    rw [hid]
    exact filledOf_eq_madeBy (fun t ht => he.taker_ne hmem ht)
  have hle := he.madeBy_le hok hx
  have hw : window o.id own (later ++ evs) = window o.id own later ++ evs := by
    rw [window_snoc hopen, takeWhile_accepted hacc]
  have hpos : 0 < x.rem := (hok.rests s x hx).pos
  cases hsur : survive evs x with
  | some y =>
    obtain ⟨hrem, hcan⟩ := survive_some_rem hsur
    have hy := he.mem_of_survive hx hsur
    obtain ⟨n, rfl, -⟩ := survive_eq_some hsur
    refine .resting s (x.withRemaining n) hopen' hy hid ?_ ?_
    · rw [hw, filledOf_append, hmade]
      omega
    · rw [hw, List.mem_append, not_or]
      rw [hid] at hcan
      exact ⟨hno, hcan⟩
  | none =>
    refine .gone hopen' (by rw [← hid]; exact he.not_mem_of_survive_none hok hx hsur) ?_
    unfold Balanced
    rw [hw, filledOf_append, hmade, List.mem_append]
    by_cases hcan : .cancelled o.id ∈ evs
    · -- Cancelled: what still rested is not filled.
      rcases he.of_cancelled hcan with ⟨-, -, rfl⟩ | ⟨o', -, -, hnot⟩
      · simp only [madeBy_cons, madeBy_nil, BookEvent.madeBy]
        refine ⟨by omega, ?_⟩
        simp only [hcan, or_true, not_true_eq_false, iff_false]
        omega
      · exact absurd hmem hnot
    · have hge := (survive_none hsur).resolve_left (by rw [hid]; exact hcan)
      refine ⟨by omega, ?_⟩
      simp only [hno, hcan, or_self, not_false_eq_true, iff_true]
      omega

/-- A call with its effect moves a submission along its lifetime. -/
theorem Lifetime.effect {o : Order} {own later evs : List BookEvent} {r r' : RefBook} {c : Call}
    (h : Lifetime o own later r) (hok : Ok r) (he : Effect r c evs r') :
    Lifetime o own (later ++ evs) r' := by
  cases h with
  | reused hreused hbal =>
    exact .reused (List.mem_append_left _ hreused) (by rw [window_closed hreused]; exact hbal)
  | gone hopen hid hbal =>
    by_cases hsub : ∃ o', c = .submit o' ∧ o'.id = o.id
    · -- The identifier is accepted again, and that is the first event.
      obtain ⟨o', rfl, ho'⟩ := hsub
      obtain ⟨evs', rfl, -⟩ := he.submit_head
      refine .reused (List.mem_append_right _ (by rw [ho']; exact List.mem_cons_self)) ?_
      rw [window_snoc hopen, ho']
      simpa using hbal
    · have hne : ∀ o', c = .submit o' → o'.id ≠ o.id := fun o' hc hid' => hsub ⟨o', hc, hid'⟩
      obtain ⟨hfill, hcan, hacc, hids⟩ := he.quiet hid hne
      refine .gone (by rw [List.mem_append, not_or]; exact ⟨hopen, hacc⟩) hids ?_
      rw [window_snoc hopen, takeWhile_accepted hacc]
      unfold Balanced at hbal ⊢
      rw [filledOf_append, hfill, Nat.add_zero, List.mem_append]
      refine ⟨hbal.1, hbal.2.trans ?_⟩
      simp [hcan]
  | resting s x hopen hx hid hsum hno =>
    exact Lifetime.effect_resting hopen hx hid hsum hno hok he

theorem Lifetime.start {o : Order} {own : List BookEvent} {r r' : RefBook} (he : Effect r (.submit o) own r') :
    Lifetime o own [] r' := by
  have hw : window o.id own [] = own := List.append_nil own
  have hfill : ∀ {ts n}, Matched r o ts n →
      filledOf o.id (.accepted o.id :: ts.map .trade) + n.toNat = o.rem := by
    intro ts n hm
    rw [filledOf_cons, filledOf_trades (fun t ht => (hm.trade ht).1), ← hm.total]
    simp [BookEvent.filledOf]
  cases he with
  | filled hm =>
    refine .gone (by simp) (fun hc => hm.fresh ((ids_after r _).subset hc)) ?_
    have := hfill hm
    rw [UInt64.toNat_zero, Nat.add_zero] at this
    rw [hw, Balanced, this]
    simp
  | @rested _ ts n hm hn ht hc =>
    refine .resting o.side (o.withRemaining n) (by simp) (mem_rest.mpr (Or.inl ⟨rfl, rfl⟩)) rfl ?_ ?_
    · rw [hw, filledOf_append]
      exact hfill hm
    · rw [hw]
      simp
  | @dropped _ ts n hm hn ht =>
    refine .gone (by simp) (fun hc => hm.fresh ((ids_after r _).subset hc)) ?_
    have hsum := hfill hm
    have hlast : filledOf o.id [.cancelled o.id] = 0 := rfl
    rw [hw, Balanced, filledOf_append, hlast]
    simp only [List.mem_append, List.mem_singleton, or_true, not_true_eq_false, iff_false]
    omega

theorem Lifetime.run {o : Order} {own : List BookEvent} {r : RefBook} (h : Lifetime o own [] r)
    (hok : Ok r) (calls : List Call) : Lifetime o own (logOf (r.run calls).1) (r.run calls).2 := by
  have hstep : ∀ (rs : List Response) (r : RefBook) (c : Call),
      Ok r ∧ Lifetime o own (logOf rs) r →
      Ok (r.call c).2 ∧ Lifetime o own (logOf (rs ++ [(r.call c).1])) (r.call c).2 := by
    rintro rs r c ⟨hok, hl⟩
    refine ⟨hok.call c, ?_⟩
    rw [logOf_snoc]
    rcases call_effect hok c with ⟨err, hc⟩ | ⟨evs, hevs, he⟩
    · rw [hc]
      simpa [eventsOf] using hl
    · rw [hevs]
      exact hl.effect hok he
  exact (Runs.run_history (fun rs r => Ok r ∧ Lifetime o own (logOf rs) r) hstep [] r calls
    ⟨hok, h⟩).2

variable {S : Type} [Slab S OrderNode]

theorem restingQty_eq {e : Engine S} {q : Queues} (h : BookRep e.book q)
    (id : OrderId) : (id ∉ e.book.resting.ids ∧ e.restingQty id = 0) ∨
      ∃ s x, x ∈ e.book.resting s ∧ x.id = id ∧ e.restingQty id = x.rem := by
  rcases h.getOrder_eq id with ⟨hid, hget⟩ | ⟨-, s, x, hget, hx, hmem⟩
  · exact Or.inl ⟨hid, by rw [Engine.restingQty, hget]; rfl⟩
  · exact Or.inr ⟨s, x, hmem, hx, by rw [Engine.restingQty, hget]; rfl⟩

/-- Of a successful submission, what it traded and what still rests of it never exceed what was
submitted, and make it up exactly as long as it was not cancelled. -/
theorem lifetime_conservation (before after : List Call) (o : Order)
    (h : NoAddOverflow S (before ++ .submit o :: after)) :
    ∃ (rs : List Response) (response : Response) (later : List Response) (e : Engine S),
      (∀ pr, Engine.new.run pr (before ++ .submit o :: after) =
        .ok (rs ++ response :: later, e)) ∧ rs.length = before.length ∧
      ∀ own, response = .ok own →
        let events := window o.id own (logOf later)
        let resting := if .accepted o.id ∈ logOf later then 0 else e.restingQty o.id
        filledOf o.id events + resting ≤ o.rem ∧
          (filledOf o.id events + resting = o.rem ↔ .cancelled o.id ∉ events) := by
  obtain ⟨e, q, hrun, hrep, hres, hok⟩ := reach h
  have hok₁ : Ok (RefBook.new.run before).2 := Ok.new.run before
  rw [run_append] at hrun hres
  refine ⟨(RefBook.new.run before).1, ((RefBook.new.run before).2.call (.submit o)).1,
    (((RefBook.new.run before).2.call (.submit o)).2.run after).1, e, hrun, Runs.length_run _ _, ?_⟩
  intro own hown events resting
  rcases call_effect hok₁ (.submit o) with ⟨err, hc⟩ | ⟨evs, hevs, he⟩
  · rw [hc] at hown
    simp at hown
  · obtain rfl : evs = own := by
      rw [hevs] at hown
      exact Except.ok.inj hown
    have hl := (Lifetime.start he).run (hok₁.call _) after
    change e.book.resting = (((RefBook.new.run before).2.call (.submit o)).2.run after).2 at hres
    rw [← hres] at hl
    cases hl with
    | reused hreused hbal =>
      have hresting : resting = 0 := if_pos hreused
      rw [hresting, Nat.add_zero]
      exact hbal
    | gone hopen hid hbal =>
      have hresting : resting = 0 := by
        rcases restingQty_eq hrep o.id with ⟨-, hq⟩ | ⟨s, x, hx, hxid, -⟩
        · exact (if_neg hopen).trans hq
        · exact absurd ((mem_ids _ _).mpr ⟨s, x, hx, hxid⟩) hid
      rw [hresting, Nat.add_zero]
      exact hbal
    | resting s x hopen hx hid hsum hno =>
      have hresting : resting = x.rem := by
        rcases restingQty_eq hrep o.id with ⟨hnot, -⟩ | ⟨s', y, hy, hyid, hq⟩
        · exact absurd ((mem_ids _ _).mpr ⟨s, x, hx, hid⟩) hnot
        · obtain ⟨-, rfl⟩ := hok.eq_of_id hx hy (hid.trans hyid.symm)
          exact (if_neg hopen).trans hq
      rw [hresting, hsum]
      exact ⟨le_refl _, by simpa using hno⟩

theorem lifetime_conservation_twoSided :
    ∃ (rs : List Response) (response : Response) (later : List Response)
      (e : Engine (FreeListSlab OrderNode)),
      (∀ pr, Engine.new.run pr twoSided = .ok (rs ++ response :: later, e)) ∧ rs.length = 1 ∧
      ∀ own, response = .ok own →
        let events := window ⟨2⟩ own (logOf later)
        let resting := if .accepted ⟨2⟩ ∈ logOf later then 0 else e.restingQty ⟨2⟩
        filledOf ⟨2⟩ events + resting ≤ 5 ∧
          (filledOf ⟨2⟩ events + resting = 5 ↔ .cancelled ⟨2⟩ ∉ events) :=
  lifetime_conservation (twoSided.take 1) (twoSided.drop 2) (makeOrder 2 .sell 102 5 2 .limit .gtc)
    twoSided_noAddOverflow

end Ordust
