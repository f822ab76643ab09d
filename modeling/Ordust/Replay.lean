import Ordust.Log
import Ordust.Reach

/-!
# The event stream is a faithful log of the book

A consumer that sees nothing but the events holds the resting orders, and at each price the queue
of its level.
-/

namespace Ordust

/-! ## One event -/

/-- What an event that adds nothing makes of an entry. -/
def BookEvent.hitEntry (x : Entry) : BookEvent → Option Entry
  | .trade t =>
    if x.id = t.makerOrderId then
      if t.qty.toNat < x.remaining then some { x with remaining := x.remaining - t.qty.toNat }
      else none
    else some x
  | .cancelled id => if id = x.id then none else some x
  | _ => some x

theorem hitEntry_of_ne {t : Trade} {x : Entry} (h : x.id ≠ t.makerOrderId) :
    (BookEvent.trade t).hitEntry x = some x := if_neg h

theorem fillEntry_eq {t : Trade} {entries : List Entry} (hnd : (entries.map Entry.id).Nodup)
    {x : Entry} (hx : x ∈ entries) (hid : x.id = t.makerOrderId) (hle : t.qty.toNat ≤ x.remaining) :
    fillEntry t entries = some (entries.filterMap (BookEvent.trade t).hitEntry) := by
  induction entries with
  | nil => simp at hx
  | cons y entries ih =>
    obtain ⟨hy, hnd⟩ := List.nodup_cons.mp hnd
    by_cases hyid : y.id = t.makerOrderId
    · have hothers : ∀ z ∈ entries, (BookEvent.trade t).hitEntry z = some z := by
        intro z hz
        apply hitEntry_of_ne
        rw [← hyid]
        exact fun hc => hy (hc ▸ List.mem_map_of_mem hz)
      obtain rfl : x = y := by
        rcases List.mem_cons.mp hx with rfl | hx
        · rfl
        · exact absurd (List.mem_map_of_mem hx) (hid.trans hyid.symm ▸ hy)
      rw [fillEntry, if_pos hyid, if_neg (Nat.not_lt.mpr hle), List.filterMap_cons,
        List.filterMap_congr hothers, List.filterMap_some, BookEvent.hitEntry, if_pos hyid]
      by_cases heq : x.remaining = t.qty.toNat
      · rw [if_pos heq, if_neg (by omega)]
      · rw [if_neg heq, if_pos (by omega)]
    · have hmem : x ∈ entries := by
        rcases List.mem_cons.mp hx with rfl | hx
        · exact absurd hid hyid
        · exact hx
      rw [fillEntry, if_neg hyid, ih hnd hmem, List.filterMap_cons, hitEntry_of_ne hyid]
      rfl

theorem consume_eq {entries : List Entry} {ev : BookEvent} (h : RefBook.NoneRests [ev])
    (hnd : (entries.map Entry.id).Nodup)
    (hmaker : ∀ t, ev = .trade t →
      ∃ x ∈ entries, x.id = t.makerOrderId ∧ t.qty.toNat ≤ x.remaining) :
    consume entries ev = some (entries.filterMap ev.hitEntry) := by
  unfold consume
  cases ev with
  | restingOnBook id p n => exact absurd List.mem_cons_self (h id p n)
  | trade t =>
    obtain ⟨x, hx, hid, hle⟩ := hmaker t rfl
    exact fillEntry_eq hnd hx hid hle
  | accepted id => exact congrArg some List.filterMap_some.symm
  | rejected id err => exact congrArg some List.filterMap_some.symm
  | cancelled id =>
    show some (entries.filter (fun x => x.id ≠ id)) = _
    rw [← List.filterMap_eq_filter]
    congr 2
    funext x
    by_cases hc : x.id = id
    · simp [Option.guard, BookEvent.hitEntry, hc]
    · simp [Option.guard, BookEvent.hitEntry, hc, Ne.symm hc]

theorem hitEntry_entry (ev : BookEvent) (o : Order) :
    ev.hitEntry o.entry = (ev.hit o).map Order.entry := by
  cases ev with
  | trade t =>
    have hrem : o.entry.remaining = o.rem := rfl
    rw [BookEvent.hit_trade, BookEvent.hitEntry]
    by_cases hid : t.makerOrderId = o.id
    · rw [if_pos (show o.entry.id = _ from hid.symm), if_pos hid, hrem]
      by_cases hlt : t.qty.toNat < o.rem
      · have hsub := Order.rem_sub o t.qty (Nat.le_of_lt hlt)
        rw [if_pos hlt, if_pos hlt, Option.map_some, ← hsub]
        rfl
      · rw [if_neg hlt, if_neg hlt, Option.map_none]
    · rw [if_neg (show ¬ o.entry.id = _ from Ne.symm hid), if_neg hid, Option.map_some]
  | cancelled id =>
    show (if id = o.id then none else some o.entry) = (if id = o.id then none else some o).map _
    split <;> rfl
  | _ => rfl

theorem hitEntry_price {ev : BookEvent} {x y : Entry} (h : ev.hitEntry x = some y) :
    y.price = x.price := by
  cases ev with
  | trade t =>
    simp only [BookEvent.hitEntry] at h
    split at h
    · split at h
      · rw [← Option.some.inj h]
      · simp at h
    · rw [← Option.some.inj h]
  | cancelled id =>
    simp only [BookEvent.hitEntry] at h
    split at h
    · simp at h
    · rw [← Option.some.inj h]
  | _ => rw [← Option.some.inj h]

theorem filter_filterMap_price (f : Entry → Option Entry)
    (hf : ∀ x y, f x = some y → y.price = x.price) (p : Price) (entries : List Entry) :
    (entries.filterMap f).filter (fun x => x.price = p) =
      (entries.filter (fun x => x.price = p)).filterMap f := by
  induction entries with
  | nil => rfl
  | cons x xs ih =>
    by_cases hx : x.price = p
    · cases hfx : f x with
      | none => simp [hfx, hx, ih]
      | some y => simp [hfx, hx, ih, hf x y hfx]
    · cases hfx : f x with
      | none => simp [hfx, hx, ih]
      | some y => simp [hfx, hx, ih, hf x y hfx]

namespace RefBook

/-! ## The entries and the book -/

/-- The entries of the resting orders. -/
def entries (r : RefBook) : List Entry := (r .buy ++ r .sell).map Order.entry

/-- At each price the list holds the entries of the book, in order. -/
def Matches (es : List Entry) (r : RefBook) : Prop :=
  ∀ p, es.filter (fun x => x.price = p) = r.entries.filter (fun x => x.price = p)

theorem entries_after (r : RefBook) (ev : BookEvent) :
    (r.after [ev]).entries = r.entries.filterMap ev.hitEntry := by
  have hside : ∀ os : List Order, (os.filterMap (survive [ev])).map Order.entry =
      (os.map Order.entry).filterMap ev.hitEntry := by
    intro os
    rw [List.map_filterMap, List.filterMap_map]
    congr 1
    funext o
    rw [Function.comp_apply, hitEntry_entry, survive]
    cases ev.hit o <;> rfl
  rw [entries, entries, List.map_append, List.map_append, List.filterMap_append]
  exact congrArg₂ _ (hside _) (hside _)

theorem Matches.perm {es : List Entry} {r : RefBook} (h : Matches es r) : es.Perm r.entries := by
  rw [List.perm_iff_count]
  intro x
  have hx := congrArg (List.count x) (h x.price)
  rwa [List.count_filter (by simp), List.count_filter (by simp)] at hx

theorem Matches.nodup {es : List Entry} {r : RefBook} (h : Matches es r) (hok : Ok r) :
    (es.map Entry.id).Nodup := by
  rw [(h.perm.map Entry.id).nodup_iff, entries, List.map_map]
  exact hok.nodup

/-- Each trade finds its maker in the book that the events before it leave, with no less than it
takes. -/
def FindsMakers (r : RefBook) (evs : List BookEvent) : Prop :=
  ∀ before t later, evs = before ++ .trade t :: later →
    ∃ s, ∃ m ∈ r.after before s, m.id = t.makerOrderId ∧ t.qty.toNat ≤ m.rem

theorem FindsMakers.tail {r : RefBook} {ev : BookEvent} {evs : List BookEvent}
    (h : FindsMakers r (ev :: evs)) : FindsMakers (r.after [ev]) evs := by
  intro before t later hevs
  obtain ⟨s, m, hm, hfound⟩ := h (ev :: before) t later (by rw [hevs]; rfl)
  refine ⟨s, m, ?_, hfound⟩
  rwa [← after_append]

theorem FindsMakers.left {r : RefBook} {evs evs' : List BookEvent}
    (h : FindsMakers r (evs ++ evs')) : FindsMakers r evs := by
  intro before t later hevs
  exact h before t (later ++ evs') (by rw [hevs]; simp)

theorem Effect.findsMakers {r r' : RefBook} {c : Call} {evs : List BookEvent}
    (h : Effect r c evs r') (hok : Ok r) : FindsMakers r evs := by
  intro before t later hevs
  obtain ⟨o, ts₁, ts₂, n, rfl, hm, rfl⟩ := h.of_trade_split hevs
  obtain ⟨gone, m, rest, qty, hmakers, rfl, rfl, -, hle, -⟩ := matchOrders_trade hm.trades
  have hnd := hok.nodup_side (oppositeSide o.side)
  rw [hmakers, List.map_append, List.map_cons, List.nodup_append] at hnd
  have hgone : m.id ∉ gone.map Order.id :=
    fun hc => hnd.2.2 m.id hc m.id List.mem_cons_self rfl
  refine ⟨oppositeSide o.side, m, ?_, rfl, hle⟩
  -- The trades before it are with other makers.
  rw [after_accepted, mem_after]
  exact ⟨m, by rw [hmakers]; simp, survive_exhaust_of_not_mem o gone hgone⟩

theorem Matches.after {es : List Entry} {r : RefBook} (h : Matches es r) (hok : Ok r)
    (evs : List BookEvent) (hno : NoneRests evs) (hfinds : FindsMakers r evs) :
    ∃ es', evs.foldlM consume es = some es' ∧ Matches es' (r.after evs) := by
  induction evs generalizing es r with
  | nil =>
    rw [after_nil]
    exact ⟨es, rfl, h⟩
  | cons ev evs ih =>
    have hev : NoneRests [ev] := by
      intro id p n hm
      exact hno id p n (List.mem_singleton.mp hm ▸ List.mem_cons_self)
    have hmaker : ∀ t, ev = .trade t →
        ∃ x ∈ es, x.id = t.makerOrderId ∧ t.qty.toNat ≤ x.remaining := by
      rintro t rfl
      obtain ⟨s, m, hm, hid, hle⟩ := hfinds [] t evs rfl
      rw [after_nil] at hm
      refine ⟨m.entry, h.perm.mem_iff.mpr (List.mem_map_of_mem ?_), hid, hle⟩
      rw [List.mem_append]
      cases s
      · exact Or.inl hm
      · exact Or.inr hm
    have hconsume := consume_eq hev (h.nodup hok) hmaker
    have hstep : Matches (es.filterMap ev.hitEntry) (r.after [ev]) := by
      intro p
      rw [entries_after, filter_filterMap_price _ (fun _ _ hxy => hitEntry_price hxy), h p,
        ← filter_filterMap_price _ (fun _ _ hxy => hitEntry_price hxy)]
    obtain ⟨es', hrest, hmatches⟩ := ih hstep (hok.after [ev])
      (fun id p n hm => hno id p n (List.mem_cons_of_mem _ hm)) hfinds.tail
    refine ⟨es', ?_, ?_⟩
    · rw [List.foldlM_cons, hconsume]
      exact hrest
    · rwa [← after_append] at hmatches

theorem filter_insertOrder {o : Order} {os : List Order} (h : Sorted o.side os) (p : Price) :
    (insertOrder o os).filter (fun x => x.px = p) =
      os.filter (fun x => x.px = p) ++ (if o.px = p then [o] else []) := by
  obtain ⟨before, after, rfl, hb, ha, hins⟩ := h.exists_cut
  rw [hins]
  by_cases hp : o.px = p
  · have hnone : after.filter (fun x => x.px = p) = [] := by
      rw [List.filter_eq_nil_iff]
      intro y hy
      rw [decide_eq_true_eq]
      rintro rfl
      exact o.side.better_irrefl _ (hp ▸ ha y hy)
    simp [hp, hnone]
  · simp [hp]

theorem filter_entries (r : RefBook) (p : Price) :
    r.entries.filter (fun x => x.price = p) =
      ((r .buy).filter (fun o => o.px = p) ++ (r .sell).filter (fun o => o.px = p)).map Order.entry := by
  rw [entries, List.filter_map, List.filter_append]
  rfl

theorem Matches.rest {es : List Entry} {r : RefBook} (h : Matches es r) (hok : Ok r) {o : Order}
    (hok' : Ok (r.rest o)) : Matches (es ++ [o.entry]) (r.rest o) := by
  intro p
  have hins := filter_insertOrder (hok.sorted o.side) p
  have hnew : [o.entry].filter (fun x => x.price = p) =
      (if o.px = p then [o] else []).map Order.entry := by
    by_cases hp : o.px = p <;> simp [Order.entry, hp]
  rw [List.filter_append, h p, filter_entries, filter_entries, hnew, RefBook.rest]
  cases hs : o.side with
  | sell =>
    rw [hs] at hins
    rw [Function.update_self, Function.update_of_ne (by simp), hins]
    simp
  | buy =>
    rw [hs] at hins
    rw [Function.update_self, Function.update_of_ne (by simp), hins]
    by_cases hp : o.px = p
    · -- No ask is at the price of a bid.
      have hnone : (r .sell).filter (fun x => x.px = p) = [] := by
        rw [List.filter_eq_nil_iff]
        intro x hx
        rw [decide_eq_true_eq]
        rintro rfl
        have hlt := hok'.uncrossed o (mem_rest.mpr (Or.inl ⟨hs.symm, rfl⟩)) x
          (mem_rest.mpr (Or.inr hx))
        exact absurd hp (ne_of_lt hlt)
      simp [hnone]
    · simp [hp]

theorem Matches.effect {es : List Entry} {r r' : RefBook} {c : Call} {evs : List BookEvent}
    (h : Matches es r) (hok : Ok r) (he : Effect r c evs r') :
    ∃ es', evs.foldlM consume es = some es' ∧ Matches es' r' := by
  have hok' := he.ok hok
  have hfinds := he.findsMakers hok
  rcases he.shape with ⟨hno, rfl⟩ | ⟨o, ts, n, rfl, -, -, rfl, rfl⟩
  · exact h.after hok evs hno hfinds
  · rw [after_resting] at hok' ⊢
    obtain ⟨es', htrades, hmatches⟩ := h.after hok _ (noneRests_trades o.id ts) hfinds.left
    refine ⟨es' ++ [(o.withRemaining n).entry], ?_, hmatches.rest (hok.after _) hok'⟩
    rw [List.foldlM_append, htrades]
    rfl

theorem replay_append (log evs : List BookEvent) :
    replay (log ++ evs) = (replay log).bind (fun es => evs.foldlM consume es) := by
  unfold replay
  rw [List.foldlM_append]
  rfl

theorem run_matches (calls : List Call) :
    ∃ es, replay (logOf (RefBook.new.run calls).1) = some es ∧
      Matches es (RefBook.new.run calls).2 := by
  have hstep : ∀ (rs : List Response) (r : RefBook) (c : Call),
      (Ok r ∧ ∃ es, replay (logOf rs) = some es ∧ Matches es r) →
      Ok (r.call c).2 ∧ ∃ es, replay (logOf (rs ++ [(r.call c).1])) = some es ∧
        Matches es (r.call c).2 := by
    rintro rs r c ⟨hok, es, hreplay, hm⟩
    refine ⟨hok.call c, ?_⟩
    rw [logOf_snoc, replay_append, hreplay, Option.bind_some]
    rcases call_effect hok c with ⟨err, hc⟩ | ⟨evs, hevs, he⟩
    · rw [hc]
      exact ⟨es, rfl, hm⟩
    · rw [hevs]
      exact hm.effect hok he
  have := Runs.run_history (fun rs r => Ok r ∧ ∃ es, replay (logOf rs) = some es ∧ Matches es r) hstep
    [] RefBook.new calls ⟨Ok.new, [], rfl, fun p => rfl⟩
  exact this.2

end RefBook

variable {S : Type} [Slab S OrderNode]

open RefBook

theorem RefBook.Ok.one_side {r : RefBook} (hok : Ok r) {s : Side} {o : Order} (ho : o ∈ r s)
    (x : Order) (hx : x ∈ r (oppositeSide s)) : x.px ≠ o.px := by
  intro hp
  have := hok.uncrossed_of ho hx
  rw [hp] at this
  exact (oppositeSide s).better_irrefl _ this

theorem RefBook.Ok.filter_entries {r : RefBook} (hok : Ok r) {s : Side} {o : Order} (ho : o ∈ r s) :
    r.entries.filter (fun x => x.price = o.px) =
      ((r s).filter (fun x => x.px = o.px)).map Order.entry := by
  have hnone : (r (oppositeSide s)).filter (fun x => x.px = o.px) = [] := by
    rw [List.filter_eq_nil_iff]
    intro x hx
    rw [decide_eq_true_eq]
    exact hok.one_side ho x hx
  rw [RefBook.filter_entries]
  cases s
  · rw [show r .sell = r (oppositeSide .buy) from rfl, hnone, List.append_nil]
  · rw [show r .buy = r (oppositeSide .sell) from rfl, hnone, List.nil_append]

/-- The replay never fails. Its list holds the resting orders, and in its order each level's queue. -/
theorem replay_faithful (calls : List Call) (h : NoAddOverflow S calls) :
    ∃ (rs : List Response) (e : Engine S) (es : List Entry),
      (∀ pr, Engine.new.run pr calls = .ok (rs, e)) ∧ replay (logOf rs) = some es ∧
      es.Perm ((e.book.resting .buy ++ e.book.resting .sell).map Order.entry) ∧
      (∀ s p l, (p, l) ∈ e.book.iterSide s →
        es.filter (fun x => x.price = p) =
          (l.queue e.book.arena).map Order.entry ∧
        ∀ l', (p, l') ∉ e.book.iterSide (oppositeSide s)) ∧
      ∀ p, (∀ s l, (p, l) ∉ e.book.iterSide s) →
        es.filter (fun x => x.price = p) = [] := by
  obtain ⟨e, q, hrun, hrep, hres, hok⟩ := reach h
  obtain ⟨es, hreplay, hm⟩ := run_matches calls
  rw [← hres] at hm
  have hqueue : ∀ s p l, (p, l) ∈ e.book.iterSide s →
      ∃ o ∈ e.book.resting s, o.px = p ∧ l.queue e.book.arena = (q s p).orders := by
    intro s p l hl
    obtain ⟨hne, rfl⟩ := hrep.level_of_mem hl
    obtain ⟨⟨k, o⟩, ys, hq⟩ := List.exists_cons_of_ne_nil hne
    have hko : (k, o) ∈ q s p := by
      rw [hq]
      exact List.mem_cons_self
    exact ⟨o, (hrep.mem_resting s o).mpr ⟨p, k, hko⟩, (hrep.rests s p k o hko).px,
      queue_of e.book.arena p _ _ (hrep.stored s p)⟩
  refine ⟨_, e, es, hrun, hreplay, hm.perm, ?_, ?_⟩
  · intro s p l hl
    obtain ⟨o, ho, rfl, hl'⟩ := hqueue s p l hl
    refine ⟨?_, fun l' hopp => ?_⟩
    · rw [hm o.px, hok.filter_entries ho, hrep.filter_px, hl']
    · obtain ⟨x, hx, hpx, -⟩ := hqueue _ _ l' hopp
      exact hok.one_side ho x hx hpx
  · intro p hno
    have hside : ∀ s, (e.book.resting s).filter (fun o => o.px = p) = [] := by
      intro s
      rw [hrep.filter_px]
      by_cases hq : q s p = []
      · rw [hq]
        rfl
      · obtain ⟨l, hl⟩ := hrep.exists_level hq
        exact absurd hl (hno s l)
    rw [hm p, filter_entries, hside, hside]
    rfl

theorem replay_faithful_twoSided :
    ∃ (rs : List Response) (e : Engine (FreeListSlab OrderNode)) (es : List Entry),
      (∀ pr, Engine.new.run pr twoSided = .ok (rs, e)) ∧ replay (logOf rs) = some es ∧
      es.Perm ((e.book.resting .buy ++ e.book.resting .sell).map Order.entry) ∧
      (∀ s p l, (p, l) ∈ e.book.iterSide s →
        es.filter (fun x => x.price = p) =
          (l.queue e.book.arena).map Order.entry ∧
        ∀ l', (p, l') ∉ e.book.iterSide (oppositeSide s)) ∧
      ∀ p, (∀ s l, (p, l) ∉ e.book.iterSide s) →
        es.filter (fun x => x.price = p) = [] :=
  replay_faithful twoSided twoSided_noAddOverflow

end Ordust
