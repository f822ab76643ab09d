import Ordust.Log
import Ordust.Reach

/-!
# Price-time priority

Of two resting orders the one in front is exhausted before the one behind trades. In front is
the better price, and at one price what came to rest earlier.
-/

namespace Ordust

open RefBook

/-! ## Coming to rest earlier -/

theorem RestedEarlier.append {log : List BookEvent} {a b : OrderId} (h : RestedEarlier log a b)
    {evs : List BookEvent} (hno : ∀ p n, .restingOnBook a p n ∉ evs) :
    RestedEarlier (log ++ evs) a b := by
  obtain ⟨before, after, p, n, rfl, hlast, p', n', hb⟩ := h
  refine ⟨before, after ++ evs, p, n, by simp, ?_, p', n', List.mem_append_left _ hb⟩
  intro p n hm
  rcases List.mem_append.mp hm with hm | hm
  · exact hlast p n hm
  · exact hno p n hm

theorem RestedEarlier.newcomer {log evs : List BookEvent} {a b : OrderId} {p : Price} {n : Qty}
    (ha : .restingOnBook a p n ∈ log) (hno : ∀ p n, .restingOnBook a p n ∉ evs)
    {p' : Price} {n' : Qty} (hb : .restingOnBook b p' n' ∈ evs) : RestedEarlier (log ++ evs) a b := by
  -- Cut the log at the last time that `a` came to rest.
  have hcut : ∃ before after p n, log = before ++ .restingOnBook a p n :: after ∧
      ∀ p n, .restingOnBook a p n ∉ after := by
    induction log using List.reverseRecOn with
    | nil => simp at ha
    | append_singleton log ev ih =>
      by_cases hev : ∃ p n, ev = .restingOnBook a p n
      · obtain ⟨p, n, rfl⟩ := hev
        exact ⟨log, [], p, n, rfl, by simp⟩
      · have hne : ∀ p n, ev ≠ .restingOnBook a p n := fun p n he => hev ⟨p, n, he⟩
        rw [List.mem_append, List.mem_singleton] at ha
        obtain ⟨before, after, p₁, n₁, rfl, hlast⟩ := ih (ha.resolve_right (fun he => hne p n he.symm))
        refine ⟨before, after ++ [ev], p₁, n₁, by simp, ?_⟩
        intro p₂ n₂ hm
        rw [List.mem_append, List.mem_singleton] at hm
        exact hm.elim (hlast p₂ n₂) (fun he => hne p₂ n₂ he.symm)
  obtain ⟨before, after, p₁, n₁, rfl, hlast⟩ := hcut
  refine ⟨before, after ++ evs, p₁, n₁, by simp, ?_, p', n', List.mem_append_right _ hb⟩
  intro p₂ n₂ hm
  rw [List.mem_append] at hm
  exact hm.elim (hlast p₂ n₂) (hno p₂ n₂)

theorem RestedEarlier.asymm {log : List BookEvent} {a b : OrderId} (h : RestedEarlier log a b) :
    ¬ RestedEarlier log b a := by
  rintro ⟨before', after', p', n', hlog', hlast', q', m', ha⟩
  obtain ⟨before, after, p, n, hlog, hlast, q, m, hb⟩ := h
  rw [hlog, List.append_eq_append_iff] at hlog'
  rcases hlog' with ⟨w, rfl, hw⟩ | ⟨w, rfl, hw⟩
  · cases w with
    | nil =>
      obtain ⟨-, rfl⟩ := List.cons.inj hw
      exact hlast q' m' ha
    | cons x w =>
      obtain ⟨rfl, rfl⟩ := List.cons.inj hw
      exact hlast q' m' (by simp [ha])
  · cases w with
    | nil =>
      obtain ⟨-, rfl⟩ := List.cons.inj hw
      exact hlast' q m hb
    | cons x w =>
      obtain ⟨rfl, rfl⟩ := List.cons.inj hw
      exact hlast' q m (by simp [hb])

/-- At each price the resting orders stand in the order in which they came to rest. -/
structure Arrived (log : List BookEvent) (r : RefBook) : Prop where
  rested : ∀ s, ∀ o ∈ r s, ∃ p n, .restingOnBook o.id p n ∈ log
  order : ∀ s, (r s).Pairwise (fun x y => x.px = y.px → RestedEarlier log x.id y.id)

theorem RefBook.Effect.resting_fresh {r r' : RefBook} {c : Call} {evs : List BookEvent}
    (h : Effect r c evs r') {id : OrderId} (hid : id ∈ r.ids) (p : Price) (n : Qty) :
    .restingOnBook id p n ∉ evs := by
  intro hm
  rcases h.shape with ⟨hno, -⟩ | ⟨o, ts, m, -, hmt, -, rfl, -⟩
  · exact hno id p n hm
  · have : id = o.id := by
      simp only [List.mem_append, List.mem_singleton] at hm
      rcases hm with hm | hm
      · exact absurd hm (noneRests_trades o.id ts id p n)
      · exact (BookEvent.restingOnBook.inj hm).1
    exact hmt.fresh (this ▸ hid)

theorem Arrived.effect {log evs : List BookEvent} {r r' : RefBook} {c : Call} (h : Arrived log r)
    (hok : Ok r) (he : Effect r c evs r') : Arrived (log ++ evs) r' := by
  have hfresh : ∀ s, ∀ x ∈ r s, ∀ p n, .restingOnBook x.id p n ∉ evs := by
    intro s x hx
    exact he.resting_fresh ((mem_ids r _).mpr ⟨s, x, hx, rfl⟩)
  have hpair : ∀ s, (r.after evs s).Pairwise
      (fun x y => x.px = y.px → RestedEarlier (log ++ evs) x.id y.id) := by
    intro s
    apply pairwise_after evs (h.order s)
    intro x hx y _ hxy n n' hpx
    exact (hxy hpx).append (hfresh s x hx)
  constructor
  · intro s y hy
    rcases he.mem_cases hy with ⟨x, hx, hs⟩ | ⟨o, ts, n, -, -, -, rfl, rfl⟩
    · obtain ⟨n, rfl, -⟩ := survive_eq_some hs
      obtain ⟨p, n', hm⟩ := h.rested s x hx
      exact ⟨p, n', List.mem_append_left _ hm⟩
    · exact ⟨o.px, ⟨n⟩, by simp⟩
  · intro s
    rcases he.shape with ⟨-, rfl⟩ | ⟨o, ts, n, -, -, -, hevs, rfl⟩
    · exact hpair s
    · by_cases hs : s = o.side
      · subst hs
        rw [RefBook.rest, show (o.withRemaining n).side = o.side from rfl, Function.update_self]
        have hsorted : Sorted (o.withRemaining n).side (r.after evs o.side) :=
          (hok.after evs).sorted o.side
        rw [hsorted.pairwise_insertOrder_iff]
        refine ⟨hpair o.side, ?_⟩
        intro x hx _
        obtain ⟨z, hz, hzx⟩ := mem_after.mp hx
        obtain ⟨k, rfl, -⟩ := survive_eq_some hzx
        obtain ⟨p, m, hm⟩ := h.rested o.side z hz
        have hnew : .restingOnBook o.id o.px ⟨n⟩ ∈ evs := by
          rw [hevs]
          simp
        exact RestedEarlier.newcomer hm (hfresh o.side z hz) hnew
      · rw [RefBook.rest, show (o.withRemaining n).side = o.side from rfl, Function.update_of_ne hs]
        exact hpair s

theorem run_arrived (calls : List Call) :
    Arrived (logOf (RefBook.new.run calls).1) (RefBook.new.run calls).2 := by
  have hstep : ∀ (rs : List Response) (r : RefBook) (c : Call), Ok r ∧ Arrived (logOf rs) r →
      Ok (r.call c).2 ∧ Arrived (logOf (rs ++ [(r.call c).1])) (r.call c).2 := by
    rintro rs r c ⟨hok, ha⟩
    refine ⟨hok.call c, ?_⟩
    rw [logOf_snoc]
    rcases call_effect hok c with ⟨err, hc⟩ | ⟨evs, hevs, he⟩
    · rw [hc]
      simpa [eventsOf] using ha
    · rw [hevs]
      exact ha.effect hok he
  exact (Runs.run_history (fun rs r => Ok r ∧ Arrived (logOf rs) r) hstep [] RefBook.new calls
    ⟨Ok.new, ⟨by simp [RefBook.new], fun s => List.Pairwise.nil⟩⟩).2

/-! ## The order behind waits -/

theorem pair_sublist {α : Type} {x y : α} {l : List α} (hx : x ∈ l) (hy : y ∈ l) (hne : x ≠ y) :
    [x, y].Sublist l ∨ [y, x].Sublist l := by
  obtain ⟨xs, zs, rfl⟩ := List.append_of_mem hx
  rw [List.mem_append, List.mem_cons] at hy
  rcases hy with hy | hy | hy
  · right
    exact (List.singleton_sublist.mpr hy).append (List.singleton_sublist.mpr List.mem_cons_self)
  · exact absurd hy.symm hne
  · left
    exact ((List.singleton_sublist.mpr hy).cons_cons x).trans (List.sublist_append_right _ _)

/-- `a` is in front of `b` on the side `s`. -/
def Ahead (r : RefBook) (s : Side) (a b : Order) : Prop := [a, b].Sublist (r s)

theorem Ahead.fst {r : RefBook} {s : Side} {a b : Order} (h : Ahead r s a b) : a ∈ r s :=
  h.subset List.mem_cons_self

theorem Ahead.snd {r : RefBook} {s : Side} {a b : Order} (h : Ahead r s a b) : b ∈ r s :=
  h.subset (by simp)

theorem mem_of_ahead {a b : Order} {gone rest : List Order}
    (h : [a, b].Sublist (gone ++ b :: rest)) (hnd : ((gone ++ b :: rest).map Order.id).Nodup) :
    a ∈ gone := by
  rw [List.map_append, List.map_cons, List.nodup_append, List.nodup_cons] at hnd
  obtain ⟨l₁, l₂, hl, h₁, h₂⟩ := List.sublist_append_iff.mp h
  cases l₁ with
  | cons x l₁ =>
    obtain ⟨rfl, -⟩ := List.cons.inj hl
    exact h₁.subset List.mem_cons_self
  | nil =>
    -- Both would stand from `b` on, and `b` only once.
    obtain rfl : [a, b] = l₂ := hl
    have hb : b ∈ rest := by
      cases h₂ with
      | cons _ h₂ => exact h₂.subset (by simp)
      | cons_cons _ h₂ => exact h₂.subset (by simp)
    exact absurd (List.mem_map_of_mem hb) hnd.2.1.1

/-- When the order behind trades, nothing is left of the one in front. -/
theorem Ahead.exhausted {r r' : RefBook} {c : Call} {evs evs₁ evs₂ : List BookEvent} {s : Side}
    {a b : Order} {t : Trade} (h : Ahead r s a b) (hok : Ok r) (he : Effect r c evs r')
    (hevs : evs = evs₁ ++ .trade t :: evs₂) (ht : t.makerOrderId = b.id) :
    survive evs₁ a = none := by
  obtain ⟨o, ts₁, ts₂, n, rfl, hm, rfl⟩ := he.of_trade_split hevs
  obtain ⟨gone, m, rest, qty, hmk, rfl, rfl, -⟩ := matchOrders_trade hm.trades
  have hmem : m ∈ r (oppositeSide o.side) := by
    rw [hmk]
    simp
  obtain ⟨rfl, rfl⟩ := hok.eq_of_id hmem h.snd ht
  have hnd := hok.nodup_side (oppositeSide o.side)
  rw [Ahead, hmk] at h
  rw [hmk] at hnd
  have ha := mem_of_ahead h hnd
  rw [List.map_append, List.nodup_append] at hnd
  exact survive_exhaust o gone hnd.1 ha

theorem Ahead.effect {r r' : RefBook} {c : Call} {evs : List BookEvent} {s : Side}
    {a b a' b' : Order} (h : Ahead r s a b) (he : Effect r c evs r')
    (ha : survive evs a = some a') (hb : survive evs b = some b') : Ahead r' s a' b' := by
  have hafter : [a', b'].Sublist (r.after evs s) := by
    have := List.Sublist.filterMap (survive evs) h
    simpa [ha, hb, RefBook.after] using this
  rcases he.shape with ⟨-, rfl⟩ | ⟨o, ts, n, -, -, -, -, rfl⟩
  · exact hafter
  · refine hafter.trans ?_
    by_cases hs : s = o.side
    · subst hs
      rw [RefBook.rest, show (o.withRemaining n).side = o.side from rfl, Function.update_self,
        insertOrder]
      conv_lhs => rw [← List.takeWhile_append_dropWhile
        (p := fun x => decide ¬ (o.withRemaining n).side.better (o.withRemaining n).px x.px)
        (l := r.after evs o.side)]
      exact List.Sublist.append_left (List.sublist_cons_self _ _) _
    · rw [RefBook.rest, show (o.withRemaining n).side = o.side from rfl, Function.update_of_ne hs]

/-- As long as both rest, the order behind does not trade. -/
theorem Ahead.run {r : RefBook} {s : Side} {a b : Order} (h : Ahead r s a b) (hok : Ok r)
    (calls : List Call) {evs evs' : List BookEvent} {t : Trade}
    (hlog : logOf (r.run calls).1 = evs ++ .trade t :: evs')
    (ha : survive evs a ≠ none) (hb : survive evs b ≠ none) : t.makerOrderId ≠ b.id := by
  induction calls generalizing r a b evs with
  | nil => simp [RefBook.run, logOf] at hlog
  | cons c calls ih =>
    rw [RefBook.run, Runs.run_cons, logOf_cons] at hlog
    rcases call_effect hok c with ⟨err, hc⟩ | ⟨own, hown, he⟩
    · rw [hc] at hlog
      exact ih h hok hlog ha hb
    · rw [hown, eventsOf] at hlog
      have hlater : ∀ w, evs = own ++ w → logOf ((r.call c).2.run calls).1 = w ++ .trade t :: evs' →
          t.makerOrderId ≠ b.id := by
        rintro w rfl hw
        rw [survive_append] at ha hb
        cases ha' : survive own a with
        | none => simp [ha'] at ha
        | some a' =>
          cases hb' : survive own b with
          | none => simp [hb'] at hb
          | some b' =>
            rw [ha', Option.bind_some] at ha
            rw [hb', Option.bind_some] at hb
            have hid : b'.id = b.id := by
              obtain ⟨n, rfl, -⟩ := survive_eq_some hb'
              rfl
            rw [← hid]
            exact ih (h.effect he ha' hb') (he.ok hok) hw ha hb
      rcases List.append_eq_append_iff.mp hlog with ⟨w, hevs, hw⟩ | ⟨w, hevs, hw⟩
      · exact hlater w hevs hw
      · cases w with
        | nil => exact hlater [] (by simpa using hevs.symm) hw.symm
        | cons ev w =>
          -- The trade is one of this call.
          obtain ⟨rfl, -⟩ := List.cons.inj hw
          exact fun ht => ha (h.exhausted hok he hevs ht)

theorem Ahead.waits {r : RefBook} {s : Side} {a b : Order} (h : Ahead r s a b) (hok : Ok r)
    (calls : List Call) {evs evs' : List BookEvent} {t : Trade}
    (hlog : logOf (r.run calls).1 = evs ++ .trade t :: evs') (ha : StillRests a evs)
    (hb : StillRests b evs) : t.makerOrderId ≠ b.id := by
  obtain ⟨a', ha'⟩ := (stillRests_iff (hok.rests s a h.fst).pos).mp ha
  obtain ⟨b', hb'⟩ := (stillRests_iff (hok.rests s b h.snd).pos).mp hb
  exact h.run hok calls hlog (by simp [ha']) (by simp [hb'])

/-- Better priced, or at the price of the other and there before it. -/
def Precedes (log : List BookEvent) (s : Side) (a b : Order) : Prop :=
  s.better a.px b.px ∨ (a.px = b.px ∧ RestedEarlier log a.id b.id)

theorem Precedes.ahead {log : List BookEvent} {r : RefBook} {s : Side} {a b : Order}
    (h : Precedes log s a b) (hok : Ok r) (harr : Arrived log r) (ha : a ∈ r s) (hb : b ∈ r s) :
    Ahead r s a b := by
  have hne : a ≠ b := by
    rintro rfl
    rcases h with h | ⟨-, h⟩
    · exact s.better_irrefl _ h
    · exact h.asymm h
  rcases pair_sublist ha hb hne with hab | hba
  · exact hab
  · exfalso
    rcases h with h | ⟨hpx, h⟩
    · have := List.rel_of_pairwise_cons ((hok.sorted s).sublist hba) (List.mem_singleton_self a)
      exact this h
    · have := List.rel_of_pairwise_cons ((harr.order s).sublist hba) (List.mem_singleton_self a)
      exact h.asymm (this hpx.symm)

variable {S : Type} [Slab S OrderNode]

/-- A price that the limit of a taker on side `s` allows. -/
def Side.within (s : Side) (limit p : Price) : Prop :=
  match s with
  | .buy => p ≤ limit
  | .sell => limit ≤ p

/-- A trade of the taker `o` with a resting order, at the price of that order. -/
structure PricedBy (r : RefBook) (o : Order) (t : Trade) : Prop where
  taker : t.takerOrderId = o.id
  maker : ∃ m ∈ r (oppositeSide o.side), t.makerOrderId = m.id ∧ m.price = some t.price
  limit : o.orderType = .limit → ∃ limit, o.price = some limit ∧ o.side.within limit t.price

theorem RefBook.Matched.pricedBy {r : RefBook} {o : Order} {ts : List Trade} {n : UInt64}
    (h : Matched r o ts n) (hok : Ok r) {t : Trade} (ht : t ∈ ts) : PricedBy r o t := by
  obtain ⟨htk, m, hm, hid, hpx, hc⟩ := h.trade ht
  refine ⟨htk, ⟨m, hm, hid, ?_⟩, ?_⟩
  · rw [hpx]
    exact (hok.rests _ m hm).price
  · intro hlim
    obtain ⟨limit, hp⟩ := Option.ne_none_iff_exists'.mp ((validate_ok h.valid).2.1 hlim)
    refine ⟨limit, hp, ?_⟩
    have hl : o.px = limit := by simp [Order.px, hp]
    rw [Order.crossesAt, hlim, hl, ← hpx] at hc
    unfold Side.within
    cases hs : o.side <;> simp only [hs, decide_eq_true_eq] at hc <;> exact hc

/-- Of two orders that rest at one moment the one behind makes no trade while the one in front
rests, and every trade is at the price of its maker and within the limit of its taker. -/
theorem price_time_priority (before after : List Call) (h : NoAddOverflow S (before ++ after)) :
    ∃ (rs later : List Response) (e e' : Engine S),
      (∀ pr, Engine.new.run pr before = .ok (rs, e)) ∧ (∀ pr, e.run pr after = .ok (later, e')) ∧
      (∀ s, ∀ a ∈ e.book.resting s, ∀ b ∈ e.book.resting s, Precedes (logOf rs) s a b →
        ∀ evs t evs', logOf later = evs ++ .trade t :: evs' → StillRests a evs → StillRests b evs →
          t.makerOrderId ≠ b.id) ∧
      ∀ evs, later.head? = some (.ok evs) → ∀ t, .trade t ∈ evs →
        ∃ o, after.head? = some (.submit o) ∧ PricedBy e.book.resting o t := by
  obtain ⟨e, e', q, hrun, hafter, hrep, hres, hok⟩ := reach_between h
  refine ⟨_, _, e, e', hrun, hafter, ?_, ?_⟩
  · intro s a ha b hb hprec evs t evs' hlog hra hrb
    have hahead : Ahead e.book.resting s a b :=
      hprec.ahead hok (hres ▸ run_arrived before) ha hb
    exact hahead.waits hok after hlog hra hrb
  · intro evs hevs t ht
    cases after with
    | nil => simp [RefBook.run] at hevs
    | cons c after =>
      have hc : (e.book.resting.call c).1 = .ok evs := Option.some.inj hevs
      rcases call_effect hok c with ⟨err, herr⟩ | ⟨own, hown, he⟩
      · rw [herr] at hc
        simp at hc
      · obtain rfl : own = evs := Except.ok.inj (hown.symm.trans hc)
        obtain ⟨o, ts, n, rfl, hm, ht⟩ := he.of_trade ht
        exact ⟨o, rfl, hm.pricedBy hok ht⟩

theorem price_time_priority_cancelMiddleOrder :
    ∃ (rs later : List Response) (e e' : Engine (FreeListSlab OrderNode)),
      (∀ pr, Engine.new.run pr (cancelMiddleOrder.take 3) = .ok (rs, e)) ∧
      (∀ pr, e.run pr (cancelMiddleOrder.drop 3) = .ok (later, e')) ∧
      (∀ s, ∀ a ∈ e.book.resting s, ∀ b ∈ e.book.resting s, Precedes (logOf rs) s a b →
        ∀ evs t evs', logOf later = evs ++ .trade t :: evs' → StillRests a evs → StillRests b evs →
          t.makerOrderId ≠ b.id) ∧
      ∀ evs, later.head? = some (.ok evs) → ∀ t, .trade t ∈ evs →
        ∃ o, (cancelMiddleOrder.drop 3).head? = some (.submit o) ∧ PricedBy e.book.resting o t :=
  price_time_priority (cancelMiddleOrder.take 3) (cancelMiddleOrder.drop 3)
    cancelMiddleOrder_noAddOverflow

end Ordust
