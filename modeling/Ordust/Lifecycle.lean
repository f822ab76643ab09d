import Ordust.MatchLoop
import Ordust.Log

/-!
# The life of an order in the log

What may be reported of an identifier, and in which order, as a machine that stops at the first
event that must not come. The log of a run never stops it, and the machine ends where the book is.
-/

namespace Ordust

open RefBook

variable {S : Type} [Slab S OrderNode]

/-- An identifier is off the book, or its order is being submitted, or it rests. -/
inductive Life where
  | out
  | taking
  | resting (price : Price) (left : Nat)
  deriving DecidableEq

namespace Life

/-- Another call begins, so that a submission is over. -/
def ended : Life → Life
  | .taking => .out
  | life => life

/-- Another submission goes on, so that there is none of this order. -/
def aside : Life → Option Life
  | .taking => none
  | life => some life

/-- A resting order is reported to be accepted by nobody. -/
def accept : Life → Option Life
  | .resting _ _ => none
  | _ => some .taking

def take (t : Trade) : Life → Option Life
  | .taking => if 0 < t.qty.toNat then some .taking else none
  | _ => none

/-- A maker trades at its own price, something, and no more than what is left of it. -/
def make (t : Trade) : Life → Option Life
  | .resting price left =>
    if t.price = price ∧ 0 < t.qty.toNat ∧ t.qty.toNat ≤ left then
      if t.qty.toNat = left then some .out else some (.resting price (left - t.qty.toNat))
    else none
  | _ => none

def cancel : Life → Option Life
  | .out => none
  | _ => some .out

def rest (price : Price) (left : Nat) : Life → Option Life
  | .taking => if 0 < left then some (.resting price left) else none
  | _ => none

/-- What an event does to the life of `id`. -/
def step (id : OrderId) (life : Life) : BookEvent → Option Life
  | .accepted i => if i = id then life.accept else some life.ended
  | .rejected _ _ => none
  | .trade t =>
    if t.takerOrderId = id then
      if t.makerOrderId = id then none else life.take t
    else if t.makerOrderId = id then life.make t
    else life.aside
  | .cancelled i => if i = id then life.cancel else some life.ended
  | .restingOnBook i price left => if i = id then life.rest price left.toNat else life.aside

/-- What several do, one after the other. -/
def path (id : OrderId) (life : Life) (evs : List BookEvent) : Option Life :=
  evs.foldlM (step id) life

@[simp] theorem path_nil (id : OrderId) (life : Life) : life.path id [] = some life := rfl

@[simp] theorem path_cons (id : OrderId) (life : Life) (ev : BookEvent) (evs : List BookEvent) :
    life.path id (ev :: evs) = (life.step id ev).bind (fun life' => life'.path id evs) := rfl

@[simp] theorem path_append (id : OrderId) (life : Life) (evs evs' : List BookEvent) :
    life.path id (evs ++ evs') = (life.path id evs).bind (fun life' => life'.path id evs') :=
  List.foldlM_append

/-! ## The events of others -/

variable {id : OrderId} {life : Life}

theorem ended_of_ne (h : life ≠ .taking) : life.ended = life := by
  cases life with
  | taking => exact absurd rfl h
  | out => rfl
  | resting => rfl

theorem aside_of_ne (h : life ≠ .taking) : life.aside = some life := by
  cases life with
  | taking => exact absurd rfl h
  | out => rfl
  | resting => rfl

theorem path_trades_of_ne (h : life ≠ .taking) {ts : List Trade}
    (hts : ∀ t ∈ ts, t.takerOrderId ≠ id ∧ t.makerOrderId ≠ id) :
    life.path id (ts.map .trade) = some life := by
  induction ts with
  | nil => rfl
  | cons t ts ih =>
    obtain ⟨htaker, hmaker⟩ := hts t List.mem_cons_self
    rw [List.map_cons, path_cons, step, if_neg htaker, if_neg hmaker, aside_of_ne h, Option.bind_some]
    exact ih (fun t' ht' => hts t' (List.mem_cons_of_mem _ ht'))

/-! ## Its own trades -/

theorem path_taking {ts : List Trade} (hts : ∀ t ∈ ts, t.takerOrderId = id ∧ t.makerOrderId ≠ id)
    (hpos : ∀ t ∈ ts, 0 < t.qty.toNat) : Life.taking.path id (ts.map .trade) = some .taking := by
  induction ts with
  | nil => rfl
  | cons t ts ih =>
    obtain ⟨htaker, hmaker⟩ := hts t List.mem_cons_self
    rw [List.map_cons, path_cons, step, if_pos htaker, if_neg hmaker, take,
      if_pos (hpos t List.mem_cons_self), Option.bind_some]
    exact ih (fun t' ht' => hts t' (List.mem_cons_of_mem _ ht'))
      (fun t' ht' => hpos t' (List.mem_cons_of_mem _ ht'))

/-- The life of an order that rests, or did. -/
def ofResting : Option Order → Life
  | some x => .resting x.px x.rem
  | none => .out

theorem ofResting_ne (x : Option Order) : ofResting x ≠ .taking := by
  cases x <;> simp [ofResting]

theorem step_maker {x : Order} {t : Trade} (htaker : t.takerOrderId ≠ x.id)
    (hmaker : t.makerOrderId = x.id) (hprice : t.price = x.px) (hpos : 0 < t.qty.toNat)
    (hle : t.qty.toNat ≤ x.rem) :
    (ofResting (some x)).step x.id (.trade t) = some (ofResting ((BookEvent.trade t).hit x)) := by
  rw [step, if_neg htaker, if_pos hmaker, ofResting, make, if_pos ⟨hprice, hpos, hle⟩,
    BookEvent.hit_trade, if_pos hmaker]
  rcases Nat.lt_or_ge t.qty.toNat x.rem with hlt | hge
  · rw [if_neg (Nat.ne_of_lt hlt), if_pos hlt]
    have hsub := Order.rem_sub x t.qty hle
    simp only [ofResting]
    rw [hsub]
    rfl
  · rw [if_pos (Nat.le_antisymm hle hge), if_neg (Nat.not_lt.mpr hge)]
    rfl

end Life

namespace RefBook

namespace Matched

variable {r : RefBook} {o : Order} {ts : List Trade} {n : UInt64}

theorem pos (h : Matched r o ts n) (hok : Ok r) {t : Trade} (ht : t ∈ ts) : 0 < t.qty.toNat := by
  rw [← h.trades] at ht
  exact matchOrders_pos (fun m hm => (hok.rests _ m hm).pos) ht

theorem makers_nodup (h : Matched r o ts n) (hok : Ok r) : (ts.map Trade.makerOrderId).Nodup := by
  rw [← h.trades]
  exact (hok.nodup_side _).sublist (makers_are_first o _).sublist

theorem maker_ne (h : Matched r o ts n) {t : Trade} (ht : t ∈ ts) : t.makerOrderId ≠ o.id := by
  obtain ⟨-, m, hm, hid, -⟩ := h.trade ht
  rw [hid]
  exact fun hc => h.fresh ((mem_ids r _).mpr ⟨_, m, hm, hc⟩)

theorem path_maker (h : Matched r o ts n) (hok : Ok r) {s : Side} {x : Order} (hx : x ∈ r s) :
    (Life.ofResting (some x)).path x.id (ts.map .trade) =
      some (Life.ofResting (survive (ts.map .trade) x)) := by
  have hother : ∀ t ∈ ts, t.takerOrderId ≠ x.id := by
    intro t ht hc
    rw [(h.trade ht).1] at hc
    exact h.fresh ((mem_ids r _).mpr ⟨s, x, hx, hc.symm⟩)
  by_cases hne : ∀ t ∈ ts, t.makerOrderId ≠ x.id
  · rw [survive_trades ts x hne]
    exact Life.path_trades_of_ne (Life.ofResting_ne _) (fun t ht => ⟨hother t ht, hne t ht⟩)
  · simp only [not_forall, not_not] at hne
    obtain ⟨t, ht, htx⟩ := hne
    have hnd := h.makers_nodup hok
    obtain ⟨ts₁, ts₂, rfl⟩ := List.append_of_mem ht
    rw [List.map_append, List.map_cons, List.nodup_append, List.nodup_cons] at hnd
    obtain ⟨-, ⟨hafter, -⟩, hbefore⟩ := hnd
    -- No other trade is with the order.
    have hne₁ : ∀ t' ∈ ts₁, t'.makerOrderId ≠ x.id := by
      intro t' ht' hc
      exact hbefore _ (List.mem_map_of_mem ht') _ List.mem_cons_self (hc.trans htx.symm)
    have hne₂ : ∀ t' ∈ ts₂, t'.makerOrderId ≠ x.id := by
      intro t' ht' hc
      exact hafter ((hc.trans htx.symm) ▸ List.mem_map_of_mem ht')
    obtain ⟨-, m, hm, hid, hprice, -⟩ := h.trade ht
    obtain ⟨-, rfl⟩ := hok.eq_of_id hm hx (hid.symm.trans htx)
    have hle : t.qty.toNat ≤ x.rem := by
      have hmade := h.madeBy_le hok hx
      rw [List.map_append, List.map_cons, madeBy_append, madeBy_cons] at hmade
      simp only [BookEvent.madeBy, htx, if_true] at hmade
      omega
    have hstep := Life.step_maker (hother t ht) htx hprice (h.pos hok ht) hle
    have hrest : ∀ y, (BookEvent.trade t).hit x = some y → survive (ts₂.map .trade) y = some y := by
      intro y hy
      obtain ⟨n', rfl, -⟩ := BookEvent.hit_eq_some hy
      exact survive_trades ts₂ _ hne₂
    have hsurvive : survive ((ts₁ ++ t :: ts₂).map .trade) x = (BookEvent.trade t).hit x := by
      rw [List.map_append, List.map_cons, survive_append, survive_trades ts₁ x hne₁, Option.bind_some,
        survive]
      cases hy : (BookEvent.trade t).hit x with
      | none => rfl
      | some y => exact hrest y hy
    rw [hsurvive, List.map_append, List.map_cons, Life.path_append,
      Life.path_trades_of_ne (Life.ofResting_ne _)
        (fun t' ht' => ⟨hother t' (List.mem_append_left _ ht'), hne₁ t' ht'⟩),
      Option.bind_some, Life.path_cons, hstep, Option.bind_some]
    apply Life.path_trades_of_ne (Life.ofResting_ne _)
    intro t' ht'
    exact ⟨hother t' (List.mem_append_right _ (List.mem_cons_of_mem _ ht')), hne₂ t' ht'⟩

end Matched

/-! ## A call -/

/-- The life of an identifier is as the book has it. -/
def Lives (r : RefBook) (id : OrderId) : Life → Prop
  | .resting price left => ∃ s, ∃ x ∈ r s, x.id = id ∧ x.px = price ∧ x.rem = left
  | _ => id ∉ r.ids

variable {r r' : RefBook} {c : Call} {evs : List BookEvent} {id : OrderId} {life : Life}

theorem Effect.path_resting (h : Effect r c evs r') (hok : Ok r) {s : Side} {x : Order}
    (hx : x ∈ r s) :
    (Life.ofResting (some x)).path x.id evs = some (Life.ofResting (survive evs x)) := by
  have hin : x.id ∈ r.ids := (mem_ids r _).mpr ⟨s, x, hx, rfl⟩
  have hsame : ∀ life, life ≠ .taking → ∀ i, i ≠ x.id →
      Life.step x.id life (.accepted i) = some life ∧ Life.step x.id life (.cancelled i) = some life ∧
        ∀ p n, Life.step x.id life (.restingOnBook i p n) = some life := by
    intro life hlife i hi
    refine ⟨?_, ?_, ?_⟩
    · rw [Life.step, if_neg hi, Life.ended_of_ne hlife]
    · rw [Life.step, if_neg hi, Life.ended_of_ne hlife]
    · intro p n
      rw [Life.step, if_neg hi, Life.aside_of_ne hlife]
  cases h with
  | @cancelled id hid =>
    by_cases hc : id = x.id
    · simp [Life.step, hc, Life.ofResting, Life.cancel, survive, BookEvent.hit]
    · rw [Life.path_cons, (hsame _ (Life.ofResting_ne _) id hc).2.1]
      simp [survive, BookEvent.hit, hc]
  | @filled o ts hm =>
    have hne : o.id ≠ x.id := fun hc => hm.fresh (hc ▸ hin)
    rw [Life.path_cons, (hsame _ (Life.ofResting_ne _) o.id hne).1, Option.bind_some,
      hm.path_maker hok hx]
    rfl
  | @rested o ts n hm =>
    have hne : o.id ≠ x.id := fun hc => hm.fresh (hc ▸ hin)
    have hend : survive (.accepted o.id :: ts.map .trade ++ [.restingOnBook o.id o.px ⟨n⟩]) x =
        survive (ts.map .trade) x := by
      rw [survive_append]
      show (survive (ts.map .trade) x).bind _ = _
      cases survive (ts.map .trade) x <;> rfl
    rw [hend, Life.path_append, Life.path_cons, (hsame _ (Life.ofResting_ne _) o.id hne).1,
      Option.bind_some, hm.path_maker hok hx, Option.bind_some, Life.path_cons,
      (hsame _ (Life.ofResting_ne _) o.id hne).2.2]
    rfl
  | @dropped o ts n hm =>
    have hne : o.id ≠ x.id := fun hc => hm.fresh (hc ▸ hin)
    have hend : survive (.accepted o.id :: ts.map .trade ++ [.cancelled o.id]) x =
        survive (ts.map .trade) x := by
      rw [survive_append, show survive (.accepted o.id :: ts.map .trade) x =
        survive (ts.map .trade) x from rfl]
      cases hy : survive (ts.map .trade) x with
      | none => rfl
      | some y =>
        obtain ⟨n', rfl, -⟩ := survive_eq_some hy
        simp [survive, BookEvent.hit, hne]
    rw [hend, Life.path_append, Life.path_cons, (hsame _ (Life.ofResting_ne _) o.id hne).1,
      Option.bind_some, hm.path_maker hok hx, Option.bind_some, Life.path_cons,
      (hsame _ (Life.ofResting_ne _) o.id hne).2.1]
    rfl

theorem Effect.path_other (h : Effect r c evs r') (hid : id ∉ r.ids) (hlife : life = .out ∨ life = .taking)
    (hne : ∀ o, c = .submit o → o.id ≠ id) : life.path id evs = some .out := by
  have hended : life.ended = .out := by
    rcases hlife with rfl | rfl <;> rfl
  have htrades : ∀ o ts n, Matched r o ts n → o.id ≠ id →
      Life.out.path id (ts.map .trade) = some .out := by
    intro o ts n hm ho
    apply Life.path_trades_of_ne (by simp)
    intro t ht
    obtain ⟨htaker, m, hmem, hmaker, -⟩ := hm.trade ht
    refine ⟨htaker ▸ ho, ?_⟩
    rw [hmaker]
    exact fun hc => hid ((mem_ids r id).mpr ⟨_, m, hmem, hc⟩)
  cases h with
  | @cancelled id' hid' =>
    have hc : id' ≠ id := fun hc => hid (hc ▸ hid')
    simp [Life.step, hc, hended]
  | @filled o ts hm =>
    have ho := hne o rfl
    rw [Life.path_cons, Life.step, if_neg ho, hended, Option.bind_some, htrades o ts 0 hm ho]
  | @rested o ts n hm =>
    have ho := hne o rfl
    rw [Life.path_append, Life.path_cons, Life.step, if_neg ho, hended, Option.bind_some,
      htrades o ts n hm ho]
    simp [Life.step, ho, Life.aside]
  | @dropped o ts n hm =>
    have ho := hne o rfl
    rw [Life.path_append, Life.path_cons, Life.step, if_neg ho, hended, Option.bind_some,
      htrades o ts n hm ho]
    simp [Life.step, ho, Life.ended]

theorem Effect.path_own {o : Order} (h : Effect r (.submit o) evs r') (hok : Ok r)
    (hlife : life = .out ∨ life = .taking) :
    ∃ life', life.path o.id evs = some life' ∧ r'.Lives o.id life' := by
  have haccept : life.step o.id (.accepted o.id) = some .taking := by
    rw [Life.step, if_pos rfl]
    rcases hlife with rfl | rfl <;> rfl
  have htaking : ∀ ts n, Matched r o ts n → Life.taking.path o.id (ts.map .trade) = some .taking := by
    intro ts n hm
    exact Life.path_taking (fun t ht => ⟨(hm.trade ht).1, hm.maker_ne ht⟩) (fun t ht => hm.pos hok ht)
  cases h with
  | @filled _ ts hm =>
    refine ⟨.taking, ?_, fun hc => hm.fresh ((ids_after r _).subset hc)⟩
    rw [Life.path_cons, haccept, Option.bind_some, htaking ts 0 hm]
  | @rested _ ts n hm hn =>
    refine ⟨.resting o.px n.toNat, ?_, o.side, o.withRemaining n, mem_rest.mpr (Or.inl ⟨rfl, rfl⟩),
      rfl, rfl, rfl⟩
    have hpos : 0 < Qty.toNat ⟨n⟩ := hn
    rw [Life.path_append, Life.path_cons, haccept, Option.bind_some, htaking ts n hm,
      Option.bind_some, Life.path_cons, Life.step, if_pos rfl, Life.rest, if_pos hpos]
    rfl
  | @dropped _ ts n hm =>
    refine ⟨.out, ?_, fun hc => hm.fresh ((ids_after r _).subset hc)⟩
    rw [Life.path_append, Life.path_cons, haccept, Option.bind_some, htaking ts n hm]
    simp [Life.step, Life.cancel]

theorem Effect.lives (h : Effect r c evs r') (hok : Ok r) (hlife : r.Lives id life) :
    ∃ life', life.path id evs = some life' ∧ r'.Lives id life' := by
  by_cases hin : id ∈ r.ids
  · obtain ⟨s, x, hx, rfl⟩ := (mem_ids r id).mp hin
    have hresting : life = Life.ofResting (some x) := by
      cases life with
      | out => exact absurd hin hlife
      | taking => exact absurd hin hlife
      | resting p n =>
        obtain ⟨s', y, hy, hid, rfl, rfl⟩ := hlife
        rw [(hok.eq_of_id hx hy hid.symm).2]
        rfl
    refine ⟨_, hresting ▸ h.path_resting hok hx, ?_⟩
    cases hs : survive evs x with
    | none => exact h.not_mem_of_survive_none hok hx hs
    | some y =>
      obtain ⟨n, rfl, -⟩ := survive_eq_some hs
      exact ⟨s, _, h.mem_of_survive hx hs, rfl, rfl, rfl⟩
  · have hout : life = .out ∨ life = .taking := by
      cases life with
      | out => exact Or.inl rfl
      | taking => exact Or.inr rfl
      | resting p n =>
        obtain ⟨s, y, hy, hid, -⟩ := hlife
        exact absurd ((mem_ids r id).mpr ⟨s, y, hy, hid⟩) hin
    by_cases hown : ∃ o, c = .submit o ∧ o.id = id
    · obtain ⟨o, rfl, rfl⟩ := hown
      exact h.path_own hok hout
    · have hne : ∀ o, c = .submit o → o.id ≠ id := fun o ho hc => hown ⟨o, ho, hc⟩
      exact ⟨.out, h.path_other hin hout hne, (h.quiet hin hne).2.2.2⟩

theorem run_lives (hok : Ok r) (calls : List Call) (hlife : r.Lives id life) :
    ∃ life', life.path id (logOf (r.run calls).1) = some life' ∧ (r.run calls).2.Lives id life' := by
  induction calls generalizing r life with
  | nil => exact ⟨life, rfl, hlife⟩
  | cons c calls ih =>
    have hone : ∃ life', life.path id (eventsOf (r.call c).1) = some life' ∧
        (r.call c).2.Lives id life' := by
      rcases call_effect hok c with ⟨err, hc⟩ | ⟨evs, hevs, he⟩
      · rw [hc]
        exact ⟨life, rfl, hlife⟩
      · rw [hevs]
        exact he.lives hok hlife
    obtain ⟨life₁, hpath, hlife₁⟩ := hone
    obtain ⟨life₂, hpath₂, hlife₂⟩ := ih (hok.call c) hlife₁
    refine ⟨life₂, ?_, hlife₂⟩
    simp only [run, Runs.run_cons, logOf_cons] at hpath₂ ⊢
    rw [Life.path_append, hpath, Option.bind_some]
    exact hpath₂

theorem Lives.resting_iff (hok : Ok r) (h : r.Lives id life) (price : Price) (left : Nat) :
    life = .resting price left ↔ ∃ s, ∃ x ∈ r s, x.id = id ∧ x.px = price ∧ x.rem = left := by
  constructor
  · rintro rfl
    exact h
  · rintro ⟨s, x, hx, rfl, rfl, rfl⟩
    have hin : x.id ∈ r.ids := (mem_ids r _).mpr ⟨s, x, hx, rfl⟩
    cases life with
    | out => exact absurd hin h
    | taking => exact absurd hin h
    | resting p n =>
      obtain ⟨s', y, hy, hid, rfl, rfl⟩ := h
      rw [(hok.eq_of_id hx hy hid.symm).2]

end RefBook

/-- The log of a run takes every identifier through a life that the machine allows, and where that
life ends is where the book has the order. -/
theorem log_lifecycle (calls : List Call) (h : NoAddOverflow S calls) :
    ∃ (rs : List Response) (e : Engine S), (∀ pr, Engine.new.run pr calls = .ok (rs, e)) ∧
      ∀ id, ∃ life, Life.out.path id (logOf rs) = some life ∧ ∀ price left,
        (life = .resting price left ↔
          ∃ s, ∃ x ∈ e.book.resting s, x.id = id ∧ x.px = price ∧ x.rem = left) := by
  obtain ⟨e, q, hrun, -, hres, hok⟩ := reach h
  refine ⟨_, e, hrun, ?_⟩
  intro id
  have hnew : RefBook.new.Lives id .out := by simp [Lives, RefBook.new, ids]
  obtain ⟨life, hpath, hlife⟩ := run_lives Ok.new calls hnew
  rw [← hres] at hlife
  exact ⟨life, hpath, hlife.resting_iff hok⟩

theorem log_lifecycle_cancelMiddleOrder :
    ∃ (rs : List Response) (e : Engine (FreeListSlab OrderNode)),
      (∀ pr, Engine.new.run pr cancelMiddleOrder = .ok (rs, e)) ∧
      ∀ id, ∃ life, Life.out.path id (logOf rs) = some life ∧ ∀ price left,
        (life = .resting price left ↔
          ∃ s, ∃ x ∈ e.book.resting s, x.id = id ∧ x.px = price ∧ x.rem = left) :=
  log_lifecycle cancelMiddleOrder cancelMiddleOrder_noAddOverflow

end Ordust
