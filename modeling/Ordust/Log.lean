import Ordust.Effects
import Ordust.Spec.Log

/-!
# One order in the log

What survives of a resting order is what its trades as a maker leave of it.
-/

namespace Ordust

theorem logOf_snoc (rs : List Response) (response : Response) :
    logOf (rs ++ [response]) = logOf rs ++ eventsOf response := by
  simp [logOf]

theorem logOf_cons (response : Response) (rs : List Response) :
    logOf (response :: rs) = eventsOf response ++ logOf rs := rfl

theorem append_eq_append_cons {log evs before after : List BookEvent} {ev : BookEvent}
    (h : log ++ evs = before ++ ev :: after) :
    (∃ w, evs = w ++ ev :: after) ∨ ∃ w, log = before ++ ev :: w ∧ after = w ++ evs := by
  rw [List.append_eq_append_iff] at h
  rcases h with ⟨w, -, hw⟩ | ⟨w, hlog, hw⟩
  · exact Or.inl ⟨w, hw⟩
  · cases w with
    | nil => exact Or.inl ⟨[], hw.symm⟩
    | cons x w =>
      obtain ⟨rfl, hafter⟩ := List.cons.inj hw
      exact Or.inr ⟨w, hlog, hafter⟩

/-! ## Sums over events -/

@[simp] theorem madeBy_nil (id : OrderId) : madeBy id [] = 0 := rfl

@[simp] theorem madeBy_cons (id : OrderId) (ev : BookEvent) (evs : List BookEvent) :
    madeBy id (ev :: evs) = ev.madeBy id + madeBy id evs := rfl

@[simp] theorem madeBy_append (id : OrderId) (evs evs' : List BookEvent) :
    madeBy id (evs ++ evs') = madeBy id evs + madeBy id evs' := by
  simp [madeBy]

@[simp] theorem filledOf_nil (id : OrderId) : filledOf id [] = 0 := rfl

@[simp] theorem filledOf_cons (id : OrderId) (ev : BookEvent) (evs : List BookEvent) :
    filledOf id (ev :: evs) = ev.filledOf id + filledOf id evs := rfl

@[simp] theorem filledOf_append (id : OrderId) (evs evs' : List BookEvent) :
    filledOf id (evs ++ evs') = filledOf id evs + filledOf id evs' := by
  simp [filledOf]

@[simp] theorem tradedQty_nil : tradedQty [] = 0 := rfl

@[simp] theorem tradedQty_cons (ev : BookEvent) (evs : List BookEvent) :
    tradedQty (ev :: evs) = ev.traded + tradedQty evs := rfl

@[simp] theorem tradedQty_append (evs evs' : List BookEvent) :
    tradedQty (evs ++ evs') = tradedQty evs + tradedQty evs' := by
  simp [tradedQty]

@[simp] theorem tradedQty_trades (ts : List Trade) :
    tradedQty (ts.map .trade) = RefBook.tradeSum ts := by
  simp only [tradedQty, List.map_map, RefBook.tradeSum]
  rfl

theorem filledOf_eq_madeBy {id : OrderId} {evs : List BookEvent}
    (h : ∀ t, .trade t ∈ evs → t.takerOrderId ≠ id) : filledOf id evs = madeBy id evs := by
  induction evs with
  | nil => rfl
  | cons ev evs ih =>
    rw [filledOf_cons, madeBy_cons, ih (fun t ht => h t (List.mem_cons_of_mem _ ht))]
    cases ev with
    | trade t => simp [BookEvent.filledOf, BookEvent.madeBy, h t List.mem_cons_self]
    | _ => rfl

theorem filledOf_eq_zero {id : OrderId} {evs : List BookEvent}
    (h : ∀ t, .trade t ∈ evs → t.takerOrderId ≠ id ∧ t.makerOrderId ≠ id) : filledOf id evs = 0 := by
  induction evs with
  | nil => rfl
  | cons ev evs ih =>
    rw [filledOf_cons, ih (fun t ht => h t (List.mem_cons_of_mem _ ht))]
    cases ev with
    | trade t =>
      obtain ⟨htaker, hmaker⟩ := h t List.mem_cons_self
      simp [BookEvent.filledOf, htaker, hmaker]
    | _ => rfl

theorem filledOf_trades {id : OrderId} {ts : List Trade} (h : ∀ t ∈ ts, t.takerOrderId = id) :
    filledOf id (ts.map .trade) = RefBook.tradeSum ts := by
  induction ts with
  | nil => rfl
  | cons t ts ih =>
    rw [List.map_cons, filledOf_cons, ih (fun t' ht' => h t' (List.mem_cons_of_mem _ ht'))]
    simp [BookEvent.filledOf, h t List.mem_cons_self, RefBook.tradeSum]

theorem madeBy_trades_of_ne {id : OrderId} {ts : List Trade}
    (h : ∀ t ∈ ts, t.makerOrderId ≠ id) : madeBy id (ts.map .trade) = 0 := by
  induction ts with
  | nil => rfl
  | cons t ts ih =>
    rw [List.map_cons, madeBy_cons, ih (fun t' ht' => h t' (List.mem_cons_of_mem _ ht'))]
    simp [BookEvent.madeBy, h t List.mem_cons_self]

/-! ## What survives -/

theorem survive_some_rem {evs : List BookEvent} {o x : Order} (h : survive evs o = some x) :
    x.rem + madeBy o.id evs = o.rem ∧ .cancelled o.id ∉ evs := by
  induction evs generalizing o with
  | nil =>
    obtain rfl := Option.some.inj h
    simp
  | cons ev evs ih =>
    obtain ⟨y, hy, hx⟩ := Option.bind_eq_some_iff.mp h
    obtain ⟨n, rfl, -⟩ := BookEvent.hit_eq_some hy
    obtain ⟨hrem, hno⟩ := ih hx
    rw [Order.id_withRemaining] at hrem hno
    rw [Order.rem_withRemaining] at hrem
    have hev : n.toNat + ev.madeBy o.id = o.rem ∧ ev ≠ .cancelled o.id := by
      cases ev with
      | trade t =>
        rw [BookEvent.hit_trade] at hy
        refine ⟨?_, by simp⟩
        rw [BookEvent.madeBy]
        split at hy
        · next hid =>
          split at hy
          · next hlt =>
            have hsub := Order.rem_sub o t.qty (Nat.le_of_lt hlt)
            have hn := congrArg Order.rem (Option.some.inj hy)
            rw [hsub, Order.rem_withRemaining] at hn
            rw [if_pos hid]
            omega
          · simp at hy
        · next hid =>
          rw [if_neg hid, congrArg Order.rem (Option.some.inj hy), Order.rem_withRemaining]
          rfl
      | cancelled id =>
        by_cases hid : id = o.id
        · simp [BookEvent.hit, hid] at hy
        · rw [BookEvent.hit, if_neg hid] at hy
          refine ⟨?_, by simpa using hid⟩
          rw [congrArg Order.rem (Option.some.inj hy), Order.rem_withRemaining]
          rfl
      | _ =>
        refine ⟨?_, by simp⟩
        rw [congrArg Order.rem (Option.some.inj hy), Order.rem_withRemaining]
        rfl
    refine ⟨?_, ?_⟩
    · rw [madeBy_cons]
      omega
    · rw [List.mem_cons, not_or]
      exact ⟨hev.2.symm, hno⟩

theorem survive_none {evs : List BookEvent} {o : Order} (h : survive evs o = none) :
    .cancelled o.id ∈ evs ∨ o.rem ≤ madeBy o.id evs := by
  induction evs generalizing o with
  | nil => simp [survive] at h
  | cons ev evs ih =>
    rw [survive, Option.bind_eq_none_iff] at h
    cases hy : ev.hit o with
    | none =>
      cases ev with
      | trade t =>
        right
        rw [BookEvent.hit_trade] at hy
        split at hy
        · next hid =>
          split at hy
          · simp at hy
          · rw [madeBy_cons, BookEvent.madeBy, if_pos hid]
            omega
        · simp at hy
      | cancelled id =>
        left
        by_cases hid : id = o.id
        · rw [hid]
          exact List.mem_cons_self
        · simp [BookEvent.hit, hid] at hy
      | _ => simp [BookEvent.hit] at hy
    | some y =>
      have hone : survive [ev] o = some y := by simp [survive, hy]
      obtain ⟨n, rfl, -⟩ := BookEvent.hit_eq_some hy
      obtain ⟨hrem, -⟩ := survive_some_rem hone
      rcases ih (h _ hy) with hc | hm
      · exact Or.inl (List.mem_cons_of_mem _ hc)
      · right
        rw [Order.id_withRemaining] at hm
        rw [madeBy_cons]
        simp only [madeBy_cons, madeBy_nil] at hrem
        omega

/-- What can be read off the log about a resting order is what becomes of it. -/
theorem stillRests_iff {evs : List BookEvent} {o : Order} (hpos : 0 < o.rem) :
    StillRests o evs ↔ ∃ x, survive evs o = some x := by
  constructor
  · rintro ⟨hc, hm⟩
    cases hs : survive evs o with
    | some x => exact ⟨x, rfl⟩
    | none => exact absurd (survive_none hs) (by rw [not_or]; exact ⟨hc, by omega⟩)
  · rintro ⟨x, hs⟩
    obtain ⟨hrem, hc⟩ := survive_some_rem hs
    obtain ⟨n, rfl, hn⟩ := survive_eq_some hs
    have := hn hpos
    rw [Order.rem_withRemaining] at hrem
    exact ⟨hc, by omega⟩

/-! ## The events of a call -/

namespace RefBook

namespace Matched

variable {r : RefBook} {o : Order} {ts : List Trade} {n : UInt64}

theorem trade (h : Matched r o ts n) {t : Trade} (ht : t ∈ ts) :
    t.takerOrderId = o.id ∧ ∃ m ∈ r (oppositeSide o.side), t.makerOrderId = m.id ∧
      t.price = m.px ∧ o.crossesAt m.px = true := by
  rw [← h.trades] at ht
  obtain ⟨ts₁, ts₂, hsplit⟩ := List.append_of_mem ht
  obtain ⟨gone, m, rest, qty, hmk, -, rfl, hc, -⟩ := matchOrders_trade hsplit
  exact ⟨rfl, m, by rw [hmk]; simp, rfl, rfl, hc⟩

theorem fresh (h : Matched r o ts n) : o.id ∉ r.ids := (validate_ok h.valid).2.2.2

theorem total (h : Matched r o ts n) : tradeSum ts + n.toNat = o.rem := by
  have := matchOrders_total o (r (oppositeSide o.side))
  rwa [h.trades, h.rest] at this

theorem madeBy_le (h : Matched r o ts n) (hok : Ok r) {s : Side} {x : Order} (hx : x ∈ r s) :
    madeBy x.id (ts.map .trade) ≤ x.rem := by
  by_cases hne : ∀ t ∈ ts, t.makerOrderId ≠ x.id
  · rw [madeBy_trades_of_ne hne]
    exact Nat.zero_le _
  · simp only [not_forall, not_not] at hne
    obtain ⟨t, ht, htx⟩ := hne
    rw [← h.trades] at ht ⊢
    obtain ⟨ts₁, ts₂, hsplit⟩ := List.append_of_mem ht
    obtain ⟨gone, m, rest, qty, hmk, rfl, rfl, -, hle, -⟩ := matchOrders_trade hsplit
    have hnd := hok.nodup_side (oppositeSide o.side)
    have hm : m ∈ r (oppositeSide o.side) := by
      rw [hmk]
      simp
    -- The maker of the trade is the order.
    obtain ⟨-, rfl⟩ := hok.eq_of_id hm hx htx
    -- No other trade is with it: the ones before are with others, and so are the ones after.
    rw [hmk, List.map_append, List.map_cons, List.nodup_append, List.nodup_cons] at hnd
    have hbefore : madeBy x.id ((exhaust o gone).map .trade) = 0 := by
      apply madeBy_trades_of_ne
      intro t ht
      obtain ⟨g, hg, rfl⟩ := List.mem_map.mp ht
      exact hnd.2.2 g.id (List.mem_map_of_mem hg) x.id List.mem_cons_self
    have hafter : madeBy x.id (ts₂.map .trade) = 0 := by
      apply madeBy_trades_of_ne
      intro t ht htm
      obtain ⟨us₁, us₂, hus⟩ := List.append_of_mem ht
      have hsplit' : (matchOrders o (r (oppositeSide o.side))).1 =
          (exhaust o gone ++ tradeOf o x qty :: us₁) ++ t :: us₂ := by
        rw [hsplit, hus]
        simp
      obtain ⟨gone', m', rest', qty', hmk', hgone', rfl, -⟩ := matchOrders_trade hsplit'
      have hmem : tradeOf o x qty ∈ exhaust o gone' := by
        rw [← hgone']
        simp
      obtain ⟨g, hg, hge⟩ := List.mem_map.mp hmem
      have hgid : g.id = x.id := congrArg Trade.makerOrderId hge
      have hnd' := hok.nodup_side (oppositeSide o.side)
      rw [hmk', List.map_append, List.map_cons, List.nodup_append] at hnd'
      exact hnd'.2.2 g.id (List.mem_map_of_mem hg) m'.id List.mem_cons_self (hgid.trans htm.symm)
    rw [hsplit, List.map_append, List.map_cons, madeBy_append, madeBy_cons, hbefore, hafter]
    simp only [BookEvent.madeBy, tradeOf, if_true]
    omega

end Matched

namespace Effect

variable {r r' : RefBook} {c : Call} {evs : List BookEvent}

theorem events_of_submit {o : Order} (h : Effect r (.submit o) evs r') :
    ∃ ts n ending, Matched r o ts n ∧ evs = .accepted o.id :: ts.map .trade ++ ending ∧
      ∀ t, .trade t ∉ ending := by
  cases h with
  | @filled _ ts hm => exact ⟨ts, 0, [], hm, by simp, by simp⟩
  | @rested _ ts n hm => exact ⟨ts, n, _, hm, rfl, by simp⟩
  | @dropped _ ts n hm => exact ⟨ts, n, _, hm, rfl, by simp⟩

theorem of_trade_split {evs₁ evs₂ : List BookEvent} {t : Trade} (h : Effect r c evs r')
    (hevs : evs = evs₁ ++ .trade t :: evs₂) :
    ∃ o ts₁ ts₂ n, c = .submit o ∧ Matched r o (ts₁ ++ t :: ts₂) n ∧
      evs₁ = .accepted o.id :: ts₁.map .trade := by
  cases c with
  | cancel id =>
    cases h with
    | cancelled hid =>
      have : BookEvent.trade t ∈ [BookEvent.cancelled id] := by
        rw [hevs]
        simp
      simp at this
  | submit o =>
    obtain ⟨ts, n, ending, hm, rfl, hend⟩ := h.events_of_submit
    cases evs₁ with
    | nil => simp at hevs
    | cons ev evs₁ =>
      rw [List.cons_append, List.cons_append, List.cons.injEq, List.append_eq_append_iff] at hevs
      obtain ⟨rfl, ⟨w, rfl, hw⟩ | ⟨w, hts, hw⟩⟩ := hevs
      · exact absurd (by rw [hw]; simp) (hend t)
      · cases w with
        | nil =>
          rw [List.nil_append] at hw
          exact absurd (by rw [← hw]; simp) (hend t)
        | cons x w =>
          obtain ⟨rfl, -⟩ := List.cons.inj hw
          obtain ⟨ts₁, ts', rfl, rfl, hts'⟩ := List.map_eq_append_iff.mp hts
          obtain ⟨t', ts₂, rfl, ht, -⟩ := List.map_eq_cons_iff.mp hts'
          obtain rfl := BookEvent.trade.inj ht
          exact ⟨o, ts₁, ts₂, n, rfl, hm, rfl⟩

theorem of_trade (h : Effect r c evs r') {t : Trade} (ht : .trade t ∈ evs) :
    ∃ o ts n, c = .submit o ∧ Matched r o ts n ∧ t ∈ ts := by
  cases h with
  | cancelled => simp at ht
  | @filled o ts hm => exact ⟨o, ts, 0, rfl, hm, by simpa using ht⟩
  | @rested o ts n hm => exact ⟨o, ts, n, rfl, hm, by simpa using ht⟩
  | @dropped o ts n hm => exact ⟨o, ts, n, rfl, hm, by simpa using ht⟩

theorem of_accepted (h : Effect r c evs r') {id : OrderId} (ha : .accepted id ∈ evs) :
    ∃ o, c = .submit o ∧ o.id = id ∧ id ∉ r.ids := by
  cases h with
  | cancelled => simp at ha
  | @filled o ts hm =>
    obtain rfl : id = o.id := by simpa using ha
    exact ⟨o, rfl, rfl, hm.fresh⟩
  | @rested o ts n hm =>
    obtain rfl : id = o.id := by simpa using ha
    exact ⟨o, rfl, rfl, hm.fresh⟩
  | @dropped o ts n hm =>
    obtain rfl : id = o.id := by simpa using ha
    exact ⟨o, rfl, rfl, hm.fresh⟩

theorem of_cancelled (h : Effect r c evs r') {id : OrderId} (hc : .cancelled id ∈ evs) :
    (c = .cancel id ∧ id ∈ r.ids ∧ evs = [.cancelled id]) ∨
      ∃ o, c = .submit o ∧ o.id = id ∧ id ∉ r.ids := by
  cases h with
  | @cancelled id' hid =>
    obtain rfl : id = id' := by simpa using hc
    exact Or.inl ⟨rfl, hid, rfl⟩
  | @filled o ts hm => simp at hc
  | @rested o ts n hm => simp at hc
  | @dropped o ts n hm =>
    obtain rfl : id = o.id := by simpa using hc
    exact Or.inr ⟨o, rfl, rfl, hm.fresh⟩

theorem submit_head {o : Order} (h : Effect r (.submit o) evs r') :
    ∃ evs', evs = .accepted o.id :: evs' ∧ o.id ∉ r.ids := by
  cases h with
  | filled hm => exact ⟨_, rfl, hm.fresh⟩
  | rested hm => exact ⟨_, rfl, hm.fresh⟩
  | dropped hm => exact ⟨_, rfl, hm.fresh⟩

theorem mem_of_survive (h : Effect r c evs r') {s : Side} {x y : Order} (hx : x ∈ r s)
    (hs : survive evs x = some y) : y ∈ r' s := by
  have hy : y ∈ r.after evs s := mem_after.mpr ⟨x, hx, hs⟩
  rcases h.shape with ⟨-, rfl⟩ | ⟨o, ts, n, -, -, -, -, rfl⟩
  · exact hy
  · exact mem_rest.mpr (Or.inr hy)

theorem mem_cases (h : Effect r c evs r') {s : Side} {y : Order} (hy : y ∈ r' s) :
    (∃ x ∈ r s, survive evs x = some y) ∨
      ∃ o ts n, c = .submit o ∧ Matched r o ts n ∧ s = o.side ∧ y = o.withRemaining n ∧
        evs = .accepted o.id :: ts.map .trade ++ [.restingOnBook o.id o.px ⟨n⟩] := by
  rcases h.shape with ⟨-, rfl⟩ | ⟨o, ts, n, hc, hm, -, hevs, rfl⟩
  · exact Or.inl (mem_after.mp hy)
  · rcases mem_rest.mp hy with ⟨hs, rfl⟩ | hy
    · exact Or.inr ⟨o, ts, n, hc, hm, hs, rfl, hevs⟩
    · exact Or.inl (mem_after.mp hy)

theorem not_mem_of_survive_none (h : Effect r c evs r') (hok : Ok r) {s : Side} {x : Order}
    (hx : x ∈ r s) (hs : survive evs x = none) : x.id ∉ r'.ids := by
  rw [mem_ids]
  rintro ⟨s', y, hy, hid⟩
  rcases h.mem_cases hy with ⟨z, hz, hzy⟩ | ⟨o, ts, n, -, hm, -, rfl, -⟩
  · obtain ⟨n, rfl, -⟩ := survive_eq_some hzy
    obtain ⟨-, rfl⟩ := hok.eq_of_id hx hz hid.symm
    rw [hs] at hzy
    simp at hzy
  · exact hm.fresh ((mem_ids r _).mpr ⟨s, x, hx, hid.symm⟩)

theorem madeBy_le (h : Effect r c evs r') (hok : Ok r) {s : Side} {x : Order} (hx : x ∈ r s) :
    madeBy x.id evs ≤ x.rem := by
  cases h with
  | cancelled => exact Nat.zero_le _
  | @filled o ts hm => simpa [BookEvent.madeBy] using hm.madeBy_le hok hx
  | @rested o ts n hm => simpa [BookEvent.madeBy] using hm.madeBy_le hok hx
  | @dropped o ts n hm => simpa [BookEvent.madeBy] using hm.madeBy_le hok hx

theorem taker_ne (h : Effect r c evs r') {id : OrderId} (hid : id ∈ r.ids) {t : Trade}
    (ht : .trade t ∈ evs) : t.takerOrderId ≠ id := by
  obtain ⟨o, ts, n, -, hm, ht⟩ := h.of_trade ht
  rw [(hm.trade ht).1]
  rintro rfl
  exact hm.fresh hid

/-- A call that is about others says nothing about an identifier off the book. -/
theorem quiet (h : Effect r c evs r') {id : OrderId} (hid : id ∉ r.ids)
    (hne : ∀ o, c = .submit o → o.id ≠ id) :
    filledOf id evs = 0 ∧ .cancelled id ∉ evs ∧ .accepted id ∉ evs ∧ id ∉ r'.ids := by
  have htaker : ∀ t, .trade t ∈ evs → t.takerOrderId ≠ id ∧ t.makerOrderId ≠ id := by
    intro t ht
    obtain ⟨o, ts, n, rfl, hm, ht⟩ := h.of_trade ht
    obtain ⟨htk, m, hmem, hmk, -⟩ := hm.trade ht
    refine ⟨by rw [htk]; exact hne o rfl, ?_⟩
    rw [hmk]
    rintro rfl
    exact hid ((mem_ids r _).mpr ⟨_, m, hmem, rfl⟩)
  refine ⟨?_, ?_, ?_, ?_⟩
  · exact filledOf_eq_zero htaker
  · intro hc
    rcases h.of_cancelled hc with ⟨-, hmem, -⟩ | ⟨o, rfl, ho, -⟩
    · exact hid hmem
    · exact hne o rfl ho
  · intro ha
    obtain ⟨o, rfl, ho, -⟩ := h.of_accepted ha
    exact hne o rfl ho
  · rcases h.shape with ⟨-, rfl⟩ | ⟨o, ts, n, rfl, -, -, -, rfl⟩
    · exact fun hc => hid ((ids_after r evs).subset hc)
    · rw [(ids_rest _ _).mem_iff, List.mem_cons, not_or]
      exact ⟨(hne o rfl).symm, fun hc => hid ((ids_after r _).subset hc)⟩

end Effect

end RefBook

end Ordust
