import Ordust.Fills

/-!
# What a call does to the resting orders, told by its events

The events of a call say which resting orders go and how much the others keep. Only an order
that comes to rest is added to what they say.
-/

namespace Ordust

/-! ## Resting orders and events -/

/-- What is left of a resting order after an event. -/
def BookEvent.hit (o : Order) : BookEvent → Option Order
  | .trade t =>
    if t.makerOrderId = o.id then
      if t.qty.toNat < o.rem then some (o.withRemaining (o.remainingQty.val - t.qty.val)) else none
    else some o
  | .cancelled id => if id = o.id then none else some o
  | _ => some o

theorem BookEvent.hit_trade (o : Order) (t : Trade) : (BookEvent.trade t).hit o =
    if t.makerOrderId = o.id then
      if t.qty.toNat < o.rem then some (o.withRemaining (o.remainingQty.val - t.qty.val)) else none
    else some o := rfl

/-- What is left of it after several. -/
def survive : List BookEvent → Order → Option Order
  | [], o => some o
  | ev :: evs, o => (ev.hit o).bind (survive evs)

theorem survive_append (evs evs' : List BookEvent) (o : Order) :
    survive (evs ++ evs') o = (survive evs o).bind (survive evs') := by
  induction evs generalizing o with
  | nil => rfl
  | cons ev evs ih =>
    simp only [List.cons_append, survive]
    cases ev.hit o with
    | none => rfl
    | some x => exact ih x

theorem BookEvent.hit_eq_some {ev : BookEvent} {o x : Order} (h : ev.hit o = some x) :
    ∃ n, x = o.withRemaining n ∧ (0 < o.rem → 0 < n.toNat) := by
  have hsame : ∃ n, o = o.withRemaining n ∧ (0 < o.rem → 0 < n.toNat) :=
    ⟨o.remainingQty.val, rfl, fun h => h⟩
  unfold hit at h
  split at h
  · next t =>
    split at h
    · split at h
      · next hlt =>
        refine ⟨_, (Option.some.inj h).symm, fun _ => ?_⟩
        have := Order.rem_sub o t.qty (Nat.le_of_lt hlt)
        rw [Order.rem_withRemaining] at this
        omega
      · simp at h
    · exact Option.some.inj h ▸ hsame
  · split at h
    · simp at h
    · exact Option.some.inj h ▸ hsame
  · exact Option.some.inj h ▸ hsame

theorem survive_eq_some {evs : List BookEvent} {o x : Order} (h : survive evs o = some x) :
    ∃ n, x = o.withRemaining n ∧ (0 < o.rem → 0 < n.toNat) := by
  induction evs generalizing o with
  | nil => exact ⟨o.remainingQty.val, (Option.some.inj h).symm, fun h => h⟩
  | cons ev evs ih =>
    obtain ⟨y, hy, hx⟩ := Option.bind_eq_some_iff.mp h
    obtain ⟨n, rfl, hn⟩ := BookEvent.hit_eq_some hy
    obtain ⟨n', rfl, hn'⟩ := ih hx
    exact ⟨n', rfl, fun ho => hn' (hn ho)⟩

theorem survive_trades (ts : List Trade) (o : Order) (h : ∀ t ∈ ts, t.makerOrderId ≠ o.id) :
    survive (ts.map .trade) o = some o := by
  induction ts with
  | nil => rfl
  | cons t ts ih =>
    have ht : (BookEvent.trade t).hit o = some o := if_neg (h t List.mem_cons_self)
    rw [List.map_cons, survive, ht]
    exact ih (fun t' ht' => h t' (List.mem_cons_of_mem _ ht'))

namespace RefBook

/-- The resting orders that are left after some events. -/
def after (r : RefBook) (evs : List BookEvent) : RefBook := fun s => (r s).filterMap (survive evs)

@[simp] theorem after_nil (r : RefBook) : r.after [] = r := by
  funext s
  exact List.filterMap_some

theorem after_append (r : RefBook) (evs evs' : List BookEvent) :
    r.after (evs ++ evs') = (r.after evs).after evs' := by
  funext s
  simp only [after, List.filterMap_filterMap]
  congr 1
  funext o
  exact survive_append evs evs' o

/-! ## The trades of a submission -/

theorem survive_exhaust (taker : Order) (gone : List Order) (h : (gone.map Order.id).Nodup)
    {x : Order} (hx : x ∈ gone) : survive ((exhaust taker gone).map .trade) x = none := by
  induction gone with
  | nil => simp at hx
  | cons m gone ih =>
    obtain ⟨hm, hnd⟩ := List.nodup_cons.mp h
    rw [exhaust, List.map_cons, List.map_cons, survive]
    rcases List.mem_cons.mp hx with rfl | hx
    · have : (BookEvent.trade (tradeOf taker x x.remainingQty)).hit x = none := by
        simp [BookEvent.hit, tradeOf, Order.rem]
      rw [this]
      rfl
    · have : (BookEvent.trade (tradeOf taker m m.remainingQty)).hit x = some x :=
        if_neg (fun hc : m.id = x.id => hm (hc ▸ List.mem_map_of_mem hx))
      rw [this]
      exact ih hnd hx

theorem survive_exhaust_of_not_mem (taker : Order) (gone : List Order) {x : Order}
    (hx : x.id ∉ gone.map Order.id) : survive ((exhaust taker gone).map .trade) x = some x := by
  apply survive_trades
  intro t ht
  obtain ⟨m, hm, rfl⟩ := List.mem_map.mp ht
  exact fun hc => hx (hc ▸ List.mem_map_of_mem hm)

theorem matchOrders_after (taker : Order) (makers : List Order)
    (hnd : (makers.map Order.id).Nodup) :
    makers.filterMap (survive ((matchOrders taker makers).1.map .trade)) =
      (matchOrders taker makers).2.2 := by
  obtain ⟨gone, left, rfl, -, hf⟩ := matchOrders_fills taker makers
  rw [List.map_append, List.nodup_append] at hnd
  obtain ⟨hgone, hleft, hdisj⟩ := hnd
  have hne : ∀ x ∈ left, x.id ∉ gone.map Order.id := by
    intro x hx hc
    exact hdisj _ hc _ (List.mem_map_of_mem hx) rfl
  have hnone : ∀ evs, gone.filterMap
      (survive ((exhaust taker gone).map .trade ++ evs)) = [] := by
    intro evs
    rw [List.filterMap_eq_nil_iff]
    intro x hx
    rw [survive_append, survive_exhaust taker gone hgone hx]
    rfl
  have hrest : ∀ (evs : List BookEvent) (xs : List Order), (∀ x ∈ xs, x ∈ left) → xs.filterMap
      (survive ((exhaust taker gone).map .trade ++ evs)) = xs.filterMap (survive evs) := by
    intro evs xs hxs
    apply List.filterMap_congr
    intro x hx
    rw [survive_append, survive_exhaust_of_not_mem taker gone (hne x (hxs x hx))]
    rfl
  generalize matchOrders taker (gone ++ left) = r at hf ⊢
  cases hf with
  | between n hn hstop =>
    have h1 := hnone []
    have h2 := hrest [] left (fun x hx => hx)
    rw [List.append_nil] at h1 h2
    rw [List.filterMap_append, h1, h2, List.nil_append]
    exact List.filterMap_some
  | inside m ms qty hl hc hpos hlt hn =>
    subst hl
    rw [List.map_append, List.filterMap_append, hnone, hrest _ _ (fun x hx => hx), List.nil_append]
    obtain ⟨hm, -⟩ := List.nodup_cons.mp hleft
    have hhit : survive ([tradeOf taker m qty].map .trade) m =
        some (m.withRemaining (m.remainingQty.val - qty.val)) := by
      simp [survive, BookEvent.hit, tradeOf, hlt]
    rw [List.filterMap_cons, hhit]
    have hsame : ∀ x ∈ ms, survive ([tradeOf taker m qty].map .trade) x = some x := by
      intro x hx
      apply survive_trades
      intro t ht
      rw [List.mem_singleton.mp ht]
      exact fun hc : m.id = x.id => hm (hc ▸ List.mem_map_of_mem hx)
    rw [List.filterMap_congr hsame, List.filterMap_some]

/-! ## What the resting orders are like -/

structure Ok (r : RefBook) : Prop where
  sorted : ∀ s, Sorted s (r s)
  rests : ∀ s, ∀ o ∈ r s, RestsAt s o.px o
  nodup : r.ids.Nodup
  uncrossed : ∀ bid ∈ r .buy, ∀ ask ∈ r .sell, bid.px < ask.px

theorem Ok.new : Ok RefBook.new where
  sorted := fun _ => List.Pairwise.nil
  rests := by simp [RefBook.new]
  nodup := List.nodup_nil
  uncrossed := by simp [RefBook.new]

theorem Ok.nodup_side {r : RefBook} (h : Ok r) (s : Side) : ((r s).map Order.id).Nodup := by
  have := h.nodup
  rw [ids, List.map_append] at this
  cases s
  · exact this.of_append_left
  · exact this.of_append_right

theorem Ok.not_mem_ids {r : RefBook} (h : Ok r) {s : Side} {o x : Order} (ho : o ∈ r s)
    (hx : x ∈ r (oppositeSide s)) : o.id ≠ x.id := by
  have := h.nodup
  rw [ids, List.map_append, List.nodup_append] at this
  cases s
  · exact this.2.2 _ (List.mem_map_of_mem ho) _ (List.mem_map_of_mem hx)
  · exact (this.2.2 _ (List.mem_map_of_mem hx) _ (List.mem_map_of_mem ho)).symm

theorem Ok.eq_of_id {r : RefBook} (h : Ok r) {s s' : Side} {o x : Order} (ho : o ∈ r s)
    (hx : x ∈ r s') (hid : o.id = x.id) : s' = s ∧ x = o := by
  by_cases hs : s' = s
  · subst hs
    exact ⟨rfl, (List.inj_on_of_nodup_map (h.nodup_side s') ho hx hid).symm⟩
  · rw [eq_oppositeSide hs] at hx
    exact absurd hid (h.not_mem_ids ho hx)

theorem Ok.uncrossed_of {r : RefBook} (h : Ok r) {s : Side} {o x : Order} (ho : o ∈ r s)
    (hx : x ∈ r (oppositeSide s)) : (oppositeSide s).better o.px x.px := by
  cases s
  · exact h.uncrossed o ho x hx
  · exact h.uncrossed x hx o ho

theorem mem_after {r : RefBook} {evs : List BookEvent} {s : Side} {x : Order} :
    x ∈ r.after evs s ↔ ∃ o ∈ r s, survive evs o = some x :=
  List.mem_filterMap

theorem pairwise_after {r : RefBook} {s : Side} {R R' : Order → Order → Prop} (evs : List BookEvent)
    (h : (r s).Pairwise R)
    (hR : ∀ x ∈ r s, ∀ y ∈ r s, R x y → ∀ n n', R' (x.withRemaining n) (y.withRemaining n')) :
    (r.after evs s).Pairwise R' := by
  rw [after, List.pairwise_filterMap]
  refine List.Pairwise.imp_of_mem ?_ h
  intro x y hx hy hxy x' hx' y' hy'
  obtain ⟨n, rfl, -⟩ := survive_eq_some hx'
  obtain ⟨n', rfl, -⟩ := survive_eq_some hy'
  exact hR x hx y hy hxy n n'

theorem map_id_after (os : List Order) (evs : List BookEvent) :
    ((os.filterMap (survive evs)).map Order.id).Sublist (os.map Order.id) := by
  induction os with
  | nil => exact List.Sublist.slnil
  | cons o os ih =>
    rw [List.filterMap_cons]
    split
    · exact ih.cons _
    · next x hx =>
      obtain ⟨n, rfl, -⟩ := survive_eq_some hx
      exact ih.cons_cons _

theorem ids_after (r : RefBook) (evs : List BookEvent) : (r.after evs).ids.Sublist r.ids := by
  rw [ids, ids, List.map_append, List.map_append]
  exact (map_id_after _ evs).append (map_id_after _ evs)

theorem Ok.after {r : RefBook} (h : Ok r) (evs : List BookEvent) : Ok (r.after evs) where
  sorted := by
    intro s
    apply pairwise_after evs (h.sorted s)
    intro x _ y _ hxy n n'
    exact hxy
  rests := by
    intro s x hx
    obtain ⟨o, ho, hs⟩ := mem_after.mp hx
    obtain ⟨n, rfl, hn⟩ := survive_eq_some hs
    have hrest := h.rests s o ho
    exact hrest.withRemaining n (hn hrest.pos)
  nodup := h.nodup.sublist (ids_after r evs)
  uncrossed := by
    intro bid hb ask ha
    obtain ⟨o, ho, hs⟩ := mem_after.mp hb
    obtain ⟨x, hx, hs'⟩ := mem_after.mp ha
    obtain ⟨n, rfl, -⟩ := survive_eq_some hs
    obtain ⟨n', rfl, -⟩ := survive_eq_some hs'
    exact h.uncrossed o ho x hx

/-- The book with `o` come to rest on its side. -/
def rest (r : RefBook) (o : Order) : RefBook :=
  Function.update r o.side (insertOrder o (r o.side))

theorem mem_rest {r : RefBook} {o x : Order} {s : Side} :
    x ∈ r.rest o s ↔ (s = o.side ∧ x = o) ∨ x ∈ r s := by
  by_cases hs : s = o.side
  · subst hs
    rw [rest, Function.update_self, (insertOrder_perm o _).mem_iff, List.mem_cons]
    simp
  · rw [rest, Function.update_of_ne hs]
    simp [hs]

theorem ids_rest (r : RefBook) (o : Order) : (r.rest o).ids.Perm (o.id :: r.ids) := by
  have hperm := (insertOrder_perm o (r o.side)).map Order.id
  rw [ids, ids, List.map_append, List.map_append, rest]
  cases hs : o.side with
  | buy =>
    rw [Function.update_self, Function.update_of_ne (by simp), ← List.cons_append]
    exact (hs ▸ hperm).append_right _
  | sell =>
    rw [Function.update_self, Function.update_of_ne (by simp)]
    exact ((hs ▸ hperm).append_left _).trans List.perm_middle

theorem Ok.rest {r : RefBook} (h : Ok r) {o : Order} (ho : RestsAt o.side o.px o)
    (hid : o.id ∉ r.ids) (hc : ∀ x ∈ r (oppositeSide o.side), o.crossesAt x.px = false) :
    Ok (r.rest o) where
  sorted := by
    intro s
    by_cases hs : s = o.side
    · subst hs
      rw [RefBook.rest, Function.update_self]
      exact (h.sorted o.side).insertOrder
    · rw [RefBook.rest, Function.update_of_ne hs]
      exact h.sorted s
  rests := by
    intro s x hx
    rcases mem_rest.mp hx with ⟨rfl, rfl⟩ | hx
    · exact ho
    · exact h.rests s x hx
  nodup := (ids_rest r o).nodup_iff.mpr (List.nodup_cons.mpr ⟨hid, h.nodup⟩)
  uncrossed := by
    have hno : ∀ x ∈ r (oppositeSide o.side), (oppositeSide o.side).better o.px x.px := by
      intro x hx
      have := hc x hx
      rw [Order.crossesAt, ho.limit] at this
      cases hs : o.side <;> simp only [hs, decide_eq_false_iff_not, not_le] at this <;> exact this
    intro bid hb ask ha
    rcases mem_rest.mp hb with ⟨hs, rfl⟩ | hbid <;> rcases mem_rest.mp ha with ⟨hs', rfl⟩ | hask
    · rw [← hs] at hs'
      simp at hs'
    · rw [← hs] at hno
      exact hno ask hask
    · rw [← hs'] at hno
      exact hno bid hbid
    · exact h.uncrossed bid hbid ask hask

/-! ## The effect of a call -/

theorem validate_ok {r : RefBook} {o : Order} (h : r.validate o = .ok ()) :
    0 < o.rem ∧ (o.orderType = .limit → o.price ≠ none) ∧
      (o.tif = .gtc → o.orderType = .limit) ∧ o.id ∉ r.ids := by
  unfold validate at h
  split at h
  · simp at h
  split at h
  · simp at h
  split at h
  · simp at h
  split at h
  · simp at h
  · next hrem hlim hmkt hid =>
    refine ⟨Nat.pos_of_ne_zero hrem, fun ht hp => hlim ⟨ht, hp⟩, fun ht => ?_, hid⟩
    cases ho : o.orderType with
    | limit => rfl
    | market => exact absurd ⟨ho, ht⟩ hmkt

/-- The part of a submission after the checks. -/
def settle (r : RefBook) (o : Order) : Response × RefBook :=
  let m := matchOrders o (r (oppositeSide o.side))
  let t := remainder (Function.update r (oppositeSide o.side) m.2.2) m.2.1
  (.ok (.accepted o.id :: m.1.map .trade ++ t.1), t.2)

theorem submit_eq (r : RefBook) (o : Order) :
    r.submit o =
      match r.validate o with
      | .error err => (.error err, r)
      | .ok () =>
        if o.tif = .fok ∧ r.canFullyFill o = false then (.error .fokNotFillable, r)
        else r.settle o := rfl

theorem crossesAt_of_admits {o : Order} (hp : o.Priced) {p : Price} (h : o.admits p = true) :
    o.crossesAt p = true := by
  unfold Order.admits at h
  unfold Order.crossesAt Order.px
  cases ht : o.orderType with
  | market => rfl
  | limit =>
    obtain ⟨limit, hl⟩ := Option.ne_none_iff_exists'.mp (hp ht)
    rw [hl] at h ⊢
    exact h

theorem matchOrders_fok {r : RefBook} (hok : Ok r) {o : Order} (hp : o.Priced)
    (h : r.canFullyFill o = true) : (matchOrders o (r (oppositeSide o.side))).2.1.rem = 0 := by
  have hcov : o.rem ≤ qtySum ((r (oppositeSide o.side)).takeWhile (fun x => o.admits x.px)) := by
    rw [← perPrice_takeWhile]
    simpa [canFullyFill] using h
  have hsub : ((r (oppositeSide o.side)).takeWhile (fun x => o.admits x.px)).Sublist
      ((r (oppositeSide o.side)).filter (fun x => o.crossesAt x.px)) := by
    have hself : ((r (oppositeSide o.side)).takeWhile (fun x => o.admits x.px)).filter
        (fun x => o.crossesAt x.px) =
          (r (oppositeSide o.side)).takeWhile (fun x => o.admits x.px) := by
      rw [List.filter_eq_self]
      intro x hx
      exact crossesAt_of_admits hp (by simpa using List.mem_takeWhile_imp hx)
    rw [← hself]
    exact (List.takeWhile_sublist _).filter _
  rw [matchOrders_rem o _ (hok.sorted _)]
  have := qtySum_le_of_sublist hsub
  omega

/-- The submission `o` passed the checks, traded `ts` and had `n` left. -/
structure Matched (r : RefBook) (o : Order) (ts : List Trade) (n : UInt64) : Prop where
  valid : r.validate o = .ok ()
  trades : (matchOrders o (r (oppositeSide o.side))).1 = ts
  rest : (matchOrders o (r (oppositeSide o.side))).2.1 = o.withRemaining n

/-- What a call that succeeds does: its events and the book after it. -/
inductive Effect (r : RefBook) : Call → List BookEvent → RefBook → Prop where
  | cancelled {id : OrderId} (hid : id ∈ r.ids) :
      Effect r (.cancel id) [.cancelled id] (r.after [.cancelled id])
  | filled {o : Order} {ts : List Trade} (hm : Matched r o ts 0) :
      Effect r (.submit o) (.accepted o.id :: ts.map .trade) (r.after (ts.map .trade))
  | rested {o : Order} {ts : List Trade} {n : UInt64} (hm : Matched r o ts n) (hn : 0 < n.toNat)
      (ht : o.tif = .gtc)
      (hc : ∀ x ∈ r.after (ts.map .trade) (oppositeSide o.side), o.crossesAt x.px = false) :
      Effect r (.submit o) (.accepted o.id :: ts.map .trade ++ [.restingOnBook o.id o.px ⟨n⟩])
        ((r.after (ts.map .trade)).rest (o.withRemaining n))
  | dropped {o : Order} {ts : List Trade} {n : UInt64} (hm : Matched r o ts n) (hn : 0 < n.toNat)
      (ht : o.tif = .ioc) :
      Effect r (.submit o) (.accepted o.id :: ts.map .trade ++ [.cancelled o.id])
        (r.after (ts.map .trade))

theorem after_matchOrders {r : RefBook} (hok : Ok r) (o : Order) :
    Function.update r (oppositeSide o.side) (matchOrders o (r (oppositeSide o.side))).2.2 =
      r.after ((matchOrders o (r (oppositeSide o.side))).1.map .trade) := by
  funext s
  by_cases hs : s = oppositeSide o.side
  · subst hs
    rw [Function.update_self, after, matchOrders_after o _ (hok.nodup_side _)]
  · rw [Function.update_of_ne hs, after]
    have hsame : ∀ x ∈ r s,
        survive ((matchOrders o (r (oppositeSide o.side))).1.map .trade) x = some x := by
      intro x hx
      apply survive_trades
      intro t ht
      obtain ⟨ts₁, ts₂, hsplit⟩ := List.append_of_mem ht
      obtain ⟨gone, m, rest, qty, hmk, -, rfl, -⟩ := matchOrders_trade hsplit
      have hm : m ∈ r (oppositeSide o.side) := by
        rw [hmk]
        simp
      rw [eq_oppositeSide hs, oppositeSide_oppositeSide] at hx
      exact (hok.not_mem_ids hx hm).symm
    rw [List.filterMap_congr hsame, List.filterMap_some]

theorem settle_effect {r : RefBook} (hok : Ok r) (o : Order) (hv : r.validate o = .ok ())
    (hfok : o.tif = .fok → r.canFullyFill o = true) :
    ∃ evs, (r.settle o).1 = .ok evs ∧ Effect r (.submit o) evs (r.settle o).2 := by
  obtain ⟨n, hn⟩ := matchOrders_rest o (r (oppositeSide o.side))
  have hafter := after_matchOrders hok o
  have hm : Matched r o _ n := ⟨hv, rfl, hn⟩
  simp only [settle, hafter, hn, remainder]
  by_cases hzero : (o.withRemaining n).rem = 0
  · have h0 : n = 0 := UInt64.toNat_inj.mp hzero
    subst h0
    rw [if_pos hzero, List.append_nil]
    exact ⟨_, rfl, Effect.filled hm⟩
  · rw [if_neg hzero]
    have hpos : 0 < n.toNat := Nat.pos_of_ne_zero hzero
    have htif : (o.withRemaining n).tif = o.tif := rfl
    rw [htif]
    cases ht : o.tif with
    | ioc => exact ⟨_, rfl, Effect.dropped hm hpos ht⟩
    | fok =>
      have := matchOrders_fok hok (validate_ok hv).2.1 (hfok ht)
      rw [hn] at this
      exact absurd this hzero
    | gtc =>
      refine ⟨_, rfl, Effect.rested hm hpos ht ?_⟩
      rw [← hafter, Function.update_self]
      exact matchOrders_uncrossed o _ (hok.sorted _) (by rw [hn]; exact hpos)

theorem cancel_effect {r : RefBook} {id : OrderId} (hid : id ∈ r.ids) :
    (r.cancel id).1 = .ok [.cancelled id] ∧ (r.cancel id).2 = r.after [.cancelled id] := by
  rw [cancel, if_pos hid]
  refine ⟨rfl, ?_⟩
  funext s
  show (r s).filter _ = _
  rw [after, ← List.filterMap_eq_filter]
  congr 1
  funext o
  by_cases hc : o.id = id
  · simp [Option.guard, survive, BookEvent.hit, hc]
  · simp [Option.guard, survive, BookEvent.hit, hc, Ne.symm hc]

theorem call_effect {r : RefBook} (hok : Ok r) (c : Call) :
    (∃ err, r.call c = (.error err, r)) ∨
      ∃ evs, (r.call c).1 = .ok evs ∧ Effect r c evs (r.call c).2 := by
  cases c with
  | cancel id =>
    by_cases hid : id ∈ r.ids
    · obtain ⟨h1, h2⟩ := cancel_effect hid
      exact Or.inr ⟨_, h1, by rw [call, h2]; exact Effect.cancelled hid⟩
    · exact Or.inl ⟨_, by rw [call, cancel, if_neg hid]⟩
  | submit o =>
    rw [call, submit_eq]
    cases hv : r.validate o with
    | error err => exact Or.inl ⟨err, rfl⟩
    | ok u =>
      simp only
      by_cases hfok : o.tif = .fok ∧ r.canFullyFill o = false
      · rw [if_pos hfok]
        exact Or.inl ⟨_, rfl⟩
      · rw [if_neg hfok]
        right
        apply settle_effect hok o hv
        intro ht
        rw [← Bool.not_eq_false]
        exact fun hc => hfok ⟨ht, hc⟩

theorem Effect.ok {r r' : RefBook} {c : Call} {evs : List BookEvent} (hok : Ok r)
    (h : Effect r c evs r') : Ok r' := by
  cases h with
  | cancelled => exact hok.after _
  | filled => exact hok.after _
  | dropped => exact hok.after _
  | @rested o ts n hm hn ht hc =>
    obtain ⟨-, hprice, hgtc, hid⟩ := validate_ok hm.valid
    obtain ⟨p, hp⟩ := Option.ne_none_iff_exists'.mp (hprice (hgtc ht))
    have hpx : o.px = p := by simp [Order.px, hp]
    apply (hok.after _).rest
    · exact ⟨rfl, by rw [Order.px_withRemaining, hpx]; exact hp, hgtc ht, ht, hn⟩
    · exact fun hc => hid ((ids_after r _).subset hc)
    · exact hc

theorem after_accepted (r : RefBook) (id : OrderId) (evs : List BookEvent) :
    r.after (.accepted id :: evs) = r.after evs := rfl

theorem after_cancelled (r : RefBook) {id : OrderId} (hid : id ∉ r.ids) :
    r.after [.cancelled id] = r := by
  funext s
  have hsame : ∀ o ∈ r s, survive [.cancelled id] o = some o := by
    intro o ho
    have hne : ¬ id = o.id := fun hc => hid ((mem_ids r id).mpr ⟨s, o, ho, hc.symm⟩)
    simp [survive, BookEvent.hit, hne]
  rw [after, List.filterMap_congr hsame, List.filterMap_some]

theorem after_resting (r : RefBook) (evs : List BookEvent) (id : OrderId) (p : Price) (n : Qty) :
    r.after (evs ++ [.restingOnBook id p n]) = r.after evs := by
  rw [after_append]
  exact after_nil _

/-- No event of the list says that an order came to rest. -/
def NoneRests (evs : List BookEvent) : Prop := ∀ id p n, .restingOnBook id p n ∉ evs

theorem noneRests_trades (id : OrderId) (ts : List Trade) :
    NoneRests (.accepted id :: ts.map .trade) := by
  intro id' p n h
  simp at h

/-- The events say what becomes of the book, up to an order that comes to rest. -/
theorem Effect.shape {r r' : RefBook} {c : Call} {evs : List BookEvent} (h : Effect r c evs r') :
    (NoneRests evs ∧ r' = r.after evs) ∨
    ∃ o ts n, c = .submit o ∧ Matched r o ts n ∧ 0 < n.toNat ∧
      evs = .accepted o.id :: ts.map .trade ++ [.restingOnBook o.id o.px ⟨n⟩] ∧
      r' = (r.after evs).rest (o.withRemaining n) := by
  cases h with
  | @cancelled id hid => exact Or.inl ⟨by intro id' p n h; simp at h, rfl⟩
  | @filled o ts hm => exact Or.inl ⟨noneRests_trades o.id ts, rfl⟩
  | @rested o ts n hm hn ht hc =>
    right
    refine ⟨o, ts, n, rfl, hm, hn, rfl, ?_⟩
    rw [after_resting, after_accepted]
  | @dropped o ts n hm hn ht =>
    left
    refine ⟨by intro id' p n h; simp at h, ?_⟩
    have hid : o.id ∉ (r.after (ts.map .trade)).ids :=
      fun hc => (validate_ok hm.valid).2.2.2 ((ids_after r _).subset hc)
    rw [List.cons_append, after_accepted, after_append, after_cancelled _ hid]

theorem Ok.call {r : RefBook} (hok : Ok r) (c : Call) : Ok (r.call c).2 := by
  rcases call_effect hok c with ⟨err, h⟩ | ⟨evs, -, h⟩
  · rw [h]
    exact hok
  · exact h.ok hok

theorem Ok.run {r : RefBook} (hok : Ok r) (calls : List Call) : Ok (r.run calls).2 :=
  Runs.run_invariant Ok (fun _ c h => h.call c) r calls hok

end RefBook

end Ordust
