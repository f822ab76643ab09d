import Ordust.Submission

/-!
# The work of a whole run

Every trade ends an order, its maker or its taker. The matching loops of a run together make no
more trades than submissions were accepted, however these were spread over the run.
-/

namespace Ordust

open RefBook

variable {S : Type} [Slab S OrderNode]

namespace BookEvent

def isAccepted : BookEvent → Bool
  | .accepted _ => true
  | _ => false

def isTrade : BookEvent → Bool
  | .trade _ => true
  | _ => false

def isCancelled : BookEvent → Bool
  | .cancelled _ => true
  | _ => false

end BookEvent

def accepted (evs : List BookEvent) : Nat := evs.countP BookEvent.isAccepted

def trades (evs : List BookEvent) : Nat := evs.countP BookEvent.isTrade

def cancellations (evs : List BookEvent) : Nat := evs.countP BookEvent.isCancelled

theorem tally_submission (id : OrderId) (ts : List Trade) (ending : List BookEvent) :
    accepted (.accepted id :: ts.map .trade ++ ending) = 1 + accepted ending ∧
      trades (.accepted id :: ts.map .trade ++ ending) = ts.length + trades ending ∧
      cancellations (.accepted id :: ts.map .trade ++ ending) = cancellations ending := by
  have htrade : BookEvent.isTrade ∘ BookEvent.trade = fun _ => true := rfl
  have haccepted : BookEvent.isAccepted ∘ BookEvent.trade = fun _ => false := rfl
  have hcancelled : BookEvent.isCancelled ∘ BookEvent.trade = fun _ => false := rfl
  simp only [accepted, trades, cancellations, List.cons_append, List.countP_cons, List.countP_append,
    List.countP_map, htrade, haccepted, hcancelled, List.countP_true, List.countP_false]
  simp only [BookEvent.isAccepted, BookEvent.isTrade, BookEvent.isCancelled]
  simp only [Bool.false_eq_true, if_false, if_true, Function.const_apply]
  omega

namespace RefBook

/-! ## How many orders rest -/

theorem length_ids (r : RefBook) : r.ids.length = (r .buy).length + (r .sell).length := by
  simp [ids]

theorem length_ids_update (r : RefBook) (s : Side) (os : List Order) :
    (ids (Function.update r s os)).length + (r s).length = r.ids.length + os.length := by
  rw [length_ids, length_ids]
  cases s
  · rw [Function.update_self, Function.update_of_ne (by simp)]
    omega
  · rw [Function.update_self, Function.update_of_ne (by simp)]
    omega

theorem matchOrders_length (taker : Order) (makers : List Order) :
    ∃ gone, makers.length = (matchOrders taker makers).2.2.length + gone ∧
      ((matchOrders taker makers).1.length = gone ∨
        (matchOrders taker makers).1.length = gone + 1 ∧ (matchOrders taker makers).2.1.rem = 0) := by
  obtain ⟨gone, left, rfl, -, hf⟩ := matchOrders_fills taker makers
  refine ⟨gone.length, ?_⟩
  generalize matchOrders taker (gone ++ left) = r at hf ⊢
  cases hf with
  | between n hn hstop =>
    refine ⟨?_, Or.inl (List.length_map _)⟩
    rw [List.length_append, Nat.add_comm]
  | inside m ms qty hleft hc hpos hlt hn =>
    subst hleft
    refine ⟨?_, Or.inr ⟨by simp [exhaust], rfl⟩⟩
    simp only [List.length_append, List.length_cons]
    omega

namespace Matched

variable {r : RefBook} {o : Order} {ts : List Trade} {n : UInt64}

theorem length (h : Matched r o ts n) (hok : Ok r) :
    ∃ gone, r.ids.length = (r.after (ts.map .trade)).ids.length + gone ∧
      (ts.length = gone ∨ ts.length = gone + 1 ∧ n.toNat = 0) := by
  obtain ⟨gone, hlen, hts⟩ := matchOrders_length o (r (oppositeSide o.side))
  have hupdate := length_ids_update r (oppositeSide o.side)
    (matchOrders o (r (oppositeSide o.side))).2.2
  rw [after_matchOrders hok o, h.trades] at hupdate
  rw [h.trades, h.rest] at hts
  exact ⟨gone, by omega, hts⟩

theorem length_pos (h : Matched r o ts 0) : 0 < ts.length := by
  have htotal := h.total
  have hpos := (validate_ok h.valid).1
  rw [UInt64.toNat_zero] at htotal
  rw [List.length_pos_iff]
  rintro rfl
  simp [tradeSum] at htotal
  omega

end Matched

theorem length_ids_cancel {r : RefBook} (hok : Ok r) {id : OrderId} (hid : id ∈ r.ids) :
    (r.after [.cancelled id]).ids.length + 1 = r.ids.length := by
  have herase : (r.cancel id).2.ids = r.ids.erase id := by
    rw [hok.nodup.erase_eq_filter, cancel, if_pos hid, ids, ids, List.filter_map, List.filter_append]
    simp only [Function.comp_def, ne_eq, decide_not]
    rfl
  rw [← (cancel_effect hid).2, herase, List.length_erase_of_mem hid]
  have := List.length_pos_of_mem hid
  omega

/-! ## What a call does to the tally -/

/-- An accepted order rests until a trade or a cancellation ends it, and a trade ends one or two. -/
def Tally (r : RefBook) (evs : List BookEvent) (r' : RefBook) : Prop :=
  trades evs + cancellations evs + r'.ids.length ≤ r.ids.length + accepted evs ∧
    r.ids.length + accepted evs ≤ 2 * trades evs + cancellations evs + r'.ids.length

theorem Effect.tally {r r' : RefBook} {c : Call} {evs : List BookEvent} (h : Effect r c evs r')
    (hok : Ok r) : Tally r evs r' := by
  unfold Tally
  cases h with
  | @cancelled id hid =>
    have hlen := length_ids_cancel hok hid
    have haccepted : accepted [.cancelled id] = 0 := rfl
    have htrades : trades [.cancelled id] = 0 := rfl
    have hcancelled : cancellations [.cancelled id] = 1 := rfl
    omega
  | @filled o ts hm =>
    obtain ⟨gone, hlen, hts⟩ := hm.length hok
    have hpos := hm.length_pos
    obtain ⟨haccepted, htrades, hcancelled⟩ := tally_submission o.id ts []
    rw [List.append_nil] at haccepted htrades hcancelled
    rw [haccepted, htrades, hcancelled]
    simp only [accepted, trades, cancellations, List.countP_nil]
    omega
  | @rested o ts n hm hn =>
    obtain ⟨gone, hlen, hts⟩ := hm.length hok
    obtain ⟨haccepted, htrades, hcancelled⟩ := tally_submission o.id ts [.restingOnBook o.id o.px ⟨n⟩]
    have hrest := (ids_rest (r.after (ts.map .trade)) (o.withRemaining n)).length_eq
    rw [haccepted, htrades, hcancelled, hrest, List.length_cons]
    simp only [accepted, trades, cancellations, List.countP_singleton, BookEvent.isAccepted,
      BookEvent.isTrade, BookEvent.isCancelled, Bool.false_eq_true, if_false]
    omega
  | @dropped o ts n hm hn =>
    obtain ⟨gone, hlen, hts⟩ := hm.length hok
    obtain ⟨haccepted, htrades, hcancelled⟩ := tally_submission o.id ts [.cancelled o.id]
    rw [haccepted, htrades, hcancelled]
    simp only [accepted, trades, cancellations, List.countP_singleton, BookEvent.isAccepted,
      BookEvent.isTrade, BookEvent.isCancelled, Bool.false_eq_true, if_false, if_true]
    omega

theorem Tally.refl (r : RefBook) : Tally r [] r := by
  simp [Tally, trades, cancellations, accepted]

theorem Tally.trans {r r' r'' : RefBook} {evs evs' : List BookEvent} (h : Tally r evs r')
    (h' : Tally r' evs' r'') : Tally r (evs ++ evs') r'' := by
  unfold Tally at h h' ⊢
  simp only [trades, cancellations, accepted, List.countP_append] at h h' ⊢
  omega

theorem call_tally {r : RefBook} (hok : Ok r) (c : Call) :
    Tally r (eventsOf (r.call c).1) (r.call c).2 := by
  rcases call_effect hok c with ⟨err, h⟩ | ⟨evs, hevs, h⟩
  · rw [h]
    exact Tally.refl r
  · rw [hevs]
    exact h.tally hok

theorem run_tally {r : RefBook} (hok : Ok r) (calls : List Call) :
    Tally r (logOf (r.run calls).1) (r.run calls).2 := by
  induction calls generalizing r with
  | nil => exact Tally.refl r
  | cons c calls ih =>
    have hrest := ih (hok.call c)
    simp only [run, Runs.run_cons, logOf_cons] at hrest ⊢
    exact (call_tally hok c).trans hrest

end RefBook

/-- Over a whole run, the trades, the cancellations and the orders that rest in the end are together
no more than the submissions that were accepted. These are no more than if every trade had ended two
orders. -/
theorem amortised_work (calls : List Call) (h : NoAddOverflow S calls) :
    ∃ (rs : List Response) (e : Engine S), (∀ pr, Engine.new.run pr calls = .ok (rs, e)) ∧
      trades (logOf rs) + cancellations (logOf rs) + e.book.resting.ids.length ≤
        accepted (logOf rs) ∧
      accepted (logOf rs) ≤
        2 * trades (logOf rs) + cancellations (logOf rs) + e.book.resting.ids.length := by
  obtain ⟨e, q, hrun, -, hres, -⟩ := reach h
  refine ⟨_, e, hrun, ?_⟩
  have htally := run_tally Ok.new calls
  have hempty : RefBook.new.ids.length = 0 := rfl
  unfold Tally at htally
  rw [hres]
  omega

/-- Six submissions, four of them accepted. -/
theorem amortised_work_twoSided :
    ∃ (rs : List Response) (e : Engine (FreeListSlab OrderNode)),
      (∀ pr, Engine.new.run pr twoSided = .ok (rs, e)) ∧
      trades (logOf rs) + cancellations (logOf rs) + e.book.resting.ids.length ≤
        accepted (logOf rs) ∧
      accepted (logOf rs) ≤
        2 * trades (logOf rs) + cancellations (logOf rs) + e.book.resting.ids.length :=
  amortised_work twoSided twoSided_noAddOverflow

end Ordust
