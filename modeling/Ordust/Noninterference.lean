import Ordust.Log
import Ordust.Observe

/-!
# An order cancelled unfilled leaves no trace

Two runs, one with an order that never trades and one without it. They are related by deleting
the order from the book: every other call answers the same on both.
-/

namespace Ordust

/-- The order that a call is about. -/
def Call.id : Call → OrderId
  | .submit order => order.id
  | .cancel id => id

namespace RefBook

/-! ## Lists without one order -/

def without (id : OrderId) (os : List Order) : List Order := os.filter (fun x => x.id ≠ id)

@[simp] theorem without_nil (id : OrderId) : without id [] = [] := rfl

theorem without_cons_of_ne {id : OrderId} {o : Order} (os : List Order) (h : o.id ≠ id) :
    without id (o :: os) = o :: without id os :=
  List.filter_cons_of_pos (by simpa using h)

theorem without_cons_of_eq {id : OrderId} {o : Order} (os : List Order) (h : o.id = id) :
    without id (o :: os) = without id os :=
  List.filter_cons_of_neg (by simpa using h)

theorem without_append (id : OrderId) (os ps : List Order) :
    without id (os ++ ps) = without id os ++ without id ps :=
  List.filter_append _ _

theorem mem_without {id : OrderId} {o : Order} {os : List Order} :
    o ∈ without id os ↔ o ∈ os ∧ o.id ≠ id := by
  simp [without]

theorem without_sublist (id : OrderId) (os : List Order) : (without id os).Sublist os :=
  List.filter_sublist

theorem without_eq_self {id : OrderId} {os : List Order} (h : ∀ o ∈ os, o.id ≠ id) :
    without id os = os := by
  unfold without
  rw [List.filter_eq_self]
  simpa using h

theorem Sorted.without {s : Side} {os : List Order} (h : Sorted s os) (id : OrderId) :
    Sorted s (without id os) :=
  h.sublist (without_sublist id os)

theorem insertOrder_without {o : Order} {os : List Order} {id : OrderId} (hs : Sorted o.side os)
    (hid : o.id ≠ id) : insertOrder o (without id os) = without id (insertOrder o os) := by
  obtain ⟨before, after, rfl, hb, ha, hins⟩ := hs.exists_cut
  rw [hins, without_append, without_append, without_cons_of_ne _ hid]
  apply insertOrder_append
  · intro y hy
    exact hb y (mem_without.mp hy).1
  · intro y hy
    exact ha y (mem_without.mp hy).1

/-! ## Matching past an order that it does not reach -/

theorem matchOrders_without {taker : Order} {makers : List Order} {id : OrderId}
    (hs : Sorted (oppositeSide taker.side) makers)
    (hno : ∀ t ∈ (matchOrders taker makers).1, t.makerOrderId ≠ id) :
    matchOrders taker (without id makers) = ((matchOrders taker makers).1,
      (matchOrders taker makers).2.1, without id (matchOrders taker makers).2.2) := by
  induction makers generalizing taker with
  | nil => rfl
  | cons m ms ih =>
    by_cases hstop : taker.rem = 0 ∨ headCrosses taker (m :: ms) = false
    · rw [matchOrders_stop taker _ hstop]
      apply matchOrders_stop
      apply hstop.imp_right
      intro hc
      -- Behind a head that does not cross nothing does.
      have hnone := headCrosses_eq_false hs hc
      unfold headCrosses
      rw [Option.any_eq_false]
      intro x hx
      have hmem := (mem_without.mp (List.mem_of_mem_head? hx)).1
      rw [hnone x hmem]
    · rw [not_or, Bool.not_eq_false] at hstop
      obtain ⟨hne, hc⟩ := hstop
      have hpos := Nat.pos_of_ne_zero hne
      by_cases hle : m.rem ≤ taker.rem
      · rw [matchOrders_exhaust taker m ms hpos hc hle] at hno ⊢
        have hm : m.id ≠ id := hno _ List.mem_cons_self
        have htail := @ih (taker.withRemaining (taker.remainingQty.val - m.remainingQty.val))
          (List.pairwise_cons.mp hs).2 (fun t ht => hno t (List.mem_cons_of_mem _ ht))
        rw [without_cons_of_ne ms hm, matchOrders_exhaust taker m _ hpos
          (by simpa [headCrosses] using hc) hle, htail]
      · have hlt := Nat.lt_of_not_le hle
        rw [matchOrders_inside taker m ms hpos hc hlt] at hno ⊢
        have hm : m.id ≠ id := hno _ List.mem_cons_self
        have hleft : (m.withRemaining (m.remainingQty.val - taker.remainingQty.val)).id ≠ id := hm
        rw [without_cons_of_ne ms hm, matchOrders_inside taker m _ hpos
          (by simpa [headCrosses] using hc) hlt]
        simp only [without_cons_of_ne ms hleft]

theorem matchOrders_cover {taker : Order} {makers : List Order}
    (h : (matchOrders taker makers).2.1.rem = 0) :
    ∃ front behind, makers = front ++ behind ∧ taker.rem ≤ qtySum front ∧
      ∀ m ∈ front, ∃ t ∈ (matchOrders taker makers).1, t.makerOrderId = m.id := by
  obtain ⟨gone, left, rfl, -, hf⟩ := matchOrders_fills taker makers
  generalize matchOrders taker (gone ++ left) = r at hf h ⊢
  have hgone : ∀ m ∈ gone, ∃ t ∈ exhaust taker gone, t.makerOrderId = m.id := by
    intro m hm
    exact ⟨_, List.mem_map_of_mem hm, rfl⟩
  cases hf with
  | between n hn hstop =>
    have h0 : n.toNat = 0 := h
    exact ⟨gone, left, rfl, by omega, hgone⟩
  | inside m ms qty hleft hc hpos hlt hn =>
    subst hleft
    refine ⟨gone ++ [m], ms, by simp, ?_, ?_⟩
    · rw [qtySum_append, qtySum_cons]
      omega
    · intro x hx
      rcases List.mem_append.mp hx with hx | hx
      · obtain ⟨t, ht, hid⟩ := hgone x hx
        exact ⟨t, List.mem_append_left _ ht, hid⟩
      · rw [List.mem_singleton.mp hx]
        exact ⟨tradeOf taker m qty, by simp, rfl⟩

/-! ## The fill-or-kill check -/

theorem admits_of_not_better (o : Order) {p p' : Price}
    (h : ¬ (oppositeSide o.side).better p' p) (ha : o.admits p' = true) : o.admits p = true := by
  unfold Order.admits at ha ⊢
  cases hp : o.price with
  | none => rfl
  | some limit =>
    rw [hp] at ha
    cases hs : o.side <;> rw [hs] at h ha <;> simp only [decide_eq_true_eq] at ha ⊢
    · exact le_trans (not_lt.mp h) ha
    · exact le_trans ha (not_lt.mp h)

/-- The orders that the check counts. -/
def admitted (o : Order) (os : List Order) : List Order := os.takeWhile (fun x => o.admits x.px)

theorem admitted_cons_of_pos {o m : Order} (ms : List Order) (h : o.admits m.px = true) :
    admitted o (m :: ms) = m :: admitted o ms :=
  List.takeWhile_cons_of_pos h

theorem admitted_cons_of_neg {o m : Order} (ms : List Order) (h : ¬ o.admits m.px = true) :
    admitted o (m :: ms) = [] :=
  List.takeWhile_cons_of_neg h

theorem canFullyFill_eq (r : RefBook) (o : Order) :
    r.canFullyFill o = decide (o.rem ≤ qtySum (admitted o (r (oppositeSide o.side)))) := by
  rw [canFullyFill, perPrice_takeWhile]
  rfl

theorem admitted_without {o : Order} {os : List Order} (hs : Sorted (oppositeSide o.side) os)
    (id : OrderId) : admitted o (without id os) = without id (admitted o os) := by
  induction os with
  | nil => rfl
  | cons m ms ih =>
    have htail := ih (List.pairwise_cons.mp hs).2
    by_cases hm : o.admits m.px = true
    · by_cases hid : m.id = id
      · rw [without_cons_of_eq ms hid, htail, admitted_cons_of_pos ms hm, without_cons_of_eq _ hid]
      · rw [without_cons_of_ne ms hid, admitted_cons_of_pos _ hm, htail, admitted_cons_of_pos ms hm,
          without_cons_of_ne _ hid]
    · -- What is behind an order that is not admitted is not admitted either.
      have hnone : ∀ x ∈ m :: ms, ¬ o.admits x.px = true := by
        intro x hx hc
        rcases List.mem_cons.mp hx with rfl | hx
        · exact hm hc
        · exact hm (admits_of_not_better o ((List.pairwise_cons.mp hs).1 x hx) hc)
      have hnil : ∀ xs : List Order, (∀ x ∈ xs, x ∈ m :: ms) → admitted o xs = [] := by
        intro xs hxs
        cases xs with
        | nil => rfl
        | cons x xs => exact admitted_cons_of_neg xs (hnone x (hxs x List.mem_cons_self))
      rw [hnil _ (fun x hx => (mem_without.mp hx).1), hnil _ (fun x hx => hx)]
      rfl

theorem cover_without {o : Order} {makers : List Order} {id : OrderId}
    (hrem : (matchOrders o makers).2.1.rem = 0)
    (hno : ∀ t ∈ (matchOrders o makers).1, t.makerOrderId ≠ id)
    (hcov : o.rem ≤ qtySum (admitted o makers)) :
    o.rem ≤ qtySum (without id (admitted o makers)) := by
  obtain ⟨front, behind, hsplit, hle, htraded⟩ := matchOrders_cover hrem
  have hfront : ∀ m ∈ front, m.id ≠ id := by
    intro m hm
    obtain ⟨t, ht, hid⟩ := htraded m hm
    exact hid ▸ hno t ht
  have hpre : front <+: makers := ⟨behind, hsplit.symm⟩
  have hadm : admitted o makers <+: makers := List.takeWhile_prefix _
  rcases List.prefix_or_prefix_of_prefix hpre hadm with h | h
  · rw [← without_eq_self hfront] at hle
    exact le_trans hle (qtySum_le_of_sublist (h.sublist.filter _))
  · rw [without_eq_self (fun m hm => hfront m (h.subset hm))]
    exact hcov

/-! ## The additions of the check -/

@[elab_as_elim]
theorem Sorted.block_induction {s : Side} {motive : List Order → Prop} (nil : motive [])
    (block : ∀ p xs os, xs ≠ [] → (∀ x ∈ xs, x.px = p) → (∀ o ∈ os, o.px ≠ p) → Sorted s os →
      motive os → motive (xs ++ os)) : ∀ os, Sorted s os → motive os
  | [], _ => nil
  | o :: os, h => by
    have hsplit : o :: os = (o :: os.takeWhile (fun x => x.px = o.px)) ++
        os.dropWhile (fun x => x.px = o.px) := by
      rw [List.cons_append, List.takeWhile_append_dropWhile]
    have hdrop : Sorted s (os.dropWhile (fun x => x.px = o.px)) :=
      (List.pairwise_cons.mp h).2.sublist (List.dropWhile_sublist _)
    have hlen : (os.dropWhile (fun x => x.px = o.px)).length < (o :: os).length :=
      Nat.lt_succ_of_le (List.dropWhile_sublist _).length_le
    rw [hsplit]
    apply block o.px _ _ (by simp) _ _ hdrop (Sorted.block_induction nil block _ hdrop)
    · intro x hx
      rcases List.mem_cons.mp hx with rfl | hx
      · rfl
      · simpa using List.mem_takeWhile_imp hx
    · cases hd : os.dropWhile (fun x => x.px = o.px) with
      | nil => simp
      | cons z zs =>
        -- The first order at another price is worse, and what follows it no better.
        have hz : z.px ≠ o.px := by
          have := List.head?_dropWhile_not (fun x => decide (x.px = o.px)) os
          rw [hd] at this
          simpa using this
        have hmem : z ∈ os := (List.dropWhile_sublist _).subset (hd ▸ List.mem_cons_self)
        have hbetter : s.better o.px z.px := by
          by_contra hc
          exact hz (Side.eq_of_not_better ((List.pairwise_cons.mp h).1 z hmem) hc)
        rw [hd] at hdrop
        intro x hx hpx
        rcases List.mem_cons.mp hx with rfl | hx
        · exact hz hpx
        · exact (List.pairwise_cons.mp hdrop).1 x hx (hpx ▸ hbetter)
  termination_by os => os.length
  decreasing_by exact hlen

theorem scanFits_without {o : Order} {id : OrderId} {os : List Order}
    (hs : Sorted (oppositeSide o.side) os) (front : List Order) (hpre : front <+: os)
    (hno : ∀ m ∈ front, m.id ≠ id) (acc : Nat) (hacc : acc < o.rem)
    (hcov : o.rem ≤ acc + qtySum front) (h : ScanFits o acc (perPrice os)) :
    ScanFits o acc (perPrice (without id os)) := by
  revert front acc
  refine Sorted.block_induction ?_ ?_ os hs
  · intro front _ _ acc _ _ h
    exact h
  · intro p xs os hne hxs hos _ ih front hpre hno acc hacc hcov h
    rw [perPrice_run p xs os hne hxs hos] at h
    have hrest : ∀ o ∈ without id os, o.px ≠ p := fun o ho => hos o (mem_without.mp ho).1
    have hle := qtySum_le_of_sublist (without_sublist id xs)
    rw [without_append]
    rcases List.prefix_or_prefix_of_prefix hpre (List.prefix_append xs os) with hshort | hlong
    · -- The first price covers the order.
      have hfront : front.Sublist (without id xs) := by
        rw [← without_eq_self hno]
        exact hshort.sublist.filter _
      have hsum := qtySum_le_of_sublist hfront
      have hxs' : without id xs ≠ [] := by
        intro hc
        rw [hc, qtySum_nil] at hsum
        omega
      rw [perPrice_run p _ _ hxs' (fun x hx => hxs x (mem_without.mp hx).1) hrest]
      intro hadm
      have hfit := (h hadm).1
      exact ⟨by omega, fun hlt => absurd hlt (by omega)⟩
    · -- The first price is all in front of the order left out.
      obtain ⟨front', rfl⟩ := hlong
      rw [without_eq_self (fun m hm => hno m (List.mem_append_left _ hm)),
        perPrice_run p xs _ hne hxs hrest]
      intro hadm
      obtain ⟨hfit, hmore⟩ := h hadm
      refine ⟨hfit, fun hlt => ?_⟩
      apply ih front' ((List.prefix_append_right_inj xs).mp hpre)
        (fun m hm => hno m (List.mem_append_right _ hm)) _ hlt _ (hmore hlt)
      rw [qtySum_append] at hcov
      omega

/-! ## One call on two books -/

/-- The book without an order. -/
def erase (r : RefBook) (id : OrderId) : RefBook := fun s => without id (r s)

theorem mem_ids_erase {r : RefBook} {id id' : OrderId} (h : id' ≠ id) :
    id' ∈ (r.erase id).ids ↔ id' ∈ r.ids := by
  simp only [mem_ids, erase, mem_without]
  constructor
  · rintro ⟨s, o, ⟨ho, -⟩, hid⟩
    exact ⟨s, o, ho, hid⟩
  · rintro ⟨s, o, ho, rfl⟩
    exact ⟨s, o, ⟨ho, h⟩, rfl⟩

theorem erase_update (r : RefBook) (s : Side) (os : List Order) (id : OrderId) :
    RefBook.erase (Function.update r s os) id = Function.update (r.erase id) s (without id os) := by
  funext s'
  by_cases hs : s' = s
  · subst hs
    simp [erase]
  · simp [erase, Function.update_of_ne hs]

theorem erase_rest {r : RefBook} {o : Order} (hid : o.id ∉ r.ids) : (r.rest o).erase o.id = r := by
  have hno : ∀ s, ∀ x ∈ r s, x.id ≠ o.id := fun s x hx hc => hid ((mem_ids r _).mpr ⟨s, x, hx, hc⟩)
  rw [rest, erase_update]
  funext s
  by_cases hs : s = o.side
  · subst hs
    rw [Function.update_self, insertOrder, without_append, without_cons_of_eq _ rfl, ← without_append,
      List.takeWhile_append_dropWhile, without_eq_self (hno o.side)]
  · rw [Function.update_of_ne hs]
    exact without_eq_self (hno s)

/-- The calls in which an order does not trade. -/
def Untraded (id : OrderId) (evs : List BookEvent) : Prop :=
  ∀ t, .trade t ∈ evs → t.makerOrderId ≠ id

section Call

variable {r : RefBook} {o : Order} {id : OrderId}

theorem validate_erase (hid : o.id ≠ id) : (r.erase id).validate o = r.validate o := by
  unfold validate
  simp only [mem_ids_erase hid]

theorem untraded_matchOrders (hv : r.validate o = .ok ())
    (hf : o.tif = .fok → r.canFullyFill o = true) (hno : Untraded id (eventsOf (r.submit o).1)) :
    ∀ t ∈ (matchOrders o (r (oppositeSide o.side))).1, t.makerOrderId ≠ id := by
  intro t ht
  apply hno t
  rw [submit_eq, hv]
  have hc : ¬ (o.tif = .fok ∧ r.canFullyFill o = false) := by
    rintro ⟨h, hc⟩
    rw [hf h] at hc
    simp at hc
  simp only [if_neg hc, settle, eventsOf]
  simp [ht]

theorem canFullyFill_erase (hok : Ok r) (hv : r.validate o = .ok ())
    (hno : Untraded id (eventsOf (r.submit o).1)) :
    (r.erase id).canFullyFill o = r.canFullyFill o := by
  have hs := hok.sorted (oppositeSide o.side)
  have hadm : admitted o (r.erase id (oppositeSide o.side)) =
      without id (admitted o (r (oppositeSide o.side))) := admitted_without hs id
  rw [canFullyFill_eq, hadm]
  cases hf : r.canFullyFill o with
  | true =>
    have hcov : o.rem ≤ qtySum (admitted o (r (oppositeSide o.side))) := by
      rw [canFullyFill_eq] at hf
      exact of_decide_eq_true hf
    have hrem := matchOrders_fok hok (validate_ok hv).2.1 hf
    exact decide_eq_true
      (cover_without hrem (untraded_matchOrders hv (fun _ => hf) hno) hcov)
  | false =>
    rw [canFullyFill_eq] at hf
    have hlt := of_decide_eq_false hf
    have hle := qtySum_le_of_sublist (without_sublist id (admitted o (r (oppositeSide o.side))))
    exact decide_eq_false (by omega)

theorem remainder_erase (r : RefBook) (hs : Sorted o.side (r o.side)) (hid : o.id ≠ id) :
    remainder (r.erase id) o = ((remainder r o).1, (remainder r o).2.erase id) := by
  unfold remainder
  split
  · rfl
  · split
    · rw [erase_update, ← insertOrder_without hs hid]
      rfl
    · rfl
    · rfl

theorem settle_erase (hok : Ok r) (hid : o.id ≠ id)
    (hno : ∀ t ∈ (matchOrders o (r (oppositeSide o.side))).1, t.makerOrderId ≠ id) :
    (r.erase id).settle o = ((r.settle o).1, (r.settle o).2.erase id) := by
  obtain ⟨n, hn⟩ := matchOrders_rest o (r (oppositeSide o.side))
  have hm : matchOrders o (r.erase id (oppositeSide o.side)) = _ :=
    matchOrders_without (hok.sorted (oppositeSide o.side)) hno
  unfold settle
  simp only [hm, hn, ← erase_update]
  rw [remainder_erase]
  · show Sorted o.side (Function.update r (oppositeSide o.side) _ o.side)
    rw [Function.update_of_ne (oppositeSide_ne o.side).symm]
    exact hok.sorted o.side
  · exact hid

/-- A call that does not use an order, nor trade with it, is the same call without it. -/
theorem call_erase {c : Call} (hok : Ok r) (hid : c.id ≠ id)
    (hno : Untraded id (eventsOf (r.call c).1)) :
    (r.erase id).call c = ((r.call c).1, (r.call c).2.erase id) := by
  cases c with
  | cancel id' =>
    have hid : id' ≠ id := hid
    rw [call, call, cancel, cancel]
    by_cases hmem : id' ∈ r.ids
    · rw [if_pos ((mem_ids_erase hid).mpr hmem), if_pos hmem]
      have hcomm : (fun s => (r.erase id s).filter (fun o => o.id ≠ id')) =
          RefBook.erase (fun s => (r s).filter (fun o => o.id ≠ id')) id := by
        funext s
        exact List.filter_comm _ _ _
      rw [hcomm]
    · rw [if_neg (fun hc => hmem ((mem_ids_erase hid).mp hc)), if_neg hmem]
  | submit o =>
    have hid : o.id ≠ id := hid
    have hno : Untraded id (eventsOf (r.submit o).1) := hno
    rw [call, call, submit_eq, submit_eq, validate_erase hid]
    cases hv : r.validate o with
    | error err => rfl
    | ok u =>
      simp only
      by_cases hfok : o.tif = .fok ∧ r.canFullyFill o = false
      · rw [if_pos hfok, if_pos ⟨hfok.1, (canFullyFill_erase hok hv hno).trans hfok.2⟩]
      · have hf : o.tif = .fok → r.canFullyFill o = true := by
          intro ht
          rw [← Bool.not_eq_false]
          exact fun hc => hfok ⟨ht, hc⟩
        have hfok' : ¬ (o.tif = .fok ∧ (r.erase id).canFullyFill o = false) := by
          rintro ⟨ht, hc⟩
          rw [canFullyFill_erase hok hv hno, hf ht] at hc
          simp at hc
        rw [if_neg hfok, if_neg hfok']
        exact settle_erase hok hid (untraded_matchOrders hv hf hno)

theorem fits_erase {c : Call} (hok : Ok r) (hid : c.id ≠ id)
    (hno : Untraded id (eventsOf (r.call c).1)) (h : r.Fits c) : (r.erase id).Fits c := by
  cases c with
  | cancel id' => trivial
  | submit o =>
    have hid : o.id ≠ id := hid
    have hno : Untraded id (eventsOf (r.submit o).1) := hno
    have hs := hok.sorted (oppositeSide o.side)
    intro hv
    rw [validate_erase hid] at hv
    obtain ⟨hscan, hlevel⟩ := h hv
    constructor
    · intro ht
      cases hf : r.canFullyFill o with
      | true =>
        have hrem := matchOrders_fok hok (validate_ok hv).2.1 hf
        have hnone := untraded_matchOrders hv (fun _ => hf) hno
        obtain ⟨front, behind, hsplit, hle, htraded⟩ := matchOrders_cover hrem
        apply scanFits_without hs front ⟨behind, hsplit.symm⟩ _ 0 (validate_ok hv).1 (by omega)
          (hscan ht)
        intro m hm
        obtain ⟨t, htr, hmid⟩ := htraded m hm
        exact hmid ▸ hnone t htr
      | false =>
        -- All that the check admits is less than the order asks for.
        apply scanFits_of_sum
        rw [canFullyFill_eq] at hf
        have hlt := of_decide_eq_false hf
        have hle := qtySum_le_of_sublist (without_sublist id (admitted o (r (oppositeSide o.side))))
        rw [← admitted_without hs] at hle
        have hrem : o.rem < 2 ^ 64 := o.remainingQty.toNat_lt
        rw [perPrice_takeWhile, Nat.zero_add]
        exact lt_of_le_of_lt hle (by omega)
    · intro ht
      have hnone := untraded_matchOrders hv (by simp [ht]) hno
      have hrest := congrArg (fun m => Order.rem m.2.1) (matchOrders_without hs hnone)
      simp only [matchOrders_rem o _ hs, matchOrders_rem o _ (hs.without id)] at hrest
      have hle : (r.erase id).levelQty o.side o.px ≤ r.levelQty o.side o.px :=
        qtySum_le_of_sublist ((without_sublist id _).filter _)
      have hrem : o.rem - (r.erase id).crossingQty o = o.rem - r.crossingQty o := hrest
      have := hlevel ht
      omega

end Call

/-! ## Two runs -/

theorem run_erase {r : RefBook} {id : OrderId} (hok : Ok r) (calls : List Call)
    (hid : ∀ c ∈ calls, c.id ≠ id) (hno : Untraded id (logOf (r.run calls).1)) :
    (r.erase id).run calls = ((r.run calls).1, (r.run calls).2.erase id) ∧
      (r.FitsRun calls → (r.erase id).FitsRun calls) := by
  induction calls generalizing r with
  | nil => exact ⟨rfl, fun h => h⟩
  | cons c calls ih =>
    simp only [run, Runs.run_cons] at hno ⊢
    rw [logOf_cons] at hno
    have hc := hid c List.mem_cons_self
    have hown : Untraded id (eventsOf (r.call c).1) := fun t ht => hno t (List.mem_append_left _ ht)
    have hstep := call_erase hok hc hown
    obtain ⟨hrun, hfits⟩ := ih (hok.call c) (fun c' h => hid c' (List.mem_cons_of_mem _ h))
      (fun t ht => hno t (List.mem_append_right _ ht))
    rw [hstep]
    simp only [run] at hrun
    refine ⟨by rw [hrun], ?_⟩
    rintro ⟨hfit, hmore⟩
    refine ⟨fits_erase hok hc hown hfit, ?_⟩
    rw [hstep]
    exact hfits hmore

end RefBook

variable {S : Type} [Slab S OrderNode]

open RefBook

theorem RefBook.erase_submitted {r : RefBook} (hok : Ok r) {o : Order} {p : Price} {n : Qty}
    (hrest : .restingOnBook o.id p n ∈ eventsOf (r.call (.submit o)).1)
    (hno : ∀ t, .trade t ∈ eventsOf (r.call (.submit o)).1 → t.takerOrderId ≠ o.id) :
    (r.call (.submit o)).2.erase o.id = r := by
  rcases call_effect hok (.submit o) with ⟨err, hc⟩ | ⟨evs, hevs, he⟩
  · rw [hc] at hrest
    simp [eventsOf] at hrest
  · rw [hevs] at hrest hno
    rcases he.shape with ⟨hnone, -⟩ | ⟨o', ts, n, hc, hm, -, rfl, hr⟩
    · exact absurd hrest (hnone _ _ _)
    · obtain rfl : o = o' := Call.submit.inj hc
      have hts : ts = [] := by
        rw [List.eq_nil_iff_forall_not_mem]
        intro t ht
        exact hno t (by simp [eventsOf, ht]) (hm.trade ht).1
      subst hts
      rw [hr, after_resting, after_accepted, List.map_nil, after_nil]
      exact erase_rest hm.fresh

theorem RefBook.cancel_ok {r : RefBook} {id : OrderId} {evs : List BookEvent}
    (h : (r.call (.cancel id)).1 = .ok evs) : (r.call (.cancel id)).2 = r.erase id := by
  rw [call, cancel] at h ⊢
  by_cases hid : id ∈ r.ids
  · rw [if_pos hid]
    rfl
  · rw [if_neg hid] at h
    simp at h

section Without

variable {r : RefBook} {o : Order} {p : Price} {n : Qty} {evs : List BookEvent}

/-- The calls between the submission and the cancellation of an order that does not trade, and
those after it, are the same on the book that never had the order. -/
theorem RefBook.run_without (hok : Ok r) (mid post : List Call) (hid : ∀ c ∈ mid, c.id ≠ o.id)
    (hrest : .restingOnBook o.id p n ∈ eventsOf (r.call (.submit o)).1)
    (htaker : ∀ t, .trade t ∈ eventsOf (r.call (.submit o)).1 → t.takerOrderId ≠ o.id)
    (hmaker : Untraded o.id (logOf ((r.call (.submit o)).2.run mid).1))
    (hgone : (((r.call (.submit o)).2.run mid).2.call (.cancel o.id)).1 = .ok evs) :
    let r₁ := (r.call (.submit o)).2
    let r₂ := ((r₁.run mid).2.call (.cancel o.id)).2
    r.run (mid ++ post) = ((r₁.run mid).1 ++ (r₂.run post).1, (r₂.run post).2) ∧
      (r₁.FitsRun mid → r₂.FitsRun post → r.FitsRun (mid ++ post)) := by
  intro r₁ r₂
  have hsub : r₁.erase o.id = r := erase_submitted hok hrest htaker
  have hcancel : r₂ = (r₁.run mid).2.erase o.id := cancel_ok hgone
  obtain ⟨hrun, hfits⟩ := run_erase (hok.call (.submit o)) mid hid hmaker
  rw [hsub, ← hcancel] at hrun
  rw [hsub] at hfits
  constructor
  · rw [run_append, hrun]
  · intro hmid hpost
    rw [fitsRun_append, hrun]
    exact ⟨hfits hmid, hpost⟩

end Without

/-- Without an order that rested, did not trade and was cancelled, a run answers all other calls the
same and leaves the same book. Only the calls in between must not use its identifier. -/
theorem cancelled_unfilled_leaves_no_trace (pre mid post : List Call) (o : Order)
    (h : NoAddOverflow S (pre ++ .submit o :: (mid ++ .cancel o.id :: post)))
    (hid : ∀ c ∈ mid, c.id ≠ o.id) :
    ∃ (rs₁ rs₂ rs₃ : List Response) (own gone : Response) (e : Engine S),
      (∀ pr, Engine.new.run pr (pre ++ .submit o :: (mid ++ .cancel o.id :: post)) =
        .ok (rs₁ ++ own :: (rs₂ ++ gone :: rs₃), e)) ∧
      rs₁.length = pre.length ∧ rs₂.length = mid.length ∧ rs₃.length = post.length ∧
      ((∃ p n, .restingOnBook o.id p n ∈ eventsOf own) →
        (∀ t, .trade t ∈ logOf (own :: rs₂) → t.makerOrderId ≠ o.id ∧ t.takerOrderId ≠ o.id) →
        (∃ evs, gone = .ok evs) →
        ∃ e' : Engine S, (∀ pr, Engine.new.run pr (pre ++ (mid ++ post)) =
            .ok (rs₁ ++ (rs₂ ++ rs₃), e')) ∧
          e'.book.Alike e.book) := by
  obtain ⟨e, q, hrun, hrep, hres, -⟩ := reach h
  have hfits := (noAddOverflow_iff _).mp h
  have hok : Ok (RefBook.new.run pre).2 := Ok.new.run pre
  rw [run_append] at hrun hres
  rw [fitsRun_append] at hfits
  obtain ⟨hpre, hsubmit, hrest⟩ := hfits
  obtain ⟨hmid, hcancel, hpost⟩ := (fitsRun_append _ _ _).mp hrest
  simp only [RefBook.run, Runs.run_cons, Runs.run_append] at hrun hres hmid hcancel hpost
  refine ⟨_, _, _, _, _, e, hrun, Runs.length_run _ _, Runs.length_run _ _, Runs.length_run _ _, ?_⟩
  rintro ⟨p, n, hrests⟩ htrades ⟨evs, hgone⟩
  rw [logOf_cons] at htrades
  obtain ⟨hwithout, hfits⟩ := RefBook.run_without hok mid post hid hrests
    (fun t ht => (htrades t (List.mem_append_left _ ht)).2)
    (fun t ht => (htrades t (List.mem_append_right _ ht)).1) hgone
  have hno : NoAddOverflow S (pre ++ (mid ++ post)) := by
    rw [noAddOverflow_iff, fitsRun_append]
    exact ⟨hpre, hfits hmid hpost⟩
  obtain ⟨e', q', hrun', hrep', hres', -⟩ := reach hno
  rw [run_append, hwithout] at hrun' hres'
  exact ⟨e', hrun', hrep'.alike hrep (hres'.trans hres.symm)⟩

/-- The calls while a bid that is the best one waits and is not reached. -/
def whileBestBidWaits : List Call :=
  [.submit (makeOrder 3 .sell 103 4 3 .limit .gtc),
   .submit (makeOrder 4 .buy 103 3 4 .limit .fok),
   .submit (makeOrder 5 .sell 101 20 5 .limit .fok)]

theorem cancelled_unfilled_leaves_no_trace_bestBid :
    ∃ (rs₁ rs₂ rs₃ : List Response) (e e' : Engine (FreeListSlab OrderNode)),
      (∀ pr, Engine.new.run pr ([.submit (makeOrder 1 .buy 100 10 1 .limit .gtc)] ++
          .submit (makeOrder 2 .buy 101 5 2 .limit .gtc) :: (whileBestBidWaits ++
            .cancel ⟨2⟩ :: [.submit (makeOrder 6 .sell 100 25 6 .limit .ioc)])) =
        .ok (rs₁ ++ .ok [.accepted ⟨2⟩, .restingOnBook ⟨2⟩ ⟨101⟩ ⟨5⟩] ::
          (rs₂ ++ .ok [.cancelled ⟨2⟩] :: rs₃), e)) ∧
      (∀ pr, Engine.new.run pr ([.submit (makeOrder 1 .buy 100 10 1 .limit .gtc)] ++
          (whileBestBidWaits ++ [.submit (makeOrder 6 .sell 100 25 6 .limit .ioc)])) =
        .ok (rs₁ ++ (rs₂ ++ rs₃), e')) ∧
      e'.book.Alike e.book := by
  obtain ⟨rs₁, rs₂, rs₃, own, gone, e, hrun, h₁, h₂, -, hsame⟩ :=
    cancelled_unfilled_leaves_no_trace (S := FreeListSlab OrderNode)
      [.submit (makeOrder 1 .buy 100 10 1 .limit .gtc)] whileBestBidWaits
      [.submit (makeOrder 6 .sell 100 25 6 .limit .ioc)] (makeOrder 2 .buy 101 5 2 .limit .gtc)
      (NoAddOverflow.of_isOk (by decide +kernel)) (by decide)
  have hout := congrArg (Except.map Prod.fst) (hrun .debug)
  have hvalue : Except.map Prod.fst ((Engine.new : Engine (FreeListSlab OrderNode)).run .debug
      ([.submit (makeOrder 1 .buy 100 10 1 .limit .gtc)] ++
        .submit (makeOrder 2 .buy 101 5 2 .limit .gtc) :: (whileBestBidWaits ++
          .cancel ⟨2⟩ :: [.submit (makeOrder 6 .sell 100 25 6 .limit .ioc)]))) =
      .ok ([.ok [.accepted ⟨1⟩, .restingOnBook ⟨1⟩ ⟨100⟩ ⟨10⟩]] ++
        .ok [.accepted ⟨2⟩, .restingOnBook ⟨2⟩ ⟨101⟩ ⟨5⟩] ::
        ([.ok [.accepted ⟨3⟩, .restingOnBook ⟨3⟩ ⟨103⟩ ⟨4⟩],
          .ok [.accepted ⟨4⟩, .trade ⟨⟨3⟩, ⟨4⟩, ⟨103⟩, ⟨3⟩, ⟨4⟩⟩],
          .error .fokNotFillable] ++ .ok [.cancelled ⟨2⟩] ::
        [.ok [.accepted ⟨6⟩, .trade ⟨⟨1⟩, ⟨6⟩, ⟨100⟩, ⟨10⟩, ⟨6⟩⟩, .cancelled ⟨6⟩]])) := by
    decide +kernel
  obtain ⟨rfl, ht₁⟩ := List.append_inj (Except.ok.inj (hout.symm.trans hvalue)) h₁
  obtain ⟨rfl, ht₂⟩ := List.cons.inj ht₁
  obtain ⟨rfl, ht₃⟩ := List.append_inj ht₂ h₂
  obtain ⟨rfl, rfl⟩ := List.cons.inj ht₃
  obtain ⟨e', hrun', halike⟩ := hsame ⟨⟨101⟩, ⟨5⟩, by decide⟩ (by simp [logOf, eventsOf, makeOrder]) ⟨_, rfl⟩
  exact ⟨_, _, _, e, e', hrun, hrun', halike⟩

end Ordust
