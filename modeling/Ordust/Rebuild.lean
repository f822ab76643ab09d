import Ordust.Commutation
import Ordust.QueuePosition

/-!
# A book rebuilt from its orders

The orders that rest, submitted again to an empty book, come to rest as they did: no two of them
trade. It is enough that those at one price keep their order. What came and went in between can be
forgotten.
-/

namespace Ordust

open RefBook

variable {S : Type} [Slab S OrderNode]

/-- The answer to an order that rests as it is. -/
def placed (o : Order) : Response := .ok [.accepted o.id, .restingOnBook o.id o.px o.remainingQty]

/-- Those of some orders that belong to one queue, in their order. -/
def queueOf (orders : List Order) (s : Side) (p : Price) : List Order :=
  orders.filter (fun o => o.side = s ∧ o.px = p)

theorem queueOf_cons_self (o : Order) (orders : List Order) :
    queueOf (o :: orders) o.side o.px = o :: queueOf orders o.side o.px :=
  List.filter_cons_of_pos (by simp)

theorem queueOf_cons_of_ne {o : Order} {s : Side} {p : Price} (orders : List Order)
    (h : ¬ (o.side = s ∧ o.px = p)) : queueOf (o :: orders) s p = queueOf orders s p :=
  List.filter_cons_of_neg (by simpa using h)

namespace RefBook

variable {r r' : RefBook} {o : Order} {orders : List Order}

theorem mem_iff_of_queues {os os' : List Order}
    (hq : ∀ p, os.filter (fun x => x.px = p) = os'.filter (fun x => x.px = p)) (x : Order) :
    x ∈ os ↔ x ∈ os' := by
  have hx := congrArg (x ∈ ·) (hq x.px)
  simpa using hx

theorem eq_of_queues {s : Side} {os os' : List Order} (h : Sorted s os) (h' : Sorted s os')
    (hq : ∀ p, os.filter (fun x => x.px = p) = os'.filter (fun x => x.px = p)) : os = os' := by
  have hmem := mem_iff_of_queues hq
  induction os generalizing os' with
  | nil =>
    symm
    rw [List.eq_nil_iff_forall_not_mem]
    intro x hx
    simpa using (hmem x).mpr hx
  | cons o os ih =>
    cases os' with
    | nil => simpa using (hmem o).mp List.mem_cons_self
    | cons o' os' =>
      obtain ⟨ho, hos⟩ := List.pairwise_cons.mp h
      obtain ⟨ho', hos'⟩ := List.pairwise_cons.mp h'
      have hpx : o.px = o'.px := by
        rcases List.mem_cons.mp ((hmem o).mp List.mem_cons_self) with rfl | hmo
        · rfl
        rcases List.mem_cons.mp ((hmem o').mpr List.mem_cons_self) with rfl | hmo'
        · rfl
        exact Side.eq_of_not_better (ho' o hmo) (ho o' hmo')
      have hhead := hq o.px
      rw [List.filter_cons_of_pos (by simp), List.filter_cons_of_pos (by simp [hpx])] at hhead
      obtain ⟨rfl, -⟩ := List.cons.inj hhead
      have htail : ∀ p, os.filter (fun x => x.px = p) = os'.filter (fun x => x.px = p) := by
        intro p
        have hp := hq p
        by_cases hop : o.px = p
        · rw [List.filter_cons_of_pos (by simpa using hop),
            List.filter_cons_of_pos (by simpa using hop)] at hp
          exact (List.cons.inj hp).2
        · rwa [List.filter_cons_of_neg (by simpa using hop),
            List.filter_cons_of_neg (by simpa using hop)] at hp
      rw [ih hos hos' htail (mem_iff_of_queues htail)]

theorem queue_rest (hok : Ok r) (o : Order) (s : Side) (p : Price) :
    (r.rest o).queue s p = r.queue s p ++ queueOf [o] s p := by
  by_cases hs : o.side = s
  · subst hs
    rw [queue, rest, Function.update_self, filter_insertOrder (hok.sorted o.side)]
    by_cases hp : o.px = p <;> simp [queueOf, queue, hp]
  · rw [queue, rest, Function.update_of_ne (Ne.symm hs), queueOf_cons_of_ne [] (fun hc => hs hc.1)]
    exact (List.append_nil _).symm

/-! ## Orders that have rested -/

theorem call_placed (ho : RestsAt o.side o.px o) (hid : o.id ∉ r.ids) (hp : r.Passive (.submit o)) :
    r.call (.submit o) = (placed o, r.rest o) := by
  have hrem := ho.pos
  have hv : r.validate o = .ok () := by
    unfold validate
    rw [if_neg (by omega), if_neg (by simp [ho.price]), if_neg (by simp [ho.limit]), if_neg hid]
  rw [call_passive hp, quietly, hv]
  simp only [unmatched, ho.gtc]
  rfl

/-- What rests, and the orders still to be placed, make up the queues of a sound book. -/
def Completes (r r' : RefBook) (orders : List Order) : Prop :=
  ∀ s p, r'.queue s p ++ queueOf orders s p = r.queue s p

theorem Completes.mem {s : Side} {x : Order} (h : Completes r r' orders) (hx : x ∈ r' s) : x ∈ r s := by
  have hq : x ∈ r'.queue s x.px ++ queueOf orders s x.px :=
    List.mem_append_left _ (List.mem_filter.mpr ⟨hx, decide_eq_true rfl⟩)
  rw [h] at hq
  exact (List.mem_filter.mp hq).1

theorem Completes.split (h : Completes r r' (o :: orders)) :
    r'.queue o.side o.px ++ o :: queueOf orders o.side o.px = r.queue o.side o.px := by
  rw [← queueOf_cons_self]
  exact h o.side o.px

theorem Completes.next (hok : Ok r) (h : Completes r r' (o :: orders)) :
    o ∈ r o.side ∧ o.id ∉ r'.ids ∧ r'.Passive (.submit o) := by
  have hmem : o ∈ r o.side := by
    have hq : o ∈ r.queue o.side o.px := by
      rw [← h.split]
      simp
    exact (List.mem_filter.mp hq).1
  have hrest := hok.rests o.side o hmem
  refine ⟨hmem, ?_, ?_⟩
  · intro hid
    obtain ⟨s, x, hx, hxid⟩ := (mem_ids r' o.id).mp hid
    obtain ⟨rfl, rfl⟩ := hok.eq_of_id hmem (h.mem hx) hxid.symm
    have hnd : (r.queue x.side x.px).Nodup :=
      (List.Nodup.of_map Order.id (hok.nodup_side x.side)).sublist List.filter_sublist
    rw [← h.split] at hnd
    have hxq : x ∈ r'.queue x.side x.px := List.mem_filter.mpr ⟨hx, decide_eq_true rfl⟩
    exact (List.nodup_append.mp hnd).2.2 x hxq x List.mem_cons_self rfl
  · intro x hx
    have hbetter := hok.uncrossed_of hmem (h.mem hx)
    rw [Order.crossesAt, hrest.limit]
    cases hs : o.side <;> rw [hs] at hbetter <;> exact decide_eq_false (not_le.mpr hbetter)

/-- The orders come to rest one by one, within the sums of the book that they make up. -/
theorem run_placed (hok : Ok r) (hok' : Ok r') (hfit : ∀ s p, qtySum (r.queue s p) < 2 ^ 64)
    (h : Completes r r' orders) :
    r'.run (orders.map .submit) = (orders.map placed, r) ∧ r'.FitsRun (orders.map .submit) := by
  induction orders generalizing r' with
  | nil =>
    have hsame : r' = r := by
      funext s
      apply eq_of_queues (hok'.sorted s) (hok.sorted s)
      intro p
      have hp := h s p
      rwa [queueOf, List.filter_nil, List.append_nil] at hp
    rw [hsame]
    exact ⟨rfl, trivial⟩
  | cons o orders ih =>
    obtain ⟨hmem, hid, hpassive⟩ := h.next hok
    have hrest := hok.rests o.side o hmem
    have hcall := call_placed hrest hid hpassive
    have hnext : Completes r (r'.rest o) orders := by
      intro s p
      rw [queue_rest hok', List.append_assoc, ← h s p]
      congr 1
      exact List.filter_append (p := fun x => decide (x.side = s ∧ x.px = p)) [o] orders |>.symm
    obtain ⟨hrun, hfits⟩ := ih (hok'.rest hrest hid hpassive) hnext
    constructor
    · rw [List.map_cons, run, Runs.run_cons, hcall]
      rw [run] at hrun
      rw [hrun]
      rfl
    · refine ⟨?_, ?_⟩
      · intro _
        refine ⟨fun ht => by simp [hrest.gtc] at ht, fun _ => ?_⟩
        have hsum := congrArg qtySum h.split
        rw [qtySum_append, qtySum_cons] at hsum
        have hlt := hfit o.side o.px
        show qtySum (r'.queue o.side o.px) + (o.rem - r'.crossingQty o) < 2 ^ 64
        omega
      · rw [hcall]
        exact hfits

end RefBook

/-- A book that is reached can be rebuilt from its orders alone, in any order that keeps each queue:
each of them rests as it is. The engine that comes out answers all later calls as the first one
does. -/
theorem rebuilt (before : List Call) (h : NoAddOverflow S before) :
    ∃ (rs : List Response) (e : Engine S), (∀ pr, Engine.new.run pr before = .ok (rs, e)) ∧
      ∀ orders, (∀ s p, queueOf orders s p = e.book.queueAt s p) →
        ∃ e' : Engine S,
          (∀ pr, Engine.new.run pr (orders.map .submit) = .ok (orders.map placed, e')) ∧
          e'.book.Alike e.book ∧
          ∀ later, NoAddOverflow S (before ++ later) → ∃ (rs' : List Response) (e₁ e₂ : Engine S),
            (∀ pr, e.run pr later = .ok (rs', e₁)) ∧ (∀ pr, e'.run pr later = .ok (rs', e₂)) ∧
            e₂.book.Alike e₁.book := by
  obtain ⟨e, q, hrun, hrep, hres, hok⟩ := reach h
  refine ⟨_, e, hrun, ?_⟩
  intro orders hqueues
  have hfit : ∀ s p, qtySum (e.book.resting.queue s p) < 2 ^ 64 := by
    intro s p
    rw [RefBook.queue, hrep.filter_px]
    exact hrep.fits s p
  have hall : Completes e.book.resting RefBook.new orders := by
    intro s p
    rw [hqueues s p, hrep.queueAt_eq]
    rfl
  obtain ⟨hplaced, hfits⟩ := run_placed hok Ok.new hfit hall
  obtain ⟨e', q', hrun', hrep', hres', -⟩ := reach ((noAddOverflow_iff (S := S) _).mpr hfits)
  rw [hplaced] at hrun' hres'
  refine ⟨e', hrun', hrep'.alike hrep hres', ?_⟩
  intro later hlater
  apply hrep.runs_alike hrep' hok hres'
  rw [hres]
  exact hlater.fits_later

/-- What is left of the orders of a run, in the order in which they came. -/
def leftOfTwoSided : List Order :=
  [(makeOrder 1 .buy 100 10 1 .limit .gtc).withRemaining 6, makeOrder 2 .sell 103 1 5 .limit .gtc,
    (makeOrder 4 .buy 102 7 4 .limit .gtc).withRemaining 2]

theorem rebuilt_twoSided :
    ∃ (rs : List Response) (e e' : Engine (FreeListSlab OrderNode)),
      (∀ pr, Engine.new.run pr twoSided = .ok (rs, e)) ∧
      (∀ pr, Engine.new.run pr (leftOfTwoSided.map .submit) = .ok (leftOfTwoSided.map placed, e')) ∧
      e'.book.Alike e.book := by
  obtain ⟨rs, e, hrun, hall⟩ := rebuilt twoSided twoSided_noAddOverflow
  obtain ⟨e₀, q, hrun₀, hrep, hres, -⟩ := reach twoSided_noAddOverflow
  obtain rfl : e = e₀ := (Prod.mk.inj (Except.ok.inj ((hrun .debug).symm.trans (hrun₀ .debug)))).2
  have hqueues : ∀ s p, queueOf leftOfTwoSided s p = e.book.queueAt s p := by
    intro s p
    have hbook : (RefBook.new.run twoSided).2 s =
        (leftOfTwoSided.filter (fun o => o.side = s)).reverse := by
      cases s <;> decide +kernel
    rw [hrep.queueAt_eq, hres, hbook]
    cases s with
    | buy =>
      by_cases hp : p = ⟨100⟩
      · subst hp
        decide
      · by_cases hp' : p = ⟨102⟩
        · subst hp'
          decide
        · simp [queueOf, leftOfTwoSided, makeOrder, Order.withRemaining, Order.px, Ne.symm hp, Ne.symm hp']
    | sell =>
      by_cases hp : p = ⟨103⟩
      · subst hp
        decide
      · simp [queueOf, leftOfTwoSided, makeOrder, Order.withRemaining, Order.px, Ne.symm hp]
  obtain ⟨e', hrun', halike, -⟩ := hall leftOfTwoSided hqueues
  exact ⟨rs, e, e', hrun, hrun', halike⟩

end Ordust
