import Ordust.Failure
import Ordust.Observe

/-!
# What the engine does not look at

Identifiers are only compared, and timestamps and the original quantities are only carried along. To
change them in all calls of a run changes them in the answers and in the book, and nothing else.
-/

namespace Ordust

open RefBook

/-- Other names for the orders, and other timestamps and original quantities. -/
structure Renaming where
  id : OrderId → OrderId
  timestamp : Timestamp → Timestamp
  qty : Qty → Qty
  injective : Function.Injective id

namespace Renaming

variable (f : Renaming)

def order (o : Order) : Order :=
  { o with id := f.id o.id, timestamp := f.timestamp o.timestamp, qty := f.qty o.qty }

def trade (t : Trade) : Trade :=
  { t with makerOrderId := f.id t.makerOrderId, takerOrderId := f.id t.takerOrderId,
           timestamp := f.timestamp t.timestamp }

def error : EngineError → EngineError
  | .orderNotFound id => .orderNotFound (f.id id)
  | .duplicateOrderId id => .duplicateOrderId (f.id id)
  | err => err

def event : BookEvent → BookEvent
  | .accepted id => .accepted (f.id id)
  | .rejected id reason => .rejected (f.id id) (f.error reason)
  | .trade t => .trade (f.trade t)
  | .cancelled id => .cancelled (f.id id)
  | .restingOnBook id p n => .restingOnBook (f.id id) p n

def response : Response → Response
  | .error err => .error (f.error err)
  | .ok evs => .ok (evs.map f.event)

def call : Call → Call
  | .submit o => .submit (f.order o)
  | .cancel id => .cancel (f.id id)

def book (r : RefBook) : RefBook := fun s => (r s).map f.order

/-! ## What stays -/

@[simp] theorem order_id (o : Order) : (f.order o).id = f.id o.id := rfl

@[simp] theorem order_side (o : Order) : (f.order o).side = o.side := rfl

@[simp] theorem order_type (o : Order) : (f.order o).orderType = o.orderType := rfl

@[simp] theorem order_price (o : Order) : (f.order o).price = o.price := rfl

@[simp] theorem order_tif (o : Order) : (f.order o).tif = o.tif := rfl

@[simp] theorem order_rem (o : Order) : (f.order o).rem = o.rem := rfl

@[simp] theorem order_px (o : Order) : (f.order o).px = o.px := rfl

@[simp] theorem order_admits (o : Order) (p : Price) : (f.order o).admits p = o.admits p := rfl

@[simp] theorem book_apply (r : RefBook) (s : Side) : f.book r s = (r s).map f.order := rfl

@[simp] theorem qtySum_map (os : List Order) : qtySum (os.map f.order) = qtySum os := by
  simp [qtySum, Function.comp_def]

theorem filter_map {P P' : Order → Bool} (hP : ∀ o, P' (f.order o) = P o) (os : List Order) :
    (os.map f.order).filter P' = (os.filter P).map f.order := by
  rw [List.filter_map]
  congr 1
  exact List.filter_congr (fun o _ => hP o)

theorem insertOrder_map (o : Order) (os : List Order) :
    insertOrder (f.order o) (os.map f.order) = (insertOrder o os).map f.order := by
  unfold insertOrder
  rw [List.takeWhile_map, List.dropWhile_map, List.map_append, List.map_cons]
  rfl

theorem perPrice_map (os : List Order) : perPrice (os.map f.order) = perPrice os := by
  induction os with
  | nil => rfl
  | cons o os ih =>
    rw [List.map_cons, perPrice, perPrice, ih]
    rfl

theorem matchOrders_map (o : Order) (makers : List Order) :
    matchOrders (f.order o) (makers.map f.order) =
      ((matchOrders o makers).1.map f.trade, f.order (matchOrders o makers).2.1,
        (matchOrders o makers).2.2.map f.order) := by
  induction makers generalizing o with
  | nil => rfl
  | cons m ms ih =>
    rw [List.map_cons]
    by_cases hstop : o.rem = 0 ∨ headCrosses o (m :: ms) = false
    · rw [matchOrders_stop o _ hstop, matchOrders_stop (f.order o) (f.order m :: ms.map f.order) hstop]
      rfl
    · rw [not_or, Bool.not_eq_false] at hstop
      obtain ⟨hne, hcross⟩ := hstop
      have hpos := Nat.pos_of_ne_zero hne
      by_cases hle : m.rem ≤ o.rem
      · have hrest := ih (o.withRemaining (o.remainingQty.val - m.remainingQty.val))
        rw [matchOrders_exhaust o m ms hpos hcross hle,
          matchOrders_exhaust (f.order o) (f.order m) (ms.map f.order) hpos hcross hle]
        have hsame : (f.order o).withRemaining
            ((f.order o).remainingQty.val - (f.order m).remainingQty.val) =
            f.order (o.withRemaining (o.remainingQty.val - m.remainingQty.val)) := rfl
        simp only [hsame, hrest]
        rfl
      · have hlt := Nat.lt_of_not_le hle
        rw [matchOrders_inside o m ms hpos hcross hlt,
          matchOrders_inside (f.order o) (f.order m) (ms.map f.order) hpos hcross hlt]
        rfl

/-! ## A call -/

variable (r : RefBook) (o : Order)

theorem update_map (s : Side) (os : List Order) :
    f.book (Function.update r s os) = Function.update (f.book r) s (os.map f.order) := by
  funext s'
  by_cases hs : s' = s
  · subst hs
    simp
  · simp [hs]

theorem mem_ids (id : OrderId) : f.id id ∈ (f.book r).ids ↔ id ∈ r.ids := by
  simp [ids, f.injective.eq_iff]

theorem validate_map : (f.book r).validate (f.order o) =
    match r.validate o with
    | .error err => .error (f.error err)
    | .ok () => .ok () := by
  unfold validate
  rw [order_rem, order_type, order_price, order_tif, order_id]
  split
  · rfl
  split
  · rfl
  split
  · rfl
  · by_cases hid : o.id ∈ r.ids
    · rw [if_pos hid, if_pos ((f.mem_ids r o.id).mpr hid)]
      rfl
    · rw [if_neg hid, if_neg (hid ∘ (f.mem_ids r o.id).mp)]

theorem canFullyFill_map : (f.book r).canFullyFill (f.order o) = r.canFullyFill o := by
  unfold canFullyFill
  simp [f.perPrice_map]

theorem remainder_map : remainder (f.book r) (f.order o) =
    ((remainder r o).1.map f.event, f.book (remainder r o).2) := by
  unfold remainder
  rw [order_rem, order_tif]
  split
  · rfl
  · cases o.tif with
    | gtc =>
      simp only [order_side, book_apply, f.insertOrder_map, update_map]
      rfl
    | ioc => rfl
    | fok => rfl

theorem settle_map : (f.book r).settle (f.order o) = (f.response (r.settle o).1, f.book (r.settle o).2) := by
  unfold settle
  simp only [order_side, book_apply, f.matchOrders_map, ← update_map, f.remainder_map]
  simp [response, event, Function.comp_def]

theorem call_map (c : Call) :
    (f.book r).call (f.call c) = (f.response (r.call c).1, f.book (r.call c).2) := by
  cases c with
  | cancel id =>
    simp only [call, RefBook.call, cancel, f.mem_ids]
    split
    · refine Prod.ext rfl ?_
      funext s
      have hne : ∀ o : Order, decide ((f.order o).id ≠ f.id id) = decide (o.id ≠ id) := by
        simp [f.injective.eq_iff]
      exact f.filter_map hne (r s)
    · rfl
  | submit o =>
    simp only [call, RefBook.call, submit_eq, f.validate_map]
    cases hv : r.validate o with
    | error err => rfl
    | ok u =>
      simp only [f.canFullyFill_map, order_tif]
      split
      · rfl
      · exact f.settle_map r o

/-! ## A run -/

theorem run_map (calls : List Call) :
    (f.book r).run (calls.map f.call) = ((r.run calls).1.map f.response, f.book (r.run calls).2) :=
  (Runs.run_map f.book f.call f.response (fun _ => True) (fun _ => True)
    (fun r c _ _ => ⟨f.call_map r c, trivial⟩) r calls trivial (fun _ _ => trivial)).1

theorem fits_map (c : Call) : (f.book r).Fits (f.call c) ↔ r.Fits c := by
  cases c with
  | cancel id => exact Iff.rfl
  | submit o =>
    have hv : (f.book r).validate (f.order o) = .ok () ↔ r.validate o = .ok () := by
      rw [f.validate_map]
      split <;> simp [*]
    have hcross : (f.book r).crossingQty (f.order o) = r.crossingQty o := by
      unfold crossingQty
      rw [order_side, book_apply, f.filter_map (fun _ => rfl), qtySum_map]
      rfl
    have hlevel : (f.book r).levelQty o.side o.px = r.levelQty o.side o.px := by
      unfold levelQty
      rw [book_apply, f.filter_map (fun _ => rfl), qtySum_map]
      rfl
    have hscan : ∀ acc ls, ScanFits (f.order o) acc ls ↔ ScanFits o acc ls := by
      intro acc ls
      induction ls generalizing acc with
      | nil => exact Iff.rfl
      | cons l ls ih => simp only [ScanFits, order_admits, order_rem, ih]
    simp only [call, Fits, hv, CheckFits, order_side, order_tif, order_px, order_rem, book_apply,
      f.perPrice_map, hscan, hcross, hlevel]

theorem fitsRun_map (calls : List Call) :
    (f.book r).FitsRun (calls.map f.call) ↔ r.FitsRun calls := by
  induction calls generalizing r with
  | nil => exact Iff.rfl
  | cons c calls ih =>
    rw [List.map_cons, FitsRun, FitsRun, f.fits_map, f.call_map, ih]

end Renaming

variable {S : Type} [Slab S OrderNode]

/-- A run whose orders have other names, timestamps and original quantities answers with these names
and timestamps. Its book has the same depth, and the same queues under them. -/
theorem names_are_only_compared (f : Renaming) (calls : List Call) (h : NoAddOverflow S calls) :
    ∃ (rs : List Response) (e e' : Engine S), (∀ pr, Engine.new.run pr calls = .ok (rs, e)) ∧
      (∀ pr, Engine.new.run pr (calls.map f.call) = .ok (rs.map f.response, e')) ∧
      (∀ s n, e'.book.depth s n = e.book.depth s n) ∧
      ∀ s p, e'.book.queueAt s p = (e.book.queueAt s p).map f.order := by
  have h' : NoAddOverflow S (calls.map f.call) := by
    rw [noAddOverflow_iff] at h ⊢
    exact (f.fitsRun_map RefBook.new calls).mpr h
  have hmap := f.run_map RefBook.new calls
  obtain ⟨e, q, hrun, hrep, hres, -⟩ := reach h
  obtain ⟨e', q', hrun', hrep', hres', -⟩ := reach h'
  rw [show RefBook.new = f.book RefBook.new from rfl, hmap] at hrun' hres'
  have hbook : e'.book.resting = f.book e.book.resting := by rw [hres', hres]
  refine ⟨_, e, e', hrun, hrun', ?_, ?_⟩
  · intro s n
    apply List.map_injective_iff.mpr levelSum_injective
    rw [hrep'.depth_eq, hbook, Renaming.book_apply, f.perPrice_map, ← hrep.depth_eq]
  · intro s p
    rw [hrep'.queueAt_eq, hrep.queueAt_eq, hbook]
    exact f.filter_map (fun _ => rfl) _

/-- Names counted from 100 on, in reversed order of time. -/
def laterNames : Renaming where
  id i := ⟨i.val + 100⟩
  timestamp t := ⟨1000 - t.val⟩
  qty _ := ⟨1⟩
  injective := by
    rintro ⟨i⟩ ⟨j⟩ hij
    simpa using hij

theorem names_are_only_compared_twoSided :
    ∃ (rs : List Response) (e e' : Engine (FreeListSlab OrderNode)),
      (∀ pr, Engine.new.run pr twoSided = .ok (rs, e)) ∧
      (∀ pr, Engine.new.run pr (twoSided.map laterNames.call) = .ok (rs.map laterNames.response, e')) ∧
      (∀ s n, e'.book.depth s n = e.book.depth s n) ∧
      ∀ s p, e'.book.queueAt s p = (e.book.queueAt s p).map laterNames.order :=
  names_are_only_compared laterNames twoSided twoSided_noAddOverflow

end Ordust
