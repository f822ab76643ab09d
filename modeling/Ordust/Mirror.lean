import Ordust.FillOrKill
import Ordust.Observe

/-!
# Buy and sell are mirror images

Swapping the sides and measuring every price down from a bound turns a run into another run. The
code has each side written out; both do the same.
-/

namespace Ordust

open RefBook

/-! ## The mirror -/

section Mirror

def Price.mirror (p M : Price) : Price := ⟨M.val - p.val⟩

variable (M : Price)

def Order.mirror (o : Order) : Order :=
  { o with side := oppositeSide o.side, price := o.price.map (fun p => p.mirror M) }

def Trade.mirror (t : Trade) : Trade := { t with price := t.price.mirror M }

def BookEvent.mirror : BookEvent → BookEvent
  | .trade t => .trade (t.mirror M)
  | .restingOnBook id p n => .restingOnBook id (p.mirror M) n
  | ev => ev

/-- An error is its own mirror image. -/
def mirrorResponse (response : Response) : Response := response.map (List.map (BookEvent.mirror M))

def Call.mirror : Call → Call
  | .submit o => .submit (o.mirror M)
  | .cancel id => .cancel id

def RefBook.mirror (r : RefBook) : RefBook := fun s => (r (oppositeSide s)).map (Order.mirror M)

/-- The prices of the call are at most `M`. -/
def Call.Below : Call → Prop
  | .submit o => ∀ p, o.price = some p → p ≤ M
  | .cancel _ => True

/-- The orders have prices, at most `M`. -/
def AllBelow (os : List Order) : Prop := ∀ o ∈ os, o.px ≤ M ∧ o.price = some o.px

def RefBook.Below (r : RefBook) : Prop := ∀ s, AllBelow M (r s)

end Mirror

variable {M : Price}

/-! ## Prices and orders -/

namespace Price

theorem toNat_mirror {p : Price} (h : p ≤ M) : (p.mirror M).toNat = M.toNat - p.toNat :=
  UInt64.toNat_sub_of_le M.val p.val h

theorem mirror_lt {p q : Price} (hp : p ≤ M) (hq : q ≤ M) : p.mirror M < q.mirror M ↔ q < p := by
  rw [lt_iff, toNat_mirror hp, toNat_mirror hq, lt_iff]
  rw [le_iff] at hp hq
  omega

theorem mirror_le {p q : Price} (hp : p ≤ M) (hq : q ≤ M) : p.mirror M ≤ q.mirror M ↔ q ≤ p := by
  rw [← not_lt, ← not_lt, mirror_lt hq hp]

theorem mirror_inj {p q : Price} (hp : p ≤ M) (hq : q ≤ M) : p.mirror M = q.mirror M ↔ p = q := by
  rw [le_antisymm_iff, le_antisymm_iff, mirror_le hp hq, mirror_le hq hp, and_comm]

end Price

theorem Side.better_mirror (s : Side) {p q : Price} (hp : p ≤ M) (hq : q ≤ M) :
    (oppositeSide s).better (p.mirror M) (q.mirror M) ↔ s.better p q := by
  cases s
  · exact Price.mirror_lt hp hq
  · exact Price.mirror_lt hq hp

namespace Order

@[simp] theorem rem_mirror (o : Order) : (o.mirror M).rem = o.rem := rfl

@[simp] theorem id_mirror (o : Order) : (o.mirror M).id = o.id := rfl

@[simp] theorem side_mirror (o : Order) : (o.mirror M).side = oppositeSide o.side := rfl

theorem px_mirror {o : Order} (h : o.price = some o.px) : (o.mirror M).px = o.px.mirror M := by
  rw [px, mirror, h]
  rfl

theorem admits_mirror {o : Order} (h : ∀ p, o.price = some p → p ≤ M) {p : Price} (hp : p ≤ M) :
    (o.mirror M).admits (p.mirror M) = o.admits p := by
  unfold admits mirror
  cases hl : o.price with
  | none => rfl
  | some limit =>
    cases hs : o.side <;>
      simp only [Option.map_some, oppositeSide_buy, oppositeSide_sell, Price.mirror_le, h limit hl, hp]

theorem crossesAt_mirror {o : Order} (hpriced : o.Priced) (h : ∀ p, o.price = some p → p ≤ M)
    {p : Price} (hp : p ≤ M) : (o.mirror M).crossesAt (p.mirror M) = o.crossesAt p := by
  unfold crossesAt px mirror
  cases ht : o.orderType with
  | market => rfl
  | limit =>
    obtain ⟨limit, hl⟩ := Option.ne_none_iff_exists'.mp (hpriced ht)
    cases hs : o.side <;>
      simp only [hl, Option.map_some, Option.getD_some, oppositeSide_buy, oppositeSide_sell,
        Price.mirror_le, h limit hl, hp]

end Order

@[simp] theorem qtySum_mirror (os : List Order) : qtySum (os.map (Order.mirror M)) = qtySum os := by
  rw [qtySum, List.map_map]
  rfl

theorem AllBelow.cons {o : Order} {os : List Order} (h : AllBelow M (o :: os)) :
    (o.px ≤ M ∧ o.price = some o.px) ∧ AllBelow M os :=
  ⟨h o List.mem_cons_self, fun x hx => h x (List.mem_cons_of_mem _ hx)⟩

namespace RefBook

theorem mem_ids_mirror {r : RefBook} {id : OrderId} : id ∈ (r.mirror M).ids ↔ id ∈ r.ids := by
  simp only [mem_ids, mirror, List.mem_map]
  constructor
  · rintro ⟨s, _, ⟨o, ho, rfl⟩, hid⟩
    exact ⟨oppositeSide s, o, ho, hid⟩
  · rintro ⟨s, o, ho, hid⟩
    exact ⟨oppositeSide s, _, ⟨o, by rwa [oppositeSide_oppositeSide], rfl⟩, hid⟩

/-! ## One side of the book -/

theorem insertOrder_mirror {o : Order} {os : List Order} (hs : Sorted o.side os)
    (ho : o.px ≤ M ∧ o.price = some o.px) (hos : AllBelow M os) :
    insertOrder (o.mirror M) (os.map (Order.mirror M)) = (insertOrder o os).map (Order.mirror M) := by
  obtain ⟨before, after, rfl, hb, ha, hins⟩ := hs.exists_cut
  have hbetter : ∀ x ∈ before ++ after,
      ((o.mirror M).side.better (o.mirror M).px (x.mirror M).px ↔ o.side.better o.px x.px) := by
    intro x hx
    obtain ⟨hle, hx⟩ := hos x hx
    rw [Order.side_mirror, Order.px_mirror ho.2, Order.px_mirror hx, Side.better_mirror _ ho.1 hle]
  rw [hins, List.map_append, List.map_append, List.map_cons]
  apply insertOrder_append
  · intro y hy
    obtain ⟨x, hx, rfl⟩ := List.mem_map.mp hy
    rw [hbetter x (List.mem_append_left _ hx)]
    exact hb x hx
  · intro y hy
    obtain ⟨x, hx, rfl⟩ := List.mem_map.mp hy
    rw [hbetter x (List.mem_append_right _ hx)]
    exact ha x hx

theorem perPrice_mirror {os : List Order} (h : AllBelow M os) :
    perPrice (os.map (Order.mirror M)) = (perPrice os).map (fun l => (l.1.mirror M, l.2)) := by
  induction os with
  | nil => rfl
  | cons o os ih =>
    obtain ⟨ho, hos⟩ := h.cons
    rw [List.map_cons, perPrice, perPrice, ih hos, Order.px_mirror ho.2]
    cases hl : perPrice os with
    | nil => rfl
    | cons l ls =>
      obtain ⟨p, n⟩ := l
      obtain ⟨x, hx, hp⟩ := @mem_perPrice os (p, n) (by rw [hl]; exact List.mem_cons_self)
      have hle : p ≤ M := by
        rw [← show x.px = p from hp]
        exact (hos x hx).1
      simp only [List.map_cons, Price.mirror_inj hle ho.1, Order.rem_mirror]
      split <;> rfl

theorem perPrice_le {os : List Order} (h : AllBelow M os) : ∀ l ∈ perPrice os, l.1 ≤ M := by
  intro l hl
  obtain ⟨x, hx, hp⟩ := mem_perPrice hl
  exact hp ▸ (h x hx).1

theorem qtySum_filter_mirror {os : List Order} (h : AllBelow M os) (P P' : Price → Bool)
    (hP : ∀ p, p ≤ M → P' (p.mirror M) = P p) :
    qtySum ((os.map (Order.mirror M)).filter (fun x => P' x.px)) =
      qtySum (os.filter (fun x => P x.px)) := by
  rw [List.filter_map, qtySum_mirror]
  congr 1
  apply List.filter_congr
  intro x hx
  obtain ⟨hle, hx⟩ := h x hx
  rw [Function.comp_apply, Order.px_mirror hx, hP _ hle]

/-! ## A match -/

def mirrorMatch (M : Price) (m : List Trade × Order × List Order) : List Trade × Order × List Order :=
  (m.1.map (Trade.mirror M), m.2.1.mirror M, m.2.2.map (Order.mirror M))

theorem matchOrders_mirror {o : Order} (hpriced : o.Priced) (ho : ∀ p, o.price = some p → p ≤ M)
    {makers : List Order} (h : AllBelow M makers) :
    matchOrders (o.mirror M) (makers.map (Order.mirror M)) = mirrorMatch M (matchOrders o makers) := by
  induction makers generalizing o with
  | nil => rfl
  | cons m ms ih =>
    obtain ⟨hm, hms⟩ := h.cons
    have htrade : ∀ qty, tradeOf (o.mirror M) (m.mirror M) qty = (tradeOf o m qty).mirror M := by
      intro qty
      rw [tradeOf, Order.px_mirror hm.2]
      rfl
    have hhead : headCrosses (o.mirror M) (m.mirror M :: ms.map (Order.mirror M)) =
        headCrosses o (m :: ms) := by
      simp only [headCrosses, List.head?_cons, Option.any_some, Order.px_mirror hm.2,
        Order.crossesAt_mirror hpriced ho hm.1]
    rw [List.map_cons]
    by_cases hstop : o.rem = 0 ∨ headCrosses o (m :: ms) = false
    · rw [matchOrders_stop o _ hstop, matchOrders_stop (o.mirror M) _ (by rwa [hhead])]
      rfl
    · rw [not_or, Bool.not_eq_false] at hstop
      obtain ⟨hne, hcross⟩ := hstop
      have hpos := Nat.pos_of_ne_zero hne
      by_cases hle : m.rem ≤ o.rem
      · rw [matchOrders_exhaust o m ms hpos hcross hle,
          matchOrders_exhaust (o.mirror M) _ _ hpos (hhead.trans hcross) hle, htrade]
        have hrest := @ih (o.withRemaining (o.remainingQty.val - m.remainingQty.val)) hpriced ho hms
        have hsame : (o.mirror M).withRemaining
            ((o.mirror M).remainingQty.val - (m.mirror M).remainingQty.val) =
            (o.withRemaining (o.remainingQty.val - m.remainingQty.val)).mirror M := rfl
        simp only [hsame, hrest]
        rfl
      · rw [matchOrders_inside o m ms hpos hcross (by omega),
          matchOrders_inside (o.mirror M) _ _ hpos (hhead.trans hcross) (Nat.lt_of_not_le hle), htrade]
        rfl

/-! ## A call -/

variable {r : RefBook} {o : Order}

theorem mirror_opposite (r : RefBook) (s : Side) :
    r.mirror M (oppositeSide s) = (r s).map (Order.mirror M) := by
  rw [mirror, oppositeSide_oppositeSide]

theorem mirror_update (r : RefBook) (s : Side) (os : List Order) :
    mirror M (Function.update r s os) =
      Function.update (r.mirror M) (oppositeSide s) (os.map (Order.mirror M)) := by
  funext s'
  by_cases hs : s' = oppositeSide s
  · subst hs
    rw [mirror_opposite, Function.update_self, Function.update_self]
  · have hs' : oppositeSide s' ≠ s := by
      rintro rfl
      simp at hs
    rw [Function.update_of_ne hs, mirror, Function.update_of_ne hs', mirror]

theorem validate_mirror (r : RefBook) (o : Order) :
    (r.mirror M).validate (o.mirror M) = r.validate o := by
  have hprice : (o.mirror M).price = none ↔ o.price = none := Option.map_eq_none_iff
  simp only [validate, Order.rem_mirror, Order.id_mirror, mem_ids_mirror, hprice]
  rfl

theorem takeWhile_mirror {ls : List (Price × Nat)} (h : ∀ l ∈ ls, l.1 ≤ M) {P P' : Price → Bool}
    (hP : ∀ p, p ≤ M → P' (p.mirror M) = P p) :
    (ls.map (fun l => (l.1.mirror M, l.2))).takeWhile (fun l => P' l.1) =
      (ls.takeWhile (fun l => P l.1)).map (fun l => (l.1.mirror M, l.2)) := by
  induction ls with
  | nil => rfl
  | cons l ls ih =>
    have hl := hP l.1 (h l List.mem_cons_self)
    rw [List.map_cons, List.takeWhile_cons, List.takeWhile_cons, hl,
      ih (fun l' hl' => h l' (List.mem_cons_of_mem _ hl'))]
    split <;> rfl

theorem canFullyFill_mirror (hb : r.Below M) (ho : ∀ p, o.price = some p → p ≤ M) :
    (r.mirror M).canFullyFill (o.mirror M) = r.canFullyFill o := by
  have hopp := hb (oppositeSide o.side)
  simp only [canFullyFill, Order.side_mirror, oppositeSide_oppositeSide]
  rw [mirror, perPrice_mirror hopp,
    takeWhile_mirror (perPrice_le hopp) (fun p hp => Order.admits_mirror ho hp), List.map_map]
  rfl

theorem scanFits_mirror (ho : ∀ p, o.price = some p → p ≤ M) {ls : List (Price × Nat)}
    (h : ∀ l ∈ ls, l.1 ≤ M) (acc : Nat) :
    ScanFits (o.mirror M) acc (ls.map (fun l => (l.1.mirror M, l.2))) ↔ ScanFits o acc ls := by
  induction ls generalizing acc with
  | nil => exact Iff.rfl
  | cons l ls ih =>
    simp only [List.map_cons, ScanFits, Order.admits_mirror ho (h l List.mem_cons_self),
      Order.rem_mirror, ih (fun l' hl' => h l' (List.mem_cons_of_mem _ hl'))]

theorem fits_mirror (hb : r.Below M) {c : Call} (hc : c.Below M) :
    (r.mirror M).Fits (c.mirror M) ↔ r.Fits c := by
  cases c with
  | cancel id => exact Iff.rfl
  | submit o =>
    have ho : ∀ p, o.price = some p → p ≤ M := hc
    have hopp := hb (oppositeSide o.side)
    simp only [Call.mirror, Fits, validate_mirror, CheckFits, Order.side_mirror, Order.rem_mirror]
    by_cases hv : r.validate o = .ok ()
    · obtain ⟨-, hpriced, hgtc, -⟩ := validate_ok hv
      have hcross : (r.mirror M).crossingQty (o.mirror M) = r.crossingQty o := by
        rw [crossingQty, crossingQty, Order.side_mirror, oppositeSide_oppositeSide]
        exact qtySum_filter_mirror hopp _ _ (fun p hp => Order.crossesAt_mirror hpriced ho hp)
      have hlevel : o.tif = .gtc → (r.mirror M).levelQty (oppositeSide o.side) (o.mirror M).px =
          r.levelQty o.side o.px := by
        intro hg
        obtain ⟨p, hp⟩ := Option.ne_none_iff_exists'.mp (hpriced (hgtc hg))
        have hpx : o.price = some o.px := by simp [Order.px, hp]
        rw [levelQty, levelQty, mirror_opposite, Order.px_mirror hpx]
        apply qtySum_filter_mirror (hb o.side) (fun q => decide (q = o.px))
          (fun q => decide (q = o.px.mirror M))
        intro q hq
        rw [decide_eq_decide, Price.mirror_inj hq (ho _ hpx)]
      rw [oppositeSide_oppositeSide, mirror, perPrice_mirror hopp, scanFits_mirror ho (perPrice_le hopp),
        hcross]
      exact imp_congr Iff.rfl (and_congr Iff.rfl (forall_congr' (fun hg => by rw [hlevel hg])))
    · simp only [hv, false_implies]

theorem remainder_mirror (hb : r.Below M) (hs : Sorted o.side (r o.side))
    (ho : o.tif = .gtc → o.px ≤ M ∧ o.price = some o.px) :
    remainder (r.mirror M) (o.mirror M) =
      ((remainder r o).1.map (BookEvent.mirror M), mirror M (remainder r o).2) := by
  unfold remainder
  rw [Order.rem_mirror, show (o.mirror M).tif = o.tif from rfl]
  split
  · rfl
  · cases ht : o.tif with
    | gtc =>
      obtain ⟨hle, hpx⟩ := ho ht
      simp only [Order.side_mirror, mirror_opposite, insertOrder_mirror hs ⟨hle, hpx⟩ (hb o.side),
        Order.px_mirror hpx, mirror_update]
      rfl
    | ioc => rfl
    | fok => rfl

theorem Below.matched (hb : r.Below M) (o : Order) :
    Below M (Function.update r (oppositeSide o.side) (matchOrders o (r (oppositeSide o.side))).2.2) := by
  intro s
  by_cases hs : s = oppositeSide o.side
  · subst hs
    rw [Function.update_self]
    intro x hx
    obtain ⟨y, hy, n, rfl⟩ := mem_matchOrders_left hx
    exact hb _ y hy
  · rw [Function.update_of_ne hs]
    exact hb s

theorem settle_mirror (hok : Ok r) (hb : r.Below M) (ho : ∀ p, o.price = some p → p ≤ M)
    (hv : r.validate o = .ok ()) : (r.mirror M).settle (o.mirror M) =
      (mirrorResponse M (r.settle o).1, mirror M (r.settle o).2) := by
  obtain ⟨-, hpriced, hgtc, -⟩ := validate_ok hv
  obtain ⟨n, hn⟩ := matchOrders_rest o (r (oppositeSide o.side))
  have hmatch := matchOrders_mirror hpriced ho (hb (oppositeSide o.side))
  rw [← mirror_opposite, oppositeSide_oppositeSide] at hmatch
  have hrest := remainder_mirror (o := o.withRemaining n) (hb.matched o)
    (by
      show Sorted o.side (Function.update r _ _ o.side)
      rw [Function.update_of_ne (oppositeSide_ne o.side).symm]
      exact hok.sorted o.side)
    (by
      intro hg
      obtain ⟨p, hp⟩ := Option.ne_none_iff_exists'.mp (hpriced (hgtc hg))
      have hpx : o.px = p := by simp [Order.px, hp]
      exact ⟨hpx ▸ ho p hp, hpx ▸ hp⟩)
  rw [mirror_update, ← hn] at hrest
  simp only [settle, Order.side_mirror, oppositeSide_oppositeSide] at hmatch hrest ⊢
  rw [hmatch]
  simp only [mirrorMatch, hrest]
  simp only [mirrorResponse, Except.map, List.map_append, List.map_cons, List.map_map]
  rfl

theorem call_mirror (hok : Ok r) (hb : r.Below M) {c : Call} (hc : c.Below M) :
    (r.mirror M).call (c.mirror M) = (mirrorResponse M (r.call c).1, mirror M (r.call c).2) := by
  cases c with
  | cancel id =>
    simp only [Call.mirror, call, cancel, mem_ids_mirror]
    split
    · refine Prod.ext rfl ?_
      funext s
      simp only [mirror, List.filter_map]
      rfl
    · rfl
  | submit o =>
    simp only [Call.mirror, call, submit_eq, validate_mirror]
    cases hv : r.validate o with
    | error err => rfl
    | ok u =>
      simp only [canFullyFill_mirror hb hc, show (o.mirror M).tif = o.tif from rfl]
      split
      · rfl
      · exact settle_mirror hok hb hc hv

theorem Below.call (hok : Ok r) (hb : r.Below M) {c : Call} (hc : c.Below M) : Below M (r.call c).2 := by
  rcases call_effect hok c with ⟨err, h⟩ | ⟨evs, -, he⟩
  · rw [h]
    exact hb
  · intro s y hy
    refine ⟨?_, ((he.ok hok).rests s y hy).px ▸ ((he.ok hok).rests s y hy).price⟩
    rcases he.mem_cases hy with ⟨x, hx, hxy⟩ | ⟨o, ts, n, rfl, -, -, rfl, -⟩
    · obtain ⟨n, rfl, -⟩ := survive_eq_some hxy
      exact (hb s x hx).1
    · cases hp : o.price with
      | none =>
        rw [Order.px_withRemaining, Order.px, hp, Price.le_iff]
        exact Nat.zero_le _
      | some p =>
        rw [Order.px_withRemaining, Order.px, hp]
        exact hc p hp

/-! ## A run -/

theorem Below.new : Below M RefBook.new := by
  intro s o ho
  simp [RefBook.new] at ho

theorem run_mirror {calls : List Call} (hc : ∀ c ∈ calls, c.Below M) :
    RefBook.new.run (calls.map (Call.mirror M)) =
        ((RefBook.new.run calls).1.map (mirrorResponse M), mirror M (RefBook.new.run calls).2) ∧
      Ok (RefBook.new.run calls).2 ∧ Below M (RefBook.new.run calls).2 :=
  Runs.run_map (mirror M) (Call.mirror M) (mirrorResponse M) (fun r => Ok r ∧ Below M r) (Call.Below M)
    (fun _ c hr hc => ⟨call_mirror hr.1 hr.2 hc, hr.1.call c, hr.2.call hr.1 hc⟩) RefBook.new calls
    ⟨Ok.new, Below.new⟩ hc

theorem fitsRun_mirror (hok : Ok r) (hb : r.Below M) {calls : List Call} (hc : ∀ c ∈ calls, c.Below M) :
    (r.mirror M).FitsRun (calls.map (Call.mirror M)) ↔ r.FitsRun calls := by
  induction calls generalizing r with
  | nil => exact Iff.rfl
  | cons c calls ih =>
    have hhead := hc c List.mem_cons_self
    rw [List.map_cons, FitsRun, FitsRun, fits_mirror hb hhead, call_mirror hok hb hhead]
    exact and_congr Iff.rfl
      (ih (hok.call c) (hb.call hok hhead) (fun c' hc' => hc c' (List.mem_cons_of_mem _ hc')))

end RefBook

variable {S : Type} [Slab S OrderNode]

theorem BookRep.depth_mirror {b b' : OrderBook S} {q q' : Queues} (h : BookRep b q)
    (h' : BookRep b' q') (hb : b.resting.Below M) (he : b'.resting = mirror M b.resting) (s : Side)
    (n : Nat) : b'.depth (oppositeSide s) n = (b.depth s n).map (fun l => (l.1.mirror M, l.2)) := by
  apply List.map_injective_iff.mpr levelSum_injective
  rw [h'.depth_eq, he, mirror_opposite, perPrice_mirror (hb s), ← List.map_take, ← h.depth_eq,
    List.map_map, List.map_map]
  rfl

/-- The mirror image of a run answers with the mirror images of the answers, and after each call the
depth of one side is the mirror image of the depth of the other. -/
theorem mirror_symmetry (M : Price) (calls : List Call) (hM : ∀ c ∈ calls, c.Below M)
    (h : NoAddOverflow S calls) : ∀ done, done <+: calls → ∃ (rs : List Response) (e e' : Engine S),
      (∀ pr, Engine.new.run pr done = .ok (rs, e)) ∧
      (∀ pr, Engine.new.run pr (done.map (Call.mirror M)) = .ok (rs.map (mirrorResponse M), e')) ∧
      ∀ s n, e'.book.depth (oppositeSide s) n =
        (e.book.depth s n).map (fun l => (l.1.mirror M, l.2)) := by
  rintro done ⟨later, rfl⟩
  have hdone : ∀ c ∈ done, c.Below M := fun c hc => hM c (List.mem_append_left _ hc)
  have h := h.of_append
  have h' : NoAddOverflow S (done.map (Call.mirror M)) := by
    rw [noAddOverflow_iff] at h ⊢
    exact (fitsRun_mirror Ok.new Below.new hdone).mpr h
  obtain ⟨hmirror, -, hbelow⟩ := run_mirror hdone
  obtain ⟨e, q, hrun, hrep, hres, -⟩ := reach h
  obtain ⟨e', q', hrun', hrep', hres', -⟩ := reach h'
  rw [hmirror] at hrun' hres'
  rw [← hres] at hbelow hres'
  exact ⟨_, e, e', hrun, hrun', hrep.depth_mirror hrep' hbelow hres'⟩

theorem mirror_symmetry_twoSided :
    ∃ (rs : List Response) (e e' : Engine (FreeListSlab OrderNode)),
      (∀ pr, Engine.new.run pr twoSided = .ok (rs, e)) ∧
      (∀ pr, Engine.new.run pr (twoSided.map (Call.mirror ⟨200⟩)) =
        .ok (rs.map (mirrorResponse ⟨200⟩), e')) ∧
      ∀ s n, e'.book.depth (oppositeSide s) n =
        (e.book.depth s n).map (fun l => (l.1.mirror ⟨200⟩, l.2)) := by
  refine mirror_symmetry ⟨200⟩ twoSided (fun c hc => ?_) twoSided_noAddOverflow _ (List.prefix_refl _)
  simp only [twoSided, List.mem_cons, List.not_mem_nil, or_false] at hc
  rcases hc with rfl | rfl | rfl | rfl | rfl | rfl <;> rintro p ⟨rfl⟩ <;> decide

end Ordust
