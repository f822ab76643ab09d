import Ordust.Reach
import Mathlib.Data.List.Infix

/-!
# No panic and no defensive branch

While no side sums to `2^64`, no call panics, and the branches of the code that should not be
reached are not.
-/

namespace Ordust

variable {S : Type} [Slab S OrderNode]

open RefBook

namespace Engine

/-! ## Inside the matching loop -/

/-- The head of the matching loop, the first time and after any number of iterations. -/
inductive AtLoop (pr : Profile) (e : Engine S) (o : Order) : Engine S → Order → Prop where
  | first : AtLoop pr e o e o
  | next {e₁ : Engine S} {t : Order} {fill : FillResult} {book : OrderBook S} {remaining : UInt64}
      (h : AtLoop pr e o e₁ t) (hleft : t.remainingQty.val ≠ 0) (hc : e₁.crosses t = .ok true)
      (hfill : e₁.book.matchAtBest pr (oppositeSide t.side) t.remainingQty = .ok (some fill, book))
      (hsub : pr.sub t.remainingQty.val fill.filledQty.val = .ok remaining) :
      AtLoop pr e o { e₁ with book := book } { t with remainingQty := ⟨remaining⟩ }

theorem matchAtBest_of_crosses (pr : Profile) {e : Engine S} {q : Queues} {t : Order}
    (h : BookRep e.book q) (hp : t.Priced) (hleft : t.remainingQty.val ≠ 0)
    (hc : e.crosses t = .ok true) :
    ∃ fill book q', e.book.matchAtBest pr (oppositeSide t.side) t.remainingQty =
      .ok (some fill, book) ∧ BookRep book q' ∧ fill.filledQty.toNat ≤ t.rem := by
  rw [crosses_eq h t hp] at hc
  have hpos : 0 < t.rem := Nat.pos_of_ne_zero (fun h0 => hleft ((Order.rem_eq_zero t).mpr h0))
  obtain ⟨m, ms, hms⟩ : ∃ m ms, e.book.resting (oppositeSide t.side) = m :: ms := by
    cases hr : e.book.resting (oppositeSide t.side) with
    | nil => simp [hr, headCrosses] at hc
    | cons m ms => exact ⟨m, ms, rfl⟩
  obtain ⟨book, q', hrep, ⟨hle, hrun, -⟩ | ⟨-, hrun, -⟩⟩ := h.matchAtBest_spec t.remainingQty hms hpos
  · exact ⟨_, book, q', hrun pr, hrep, hle⟩
  · exact ⟨_, book, q', hrun pr, hrep, le_refl _⟩

theorem AtLoop.inv {pr : Profile} {e e₁ : Engine S} {o t : Order} {q : Queues}
    (h : AtLoop pr e o e₁ t) (hrep : BookRep e.book q) (hp : o.Priced) :
    t.Priced ∧ ∃ q₁, BookRep e₁.book q₁ := by
  induction h with
  | first => exact ⟨hp, q, hrep⟩
  | next _ hleft hc hfill _ ih =>
    obtain ⟨hp₁, q₁, hrep₁⟩ := ih
    obtain ⟨fill, book, q', hrun, hrep', -⟩ := matchAtBest_of_crosses pr hrep₁ hp₁ hleft hc
    rw [hfill] at hrun
    obtain ⟨-, rfl⟩ := Prod.mk.inj (Except.ok.inj hrun)
    exact ⟨hp₁, q', hrep'⟩

/-! ## One call -/

/-- `submit_order` of `o` comes past the checks. -/
structure Passes (pr : Profile) (e : Engine S) (o : Order) : Prop where
  valid : e.validate o = .ok ()
  fillable : o.tif = .fok → e.canFullyFill pr o = .ok true

/-- No call on `e` panics, but for an addition in a debug build where a release build ends up with
a side that sums to `2^64`, and the defensive branches are dead. -/
structure Safe (e : Engine S) : Prop where
  returns : ∀ c, ∃ x, e.call .release c = .ok x ∧
    (e.call .debug c = .ok x ∨
      (e.call .debug c = .error .addOverflow ∧ ∃ s, 2 ^ 64 ≤ qtySum (x.2.book.resting s)))
  /-- `crosses` has its price, and what it finds is there to be matched. -/
  loop : ∀ pr o e₁ t, e.Passes pr o → e.AtLoop pr o e₁ t → ∃ c, e₁.crosses t = .ok c ∧
    (t.remainingQty.val ≠ 0 → c = true → ∃ fill book,
      e₁.book.matchAtBest pr (oppositeSide t.side) t.remainingQty = .ok (some fill, book) ∧
        fill.filledQty.toNat ≤ t.remainingQty.toNat)
  removes : ∀ id k, e.book.orderIndex.lookup id = some k →
    ∃ o book, e.book.removeOrder id = .ok (some o, book)
  fokFilled : ∀ pr o trades rest e₁, e.Passes pr o → o.tif = .fok →
    e.matchOrder pr o = .ok (trades, rest, e₁) → rest.remainingQty.val = 0

theorem safe {e : Engine S} {q : Queues} (h : BookRep e.book q) (hok : Ok e.book.resting)
    (hsums : ∀ s, qtySum (e.book.resting s) < 2 ^ 64) : e.Safe where
  returns := by
    intro c
    rcases call_refines h hok c with ⟨-, e', q', hrun, -⟩ | ⟨hno, hpanic, hwraps⟩
    · exact ⟨_, hrun .release, Or.inl (hrun .debug)⟩
    · obtain ⟨e', hrun, hres⟩ := hwraps (checkFits_of_sums c hsums)
      refine ⟨_, hrun, Or.inr ⟨hpanic, ?_⟩⟩
      by_contra hc
      simp only [not_exists, not_le, hres] at hc
      exact hno (fits_of_sums hok c hsums hc)
  loop := by
    intro pr o e₁ t hpass hloop
    have hv := hpass.valid
    rw [validate_eq h o] at hv
    obtain ⟨hp, q₁, hrep⟩ := hloop.inv h (validate_ok hv).2.1
    refine ⟨_, crosses_eq hrep t hp, fun hleft hc => ?_⟩
    obtain ⟨fill, book, q', hrun, -, hle⟩ := matchAtBest_of_crosses pr hrep hp hleft
      (by rw [crosses_eq hrep t hp, hc])
    exact ⟨fill, book, hrun, hle⟩
  removes := by
    intro id k hk
    rcases h.removeOrder_spec hok.nodup id with ⟨hid, -⟩ | ⟨-, o, book, q', hrun, -⟩
    · rw [(h.lookup_eq_none id).mpr hid] at hk
      simp at hk
    · exact ⟨o, book, hrun⟩
  fokFilled := by
    intro pr o trades rest e₁ hpass ht hm
    have hv := hpass.valid
    rw [validate_eq h o] at hv
    have hp := (validate_ok hv).2.1
    -- With sums that fit, the check answers as the reference engine's.
    rcases canFullyFill_spec h o (validate_ok hv).1 with ⟨-, hcheck⟩ | ⟨hscan, -⟩
    · have hfill := hpass.fillable ht
      rw [hcheck pr] at hfill
      have hzero := matchOrders_fok hok hp (Except.ok.inj hfill)
      obtain ⟨e', q', hrun, -, -⟩ := matchOrder_spec h o hp
      rw [hrun pr] at hm
      obtain ⟨-, hm⟩ := Prod.mk.inj (Except.ok.inj hm)
      obtain ⟨rfl, -⟩ := Prod.mk.inj hm
      exact (Order.rem_eq_zero _).mpr hzero
    · exact absurd (checkFits_of_sums (.submit o) hsums ht) hscan

end Engine

/-- While no side sums to `2^64`, no call panics and no defensive branch is taken. -/
theorem run_safe (calls : List Call) (h : SidesFit S calls) :
    ∃ (rs : List Response) (e : Engine S), (∀ pr, Engine.new.run pr calls = .ok (rs, e)) ∧ e.Safe := by
  obtain ⟨e, q, hrun, hrep, -, hok⟩ := reach h.noAddOverflow
  exact ⟨_, e, hrun, Engine.safe hrep hok (h calls (List.prefix_refl _) _ e (hrun .release))⟩

/-- `SidesFit`, run by run. -/
def sidesFitCheck (S : Type) [Slab S OrderNode] (calls : List Call) : Bool :=
  calls.inits.all (fun done =>
    match (Engine.new : Engine S).run .release done with
    | .ok (_, e) => decide (qtySum (e.book.resting .buy) < 2 ^ 64 ∧ qtySum (e.book.resting .sell) < 2 ^ 64)
    | .error _ => true)

theorem SidesFit.of_check {calls : List Call} (h : sidesFitCheck S calls = true) :
    SidesFit S calls := by
  intro done hd rs e hrun s
  have := List.all_eq_true.mp h done ((List.mem_inits _ _).mpr hd)
  rw [hrun] at this
  obtain ⟨hb, ha⟩ := of_decide_eq_true this
  cases s
  · exact hb
  · exact ha

theorem run_safe_cancelMiddleOrder :
    ∃ (rs : List Response) (e : Engine (FreeListSlab OrderNode)),
      (∀ pr, Engine.new.run pr cancelMiddleOrder = .ok (rs, e)) ∧ e.Safe :=
  run_safe cancelMiddleOrder (SidesFit.of_check (by decide +kernel))

end Ordust
