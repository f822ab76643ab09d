import Ordust.Effects
import Ordust.Matching

/-!
# The engine refines the reference engine

Each call that fits `u64` returns what the reference engine returns and leaves the same resting
orders. A call that does not fit panics in a debug build.
-/

namespace Ordust

variable {S : Type} [Slab S OrderNode]

open RefBook

/-- The run `act` of a call or of several on the book `b` returns `ret` in both builds and leaves
the resting orders `r`. -/
def Does {α : Type} (act : Profile → Checked (α × Engine S)) (ret : α) (r : RefBook) : Prop :=
  ∃ (e' : Engine S) (q' : Queues), (∀ pr, act pr = .ok (ret, e')) ∧ BookRep e'.book q' ∧
    e'.book.resting = r

/-- A release build returns `ret` and leaves the resting orders `r`, whatever became of the totals. -/
def Wraps {α : Type} (act : Profile → Checked (α × Engine S)) (ret : α) (r : RefBook) : Prop :=
  ∃ e' : Engine S, act .release = .ok (ret, e') ∧ e'.book.resting = r

namespace Engine

variable {e : Engine S} {q : Queues}

theorem validate_eq (h : BookRep e.book q) (o : Order) :
    e.validate o = e.book.resting.validate o := by
  unfold validate RefBook.validate
  by_cases hrem : o.rem = 0
  · rw [if_pos hrem, if_pos ((Order.rem_eq_zero o).mpr hrem)]
    rfl
  · rw [if_neg hrem, if_neg (fun hc => hrem ((Order.rem_eq_zero o).mp hc))]
    cases ht : o.orderType with
    | limit =>
      cases hp : o.price with
      | none => rfl
      | some p =>
        simp only [reduceCtorEq, and_false, false_and, if_false]
        rcases h.getOrder_eq o.id with ⟨hid, hget⟩ | ⟨hid, s, x, hget, hx, -⟩
        · rw [hget, if_neg hid]
          rfl
        · rw [hget, if_pos hid, ← hx]
          rfl
    | market =>
      by_cases hg : o.tif = .gtc
      · simp [hg]
        rfl
      · simp only [hg, reduceCtorEq, and_false, false_and, if_false]
        rcases h.getOrder_eq o.id with ⟨hid, hget⟩ | ⟨hid, s, x, hget, hx, -⟩
        · rw [hget, if_neg hid]
          rfl
        · rw [hget, if_pos hid, ← hx]
          rfl

theorem applyTif_spec (h : BookRep e.book q) (o : Order)
    (hgtc : o.tif = .gtc → o.orderType = .limit ∧ o.price ≠ none) (hid : o.id ∉ e.book.resting.ids) :
    ((o.tif = .gtc → e.book.resting.levelQty o.side o.px + o.rem < 2 ^ 64) ∧
      Does (fun pr => e.applyTifToRemainder pr o) (remainder e.book.resting o).1
        (remainder e.book.resting o).2) ∨
    (o.tif = .gtc ∧ 2 ^ 64 ≤ e.book.resting.levelQty o.side o.px + o.rem ∧
      e.applyTifToRemainder .debug o = .error .addOverflow ∧
      Wraps (fun pr => e.applyTifToRemainder pr o) (remainder e.book.resting o).1
        (remainder e.book.resting o).2) := by
  unfold Does Wraps applyTifToRemainder remainder
  have hlevel := h.levelQty_eq o.side o.px
  by_cases hrem : o.rem = 0
  · left
    simp only [hrem, (Order.rem_eq_zero o).mpr hrem, if_true]
    refine ⟨fun _ => ?_, e, q, fun _ => rfl, h, rfl⟩
    rw [hlevel]
    exact h.fits _ _
  · have hval : ¬ o.remainingQty.val = 0 := fun hc => hrem ((Order.rem_eq_zero o).mp hc)
    simp only [hrem, hval, if_false]
    cases ht : o.tif with
    | ioc => exact Or.inl ⟨by simp, e, q, fun _ => rfl, h, rfl⟩
    | fok => exact Or.inl ⟨by simp, e, q, fun _ => rfl, h, rfl⟩
    | gtc =>
      obtain ⟨hlim, hp⟩ := hgtc ht
      obtain ⟨p, hp⟩ := Option.ne_none_iff_exists'.mp hp
      have hpx : o.px = p := by simp [Order.px, hp]
      have hrests : RestsAt o.side p o := ⟨rfl, hp, hlim, ht, Nat.pos_of_ne_zero hrem⟩
      rw [hlevel, hpx]
      obtain ⟨b', q', hwraps, hres, hcase⟩ := h.insertResting_spec hrests hid
      rcases hcase with ⟨hfit, hrun, hrep⟩ | ⟨hover, hrun⟩
      · left
        refine ⟨fun _ => hfit, { e with book := b' }, q', fun pr => ?_, hrep, hres⟩
        simp only [hp, Checked.unwrap_some, Checked.ok_bind, hrun, Checked.pure_eq]
      · right
        refine ⟨rfl, hover, ?_, { e with book := b' }, ?_, hres⟩
        · simp only [hp, Checked.unwrap_some, Checked.ok_bind, hrun, Checked.error_bind]
        · simp only [hp, Checked.unwrap_some, Checked.ok_bind, hwraps, Checked.pure_eq]

/-- The part of `submit_order` after the checks. -/
def settle (pr : Profile) (self : Engine S) (order : Order) : Checked (Response × Engine S) :=
  self.matchOrder pr order >>= fun x =>
    x.2.2.applyTifToRemainder pr x.2.1 >>= fun y =>
      .ok (.ok (.accepted order.id :: x.1.map .trade ++ y.1), y.2)

theorem submitOrder_eq (pr : Profile) (self : Engine S) (order : Order) :
    self.submitOrder pr order =
      match self.validate order with
      | .error err => .ok (.error err, self)
      | .ok () =>
        (if order.tif = .fok then self.canFullyFill pr order else .ok true) >>= fun fillable =>
          if fillable = false then .ok (.error .fokNotFillable, self)
          else self.settle pr order := by
  unfold submitOrder settle
  cases self.validate order with
  | error err => rfl
  | ok u =>
    simp only
    by_cases hfok : order.tif = .fok
    · simp only [hfok, if_true]
      congr 1
      funext fillable
      cases fillable <;> rfl
    · simp only [hfok, if_false]
      rfl

end Engine

namespace Engine

variable {e : Engine S} {q : Queues}

theorem settle_spec (h : BookRep e.book q) (hok : Ok e.book.resting) (o : Order)
    (hv : e.book.resting.validate o = .ok ()) :
    ((o.tif = .gtc →
        e.book.resting.levelQty o.side o.px + (o.rem - e.book.resting.crossingQty o) < 2 ^ 64) ∧
      Does (fun pr => e.settle pr o) (e.book.resting.settle o).1 (e.book.resting.settle o).2) ∨
    ((o.tif = .gtc ∧
        2 ^ 64 ≤ e.book.resting.levelQty o.side o.px + (o.rem - e.book.resting.crossingQty o)) ∧
      e.settle .debug o = .error .addOverflow ∧
      Wraps (fun pr => e.settle pr o) (e.book.resting.settle o).1 (e.book.resting.settle o).2) := by
  obtain ⟨-, hprice, hgtc, hid⟩ := validate_ok hv
  obtain ⟨e₁, q₁, hmatch, hrep, hres⟩ := matchOrder_spec h o hprice
  obtain ⟨n, hn⟩ := matchOrders_rest o (e.book.resting (oppositeSide o.side))
  have hrem := matchOrders_rem o _ (hok.sorted (oppositeSide o.side))
  rw [hn] at hrem
  -- Matching leaves the own side alone and brings no new identifier.
  have hlevel : e₁.book.resting.levelQty o.side o.px = e.book.resting.levelQty o.side o.px := by
    rw [hres, levelQty, levelQty, Function.update_of_ne (oppositeSide_ne o.side).symm]
  have hid₁ : o.id ∉ e₁.book.resting.ids := by
    rw [mem_ids] at hid ⊢
    rintro ⟨s, x, hx, hxid⟩
    rw [hres] at hx
    by_cases hs : s = oppositeSide o.side
    · subst hs
      rw [Function.update_self] at hx
      obtain ⟨y, hy, n', rfl⟩ := mem_matchOrders_left hx
      exact hid ⟨_, y, hy, hxid⟩
    · rw [Function.update_of_ne hs] at hx
      exact hid ⟨s, x, hx, hxid⟩
  have hsettle : ∀ pr, e.settle pr o =
      (e₁.applyTifToRemainder pr (o.withRemaining n) >>= fun y =>
        .ok (.ok (.accepted o.id ::
          (matchOrders o (e.book.resting (oppositeSide o.side))).1.map .trade ++ y.1), y.2)) := by
    intro pr
    rw [settle, hmatch, hn, Checked.ok_bind]
  rcases applyTif_spec hrep (o.withRemaining n) (fun ht => ⟨hgtc ht, hprice (hgtc ht)⟩) hid₁ with
    ⟨hfit, e₂, q₂, hrun, hrep₂, hres₂⟩ | ⟨hg, hover, hrun, e₂, hwraps, hres₂⟩
  · left
    refine ⟨fun ht => ?_, e₂, q₂, fun pr => ?_, hrep₂, ?_⟩
    · have := hfit ht
      rw [hrem] at this
      exact hlevel ▸ this
    · show e.settle pr o = _
      have hrun := hrun pr
      simp only at hrun
      rw [hsettle, hrun, hres, Checked.ok_bind, RefBook.settle, hn]
    · rw [hres₂, hres, RefBook.settle, hn]
  · right
    refine ⟨⟨hg, ?_⟩, ?_, e₂, ?_, ?_⟩
    · rw [hrem] at hover
      exact hlevel ▸ hover
    · rw [hsettle, hrun]
      rfl
    · show e.settle .release o = _
      simp only at hwraps
      rw [hsettle, hwraps, hres, Checked.ok_bind, RefBook.settle, hn]
    · rw [hres₂, hres, RefBook.settle, hn]

theorem submit_refines (h : BookRep e.book q) (hok : Ok e.book.resting) (o : Order) :
    (e.book.resting.Fits (.submit o) ∧
      Does (fun pr => e.submitOrder pr o) (e.book.resting.submit o).1 (e.book.resting.submit o).2) ∨
    (¬ e.book.resting.Fits (.submit o) ∧ e.submitOrder .debug o = .error .addOverflow ∧
      ((o.tif = .fok → ScanFits o 0 (perPrice (e.book.resting (oppositeSide o.side)))) →
        Wraps (fun pr => e.submitOrder pr o) (e.book.resting.submit o).1
          (e.book.resting.submit o).2)) := by
  simp only [submitOrder_eq, RefBook.submit_eq, validate_eq h o]
  cases hv : e.book.resting.validate o with
  | error err =>
    left
    refine ⟨fun hc => ?_, e, q, fun _ => rfl, h, rfl⟩
    rw [hv] at hc
    simp at hc
  | ok u =>
    have hpos := (validate_ok hv).1
    have hfits : e.book.resting.Fits (.submit o) ↔
        (o.tif = .fok → ScanFits o 0 (perPrice (e.book.resting (oppositeSide o.side)))) ∧
        (o.tif = .gtc →
          e.book.resting.levelQty o.side o.px + (o.rem - e.book.resting.crossingQty o) < 2 ^ 64) := by
      simp only [RefBook.Fits, RefBook.CheckFits, hv, true_implies]
    rw [hfits]
    have hs := settle_spec h hok o hv
    by_cases hfok : o.tif = .fok
    · rcases canFullyFill_spec h o hpos with ⟨hscan, hrun⟩ | ⟨hscan, hrun⟩
      · left
        refine ⟨⟨fun _ => hscan, by simp [hfok]⟩, ?_⟩
        simp only [hfok, if_true, hrun, Checked.ok_bind, true_and]
        cases hfill : e.book.resting.canFullyFill o with
        | false => exact ⟨e, q, fun _ => rfl, h, rfl⟩
        | true =>
          simp only [reduceCtorEq, if_false]
          rcases hs with ⟨-, hdoes⟩ | ⟨⟨hg, -⟩, -⟩
          · exact hdoes
          · rw [hfok] at hg
            simp at hg
      · right
        refine ⟨fun hc => hscan (hc.1 hfok), ?_, fun hc => absurd (hc hfok) hscan⟩
        simp only [hfok, if_true, hrun, Checked.error_bind]
    · simp only [hfok, if_false, false_implies, true_and, false_and, Checked.ok_bind, reduceCtorEq]
      rcases hs with hs | ⟨⟨hg, hover⟩, hrun, hwraps⟩
      · exact Or.inl hs
      · exact Or.inr ⟨fun hc => absurd (hc hg) (by omega), hrun, fun _ => hwraps⟩

theorem cancel_refines (h : BookRep e.book q) (hok : Ok e.book.resting) (id : OrderId) :
    Does (fun _ => e.cancelOrder id) (e.book.resting.cancel id).1 (e.book.resting.cancel id).2 := by
  unfold cancelOrder RefBook.cancel
  rcases h.removeOrder_spec hok.nodup id with ⟨hid, hrun⟩ | ⟨hid, o, b', q', hrun, -, hrep, hres⟩
  · simp only [hid, if_false, hrun]
    exact ⟨e, q, fun _ => rfl, h, rfl⟩
  · simp only [hid, if_true, hrun]
    exact ⟨{ e with book := b' }, q', fun _ => rfl, hrep, hres⟩

theorem call_refines (h : BookRep e.book q) (hok : Ok e.book.resting) (c : Call) :
    (e.book.resting.Fits c ∧
      Does (fun pr => e.call pr c) (e.book.resting.call c).1 (e.book.resting.call c).2) ∨
    (¬ e.book.resting.Fits c ∧ e.call .debug c = .error .addOverflow ∧
      (e.book.resting.CheckFits c → Wraps (fun pr => e.call pr c) (e.book.resting.call c).1
        (e.book.resting.call c).2)) := by
  cases c with
  | submit o => exact submit_refines h hok o
  | cancel id => exact Or.inl ⟨trivial, cancel_refines h hok id⟩

end Engine

/-! ## Runs -/

namespace RefBook

/-- Every call of the run fits, on the book that the calls before it leave. -/
def FitsRun (r : RefBook) : List Call → Prop
  | [] => True
  | c :: calls => r.Fits c ∧ FitsRun (r.call c).2 calls

end RefBook

namespace Engine

theorem run_refines (e : Engine S) (q : Queues) (calls : List Call) (h : BookRep e.book q)
    (hok : Ok e.book.resting) :
    (e.book.resting.FitsRun calls ∧
      Does (fun pr => e.run pr calls) (e.book.resting.run calls).1 (e.book.resting.run calls).2) ∨
    (¬ e.book.resting.FitsRun calls ∧ e.run .debug calls = .error .addOverflow) := by
  induction calls generalizing e q with
  | nil => exact Or.inl ⟨trivial, e, q, fun _ => rfl, h, rfl⟩
  | cons c calls ih =>
    rcases call_refines h hok c with ⟨hfit, e₁, q₁, hcall, hrep, hres⟩ | ⟨hno, hcall, -⟩
    · rcases ih e₁ q₁ hrep (hres ▸ hok.call c) with ⟨hfits, e₂, q₂, hrun, hrep₂, hres₂⟩ | ⟨hno, hrun⟩
      · left
        rw [hres] at hfits hrun hres₂
        refine ⟨⟨hfit, hfits⟩, e₂, q₂, fun pr => ?_, hrep₂, hres₂⟩
        show e.run pr (c :: calls) = _
        have hcall := hcall pr
        simp only at hcall
        rw [run, hcall, Checked.ok_bind]
        simp only [hrun, Checked.ok_bind]
        rfl
      · right
        rw [hres] at hno
        refine ⟨fun hc => hno hc.2, ?_⟩
        have hcall := hcall .debug
        simp only at hcall
        rw [run, hcall, Checked.ok_bind]
        simp only [hrun, Checked.error_bind]
    · right
      refine ⟨fun hc => hno hc.1, ?_⟩
      rw [run, hcall]
      rfl

end Engine

end Ordust
