import Ordust.Refinement

/-!
# Runs from the empty book

A run without overflow is one that a debug build does not end at an addition. Both builds then
do what the reference engine does, call by call.
-/

namespace Ordust

open RefBook

/-- With overflow checks on, no addition of the run panics. -/
def NoAddOverflow (S : Type) [Slab S OrderNode] (calls : List Call) : Prop :=
  (Engine.new : Engine S).run .debug calls ≠ .error .addOverflow

/-- After the run, and before each of its calls, what rests on a side sums below `2^64`. -/
def SidesFit (S : Type) [Slab S OrderNode] (calls : List Call) : Prop :=
  ∀ done, done <+: calls → ∀ rs e, (Engine.new : Engine S).run .release done = .ok (rs, e) →
    ∀ s, qtySum (e.book.resting s) < 2 ^ 64

variable {S : Type} [Slab S OrderNode]

theorem resting_new : (OrderBook.new : OrderBook S).resting = RefBook.new := by
  funext s
  rw [(BookRep.new : BookRep (OrderBook.new : OrderBook S) _).resting_eq]
  cases s <;> rfl

theorem run_new (calls : List Call) :
    (RefBook.new.FitsRun calls ∧ Does (fun pr => (Engine.new : Engine S).run pr calls)
      (RefBook.new.run calls).1 (RefBook.new.run calls).2) ∨
    (¬ RefBook.new.FitsRun calls ∧
      (Engine.new : Engine S).run .debug calls = .error .addOverflow) := by
  have h := Engine.run_refines (Engine.new : Engine S) _ calls BookRep.new (by
    show Ok (OrderBook.new : OrderBook S).resting
    rw [resting_new]
    exact Ok.new)
  rwa [show (Engine.new : Engine S).book.resting = RefBook.new from resting_new] at h

/-- A run overflows exactly when one of its calls does not fit. -/
theorem noAddOverflow_iff (calls : List Call) :
    NoAddOverflow S calls ↔ RefBook.new.FitsRun calls := by
  rcases run_new (S := S) calls with ⟨hfit, e, q, hrun, -⟩ | ⟨hno, hrun⟩
  · have hrun := hrun .debug
    simp only at hrun
    simp [NoAddOverflow, hrun, hfit]
  · simp [NoAddOverflow, hrun, hno]

namespace RefBook

theorem fitsRun_append (r : RefBook) (calls calls' : List Call) :
    r.FitsRun (calls ++ calls') ↔ r.FitsRun calls ∧ (r.run calls).2.FitsRun calls' := by
  induction calls generalizing r with
  | nil => simp [FitsRun, run]
  | cons c calls ih =>
    simp only [List.cons_append, FitsRun, ih, and_assoc]
    rfl

theorem run_append (r : RefBook) (calls calls' : List Call) :
    r.run (calls ++ calls') = ((r.run calls).1 ++ ((r.run calls).2.run calls').1,
      ((r.run calls).2.run calls').2) :=
  Runs.run_append r calls calls'

/-! ## Sums below `2^64` leave room for every addition -/

theorem scanFits_of_sum (o : Order) (acc : Nat) (ls : List (Price × Nat))
    (h : acc + ((ls.takeWhile (fun l => o.admits l.1)).map Prod.snd).sum < 2 ^ 64) :
    ScanFits o acc ls := by
  induction ls generalizing acc with
  | nil => trivial
  | cons l ls ih =>
    intro hadm
    rw [List.takeWhile_cons, if_pos hadm, List.map_cons, List.sum_cons] at h
    exact ⟨by omega, fun _ => ih _ (by omega)⟩

theorem levelQty_le (r : RefBook) (s : Side) (p : Price) : r.levelQty s p ≤ qtySum (r s) :=
  qtySum_le_of_sublist List.filter_sublist

theorem qtySum_rest (r : RefBook) (o : Order) :
    qtySum (r.rest o o.side) = o.rem + qtySum (r o.side) := by
  rw [rest, Function.update_self]
  exact ((insertOrder_perm o (r o.side)).map Order.rem).sum_eq

theorem qtySum_remainder (r : RefBook) (o : Order) (ht : o.tif = .gtc) :
    qtySum ((remainder r o).2 o.side) = o.rem + qtySum (r o.side) := by
  unfold remainder
  split
  · next hzero => rw [hzero, Nat.zero_add]
  · rw [ht]
    exact qtySum_rest r o

theorem qtySum_settle {r : RefBook} (hok : Ok r) (o : Order) (ht : o.tif = .gtc) :
    qtySum ((r.settle o).2 o.side) = (o.rem - r.crossingQty o) + qtySum (r o.side) := by
  obtain ⟨n, hn⟩ := matchOrders_rest o (r (oppositeSide o.side))
  have hrem := matchOrders_rem o _ (hok.sorted (oppositeSide o.side))
  have hsum := qtySum_remainder (Function.update r (oppositeSide o.side)
    (matchOrders o (r (oppositeSide o.side))).2.2) (o.withRemaining n) ht
  rw [hn] at hrem
  simp only [show (o.withRemaining n).side = o.side from rfl] at hsum
  rw [hrem, Function.update_of_ne (oppositeSide_ne o.side).symm] at hsum
  simp only [settle, hn]
  exact hsum

theorem checkFits_of_sums {r : RefBook} (c : Call) (h : ∀ s, qtySum (r s) < 2 ^ 64) :
    r.CheckFits c := by
  cases c with
  | cancel id => trivial
  | submit o =>
    intro _
    apply scanFits_of_sum
    have hle := qtySum_le_of_sublist
      (List.takeWhile_sublist (fun x => o.admits x.px) (l := r (oppositeSide o.side)))
    have hlt := h (oppositeSide o.side)
    rw [perPrice_takeWhile]
    omega

theorem fits_of_sums {r : RefBook} (hok : Ok r) (c : Call) (h : ∀ s, qtySum (r s) < 2 ^ 64)
    (h' : ∀ s, qtySum ((r.call c).2 s) < 2 ^ 64) : r.Fits c := by
  cases c with
  | cancel id => trivial
  | submit o =>
    intro hv
    refine ⟨checkFits_of_sums _ h, fun ht => ?_⟩
    have hsettle : (r.call (.submit o)).2 = (r.settle o).2 := by
      rw [call, submit_eq, hv]
      simp [ht]
    have := h' o.side
    rw [hsettle] at this
    have h1 := qtySum_settle hok o ht
    have h2 := levelQty_le r o.side o.px
    omega

end RefBook

theorem NoAddOverflow.of_append {calls calls' : List Call}
    (h : NoAddOverflow S (calls ++ calls')) : NoAddOverflow S calls := by
  rw [noAddOverflow_iff] at h ⊢
  exact ((fitsRun_append _ _ _).mp h).1

/-- What a run without overflow leads to. -/
theorem reach {calls : List Call} (h : NoAddOverflow S calls) :
    ∃ (e : Engine S) (q : Queues),
      (∀ pr, (Engine.new : Engine S).run pr calls = .ok ((RefBook.new.run calls).1, e)) ∧
      BookRep e.book q ∧ e.book.resting = (RefBook.new.run calls).2 ∧ Ok e.book.resting := by
  rcases run_new (S := S) calls with ⟨-, e, q, hrun, hrep, hres⟩ | ⟨hno, -⟩
  · exact ⟨e, q, hrun, hrep, hres, hres ▸ Ok.new.run calls⟩
  · exact absurd ((noAddOverflow_iff calls).mp h) hno

theorem reach_between {before after : List Call} (h : NoAddOverflow S (before ++ after)) :
    ∃ (e e' : Engine S) (q : Queues),
      (∀ pr, (Engine.new : Engine S).run pr before = .ok ((RefBook.new.run before).1, e)) ∧
      (∀ pr, e.run pr after = .ok ((e.book.resting.run after).1, e')) ∧
      BookRep e.book q ∧ e.book.resting = (RefBook.new.run before).2 ∧ Ok e.book.resting := by
  obtain ⟨e, q, hrun, hrep, hres, hok⟩ := reach h.of_append
  rw [noAddOverflow_iff, fitsRun_append, ← hres] at h
  rcases e.run_refines q after hrep hok with ⟨-, e', -, hafter, -⟩ | ⟨hno, -⟩
  · exact ⟨e, e', q, hrun, hafter, hrep, hres, hok⟩
  · exact absurd h.2 hno

theorem Engine.run_of_fits {e : Engine S} {q : Queues} {calls : List Call} (h : BookRep e.book q)
    (hok : Ok e.book.resting) (hfits : e.book.resting.FitsRun calls) :
    ∃ (e' : Engine S) (q' : Queues),
      (∀ pr, e.run pr calls = .ok ((e.book.resting.run calls).1, e')) ∧ BookRep e'.book q' ∧
      e'.book.resting = (e.book.resting.run calls).2 := by
  rcases e.run_refines q calls h hok with ⟨-, e', q', hrun, hrep, hres⟩ | ⟨hno, -⟩
  · exact ⟨e', q', hrun, hrep, hres⟩
  · exact absurd hfits hno

theorem NoAddOverflow.fits_later {calls later : List Call} (h : NoAddOverflow S (calls ++ later)) :
    (RefBook.new.run calls).2.FitsRun later :=
  ((fitsRun_append _ _ _).mp ((noAddOverflow_iff _).mp h)).2

namespace Engine

theorem run_eq_exec (pr : Profile) (e : Engine S) (calls : List Call) :
    e.run pr calls = Runs.exec (call pr) e calls := by
  induction calls generalizing e with
  | nil => rfl
  | cons c calls ih =>
    rw [run, Runs.exec]
    simp only [ih]

variable {pr : Profile} {e e' e'' : Engine S} {calls later : List Call} {c : Call}
  {rs : List Response}

theorem run_snoc {response : Response} (hrun : e.run pr calls = .ok (rs, e'))
    (hcall : e'.call pr c = .ok (response, e'')) :
    e.run pr (calls ++ [c]) = .ok (rs ++ [response], e'') := by
  rw [run_eq_exec] at hrun ⊢
  exact Runs.exec_append_ok hrun (Runs.exec_cons_ok hcall rfl)

theorem run_append_isOk (hrun : e.run pr (calls ++ later) = .ok (rs, e'')) :
    ∃ rs' e', e.run pr calls = .ok (rs', e') := by
  rw [run_eq_exec] at hrun
  obtain ⟨rs', e', later', hrun', -, -⟩ := Runs.exec_append_eq_ok hrun
  rw [← run_eq_exec] at hrun'
  exact ⟨rs', e', hrun'⟩

theorem run_snoc_eq_ok (hrun : e.run pr (calls ++ [c]) = .ok (rs, e'')) :
    ∃ rs' e' response, e.run pr calls = .ok (rs', e') ∧ e'.call pr c = .ok (response, e'') ∧
      rs = rs' ++ [response] := by
  rw [run_eq_exec] at hrun
  obtain ⟨rs', e', later', hrun', hlast, rfl⟩ := Runs.exec_append_eq_ok hrun
  rw [← run_eq_exec] at hrun'
  obtain ⟨response, e₁, outs, hcall, hnil, rfl⟩ := Runs.exec_cons_eq_ok hlast
  obtain ⟨rfl, rfl⟩ := Prod.mk.inj (Except.ok.inj hnil)
  exact ⟨rs', e', response, hrun', hcall, rfl⟩

end Engine

/-- While no side sums to `2^64`, no addition overflows. -/
theorem SidesFit.noAddOverflow {calls : List Call} (h : SidesFit S calls) :
    NoAddOverflow S calls := by
  induction calls using List.reverseRecOn with
  | nil => exact (noAddOverflow_iff []).mpr trivial
  | append_singleton calls c ih =>
    have hpre : SidesFit S calls := fun done hd => h done (hd.trans (List.prefix_append _ _))
    obtain ⟨e, q, hrun, hrep, hres, hok⟩ := reach (ih hpre)
    have hsums := hpre calls (List.prefix_refl _) _ e (hrun .release)
    have hfit : e.book.resting.Fits c := by
      rcases Engine.call_refines hrep hok c with ⟨hfit, -⟩ | ⟨-, -, hwraps⟩
      · exact hfit
      · -- A release build goes on, to a book that the assumption is about.
        obtain ⟨e', hcall, hres'⟩ := hwraps (checkFits_of_sums c hsums)
        have hlast := h (calls ++ [c]) (List.prefix_refl _) _ e' (Engine.run_snoc (hrun .release) hcall)
        rw [hres'] at hlast
        exact fits_of_sums hok c hsums hlast
    rw [noAddOverflow_iff, fitsRun_append, ← hres]
    exact ⟨(noAddOverflow_iff calls).mp (ih hpre), hfit, trivial⟩

/-! ## A run to try things on -/

theorem NoAddOverflow.of_isOk {calls : List Call}
    (h : ((Engine.new : Engine S).run .debug calls).isOk = true) : NoAddOverflow S calls := by
  intro hc
  rw [hc] at h
  simp [Except.isOk, Except.toBool] at h

/-- What is read off the last engine of a run, computed. -/
theorem Engine.of_run {α : Type} {calls : List Call} {rs : List Response} {e : Engine S} {a : α}
    (hrun : ∀ pr, Engine.new.run pr calls = .ok (rs, e)) (f : Engine S → α)
    (h : Except.map (fun x => f x.2) ((Engine.new : Engine S).run .debug calls) = .ok a) : f e = a := by
  rw [hrun] at h
  exact Except.ok.inj h

theorem Engine.answer_of_run {calls : List Call} {rs : List Response} {e : Engine S}
    (hrun : ∀ pr, Engine.new.run pr calls = .ok (rs, e)) (c : Call) (response : Response)
    (h : Except.map (fun x => x.1.getLast?) ((Engine.new : Engine S).run .debug (calls ++ [c])) =
      .ok (some response)) : ∃ e', e.call .debug c = .ok (response, e') := by
  cases hnext : (Engine.new : Engine S).run .debug (calls ++ [c]) with
  | error p =>
    rw [hnext] at h
    simp [Except.map] at h
  | ok out =>
    obtain ⟨rs₁, e₁, response₁, hrun₁, hcall, hrs⟩ := Engine.run_snoc_eq_ok hnext
    rw [hrun] at hrun₁
    obtain ⟨-, rfl⟩ := Prod.mk.inj (Except.ok.inj hrun₁)
    have hlast : out.1.getLast? = some response := by
      rw [hnext] at h
      exact Except.ok.inj h
    rw [hrs, List.getLast?_append, List.getLast?_singleton] at hlast
    obtain rfl : response₁ = response := Option.some.inj hlast
    exact ⟨_, hcall⟩

/-- `make_order` of the tests. -/
def makeOrder (id : UInt64) (side : Side) (price qty timestamp : UInt64) (ordtype : OrderType)
    (tiftype : TimeInForce) : Order :=
  { id := ⟨id⟩, side := side, orderType := ordtype, tif := tiftype, price := some ⟨price⟩,
    qty := ⟨qty⟩, remainingQty := ⟨qty⟩, timestamp := ⟨timestamp⟩ }

/-- The calls of `test_cancel_middle_order`. -/
def cancelMiddleOrder : List Call :=
  [.submit (makeOrder 1 .buy 100 10 1 .limit .gtc),
   .submit (makeOrder 2 .buy 100 20 2 .limit .gtc),
   .submit (makeOrder 3 .buy 100 30 3 .limit .gtc),
   .cancel ⟨2⟩,
   .submit (makeOrder 4 .sell 100 25 4 .limit .ioc)]

theorem cancelMiddleOrder_noAddOverflow :
    NoAddOverflow (FreeListSlab OrderNode) cancelMiddleOrder :=
  NoAddOverflow.of_isOk (by decide +kernel)

/-- Both sides rest, an order trades and rests, a level goes and another comes. -/
def twoSided : List Call :=
  [.submit (makeOrder 1 .buy 100 10 1 .limit .gtc),
   .submit (makeOrder 2 .sell 102 5 2 .limit .gtc),
   .submit (makeOrder 3 .sell 99 4 3 .limit .fok),
   .submit (makeOrder 4 .buy 102 7 4 .limit .gtc),
   .submit (makeOrder 2 .sell 103 1 5 .limit .gtc),
   .submit (makeOrder 2 .buy 90 1 6 .market .gtc)]

theorem twoSided_noAddOverflow : NoAddOverflow (FreeListSlab OrderNode) twoSided :=
  NoAddOverflow.of_isOk (by decide +kernel)

/-- Ten offered at 100 and five at 101. -/
def twoAsks : List Call :=
  [.submit (makeOrder 1 .sell 100 10 1 .limit .gtc), .submit (makeOrder 2 .sell 101 5 2 .limit .gtc)]

theorem twoAsks_noAddOverflow : NoAddOverflow (FreeListSlab OrderNode) twoAsks :=
  NoAddOverflow.of_isOk (by decide +kernel)

end Ordust
