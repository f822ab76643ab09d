import Ordust.Slots
import Ordust.Submission
import Ordust.Uncrossed

/-!
# Filled X of Y

An order carries the quantity that it came with and what remains of it. The engine checks and
changes the latter only: the two tell what was filled if they agreed when the order came in, and
otherwise they do not.
-/

namespace Ordust

variable {S : Type} [Slab S OrderNode]

/-! ## What matching leaves of the orders -/

/-- What is still there after the trades `ts` is what they left of what was there before. -/
structure OrderBook.Filled (b : OrderBook S) (ts : List Trade) (b' : OrderBook S) : Prop where
  indexed : b'.Indexed
  left : ∀ id x, b'.getOrder id = some x → ∃ y, b.getOrder id = some y ∧
    x = y.withRemaining x.remainingQty.val ∧ x.rem + madeBy id (ts.map .trade) = y.rem ∧
    (0 < y.rem → 0 < x.rem)

namespace OrderBook.Filled

variable {b b' b'' : OrderBook S} {ts ts' : List Trade}

theorem of_same (h : b'.Indexed) (hsame : b'.getOrder = b.getOrder) : b.Filled [] b' where
  indexed := h
  left := by
    intro id x hx
    rw [hsame] at hx
    exact ⟨x, hx, rfl, rfl, fun h0 => h0⟩

theorem trans (h : b.Filled ts b') (h' : b'.Filled ts' b'') : b.Filled (ts ++ ts') b'' where
  indexed := h'.indexed
  left := by
    intro id x hx
    obtain ⟨y, hy, hxy, hsum, hpos⟩ := h'.left id x hx
    obtain ⟨z, hz, hyz, hsum', hpos'⟩ := h.left id y hy
    refine ⟨z, hz, ?_, ?_, fun h0 => hpos (hpos' h0)⟩
    · rw [hyz] at hxy
      exact hxy
    · rw [List.map_append, madeBy_append]
      omega

theorem of_sets {o : Order} {left : UInt64} {t : Trade} (ho : b.getOrder o.id = some o)
    (hid : t.makerOrderId = o.id) (hsum : t.qty.toNat + left.toNat = o.rem)
    (hsets : b.Sets o.id (if left = 0 then none else some (o.withRemaining left)) b') :
    b.Filled [t] b' where
  indexed := hsets.indexed
  left := by
    intro id x hx
    rw [hsets.getOrder_eq] at hx
    by_cases hxo : id = o.id
    · subst hxo
      rw [Function.update_self] at hx
      split at hx
      · simp at hx
      · next hne =>
        obtain rfl := Option.some.inj hx
        have hpos : 0 < left.toNat := by
          apply Nat.pos_of_ne_zero
          intro h0
          exact hne (UInt64.toNat_inj.mp h0)
        refine ⟨o, ho, rfl, ?_, fun _ => hpos⟩
        simp only [List.map_cons, List.map_nil, madeBy_cons, madeBy_nil, BookEvent.madeBy, hid, if_true]
        show left.toNat + _ = _
        omega
    · rw [Function.update_of_ne hxo] at hx
      refine ⟨x, hx, rfl, ?_, fun h0 => h0⟩
      simp only [List.map_cons, List.map_nil, madeBy_cons, madeBy_nil, BookEvent.madeBy, hid]
      rw [if_neg (fun he => hxo he.symm), Nat.add_zero]

theorem getOrder_none (h : b.Filled ts b') {id : OrderId} (hid : b.getOrder id = none) :
    b'.getOrder id = none := by
  rw [Option.eq_none_iff_forall_ne_some]
  intro x hx
  obtain ⟨y, hy, -⟩ := h.left id x hx
  rw [hid] at hy
  simp at hy

end OrderBook.Filled

namespace Engine

/-- Matching `o` made the trades `ts` and left `rest` of it. -/
structure Fills (e : Engine S) (o : Order) (ts : List Trade) (rest : Order) (e' : Engine S) :
    Prop where
  rest_eq : rest = o.withRemaining rest.remainingQty.val
  total : RefBook.tradeSum ts + rest.rem = o.rem
  taker : ∀ t ∈ ts, t.takerOrderId = o.id
  filled : e.book.Filled ts e'.book

variable {e e' : Engine S} {pr : Profile} {o rest : Order} {ts : List Trade}

theorem Fills.refl (h : e.book.Indexed) (o : Order) : e.Fills o [] o e where
  rest_eq := rfl
  total := Nat.zero_add _
  taker := by simp
  filled := .of_same h rfl

theorem matchLoop_fills {s : Side} {fuel : Nat} (h : e.book.Indexed)
    (hrun : matchLoop pr s fuel e o = .ok (ts, rest, e')) : e.Fills o ts rest e' := by
  induction fuel generalizing e o ts with
  | zero => simp [matchLoop] at hrun
  | succ fuel ih =>
    rw [matchLoop_succ, loopStep] at hrun
    split at hrun
    · obtain ⟨rfl, heq⟩ := Prod.mk.inj (Except.ok.inj hrun)
      obtain ⟨rfl, rfl⟩ := Prod.mk.inj heq
      exact .refl h o
    · obtain ⟨crosses, -, hrun⟩ := Checked.bind_eq_ok.mp hrun
      split at hrun
      · obtain ⟨rfl, heq⟩ := Prod.mk.inj (Except.ok.inj hrun)
        obtain ⟨rfl, rfl⟩ := Prod.mk.inj heq
        exact .refl h o
      · obtain ⟨⟨res, b⟩, hmatch, hrun⟩ := Checked.bind_eq_ok.mp hrun
        rcases OrderBook.matchAtBest_sets h hmatch with ⟨rfl, hindexed, hsame⟩ |
          ⟨r, m, left, rfl, hid, hm, hsum, hle, hsets⟩
        · obtain ⟨rfl, heq⟩ := Prod.mk.inj (Except.ok.inj hrun)
          obtain ⟨rfl, rfl⟩ := Prod.mk.inj heq
          exact ⟨rfl, Nat.zero_add _, by simp, .of_same hindexed hsame⟩
        · have hrem := Order.rem_sub o r.filledQty hle
          simp only [Profile.sub_ok pr _ _ hle, Checked.ok_bind] at hrun
          obtain ⟨⟨ts', rest', e₁⟩, hloop, heq⟩ := Checked.bind_eq_ok.mp hrun
          obtain ⟨rfl, hpair⟩ := Prod.mk.inj (Except.ok.inj heq)
          obtain ⟨rfl, rfl⟩ := Prod.mk.inj hpair
          have hrest := ih hsets.indexed hloop
          have hle' : r.filledQty.toNat ≤ o.rem := hle
          refine ⟨hrest.rest_eq, ?_, ?_, ?_⟩
          · have htotal := hrest.total
            rw [hrem] at htotal
            simp only [RefBook.tradeSum, List.map_cons, List.sum_cons] at htotal ⊢
            omega
          · intro t ht
            rcases List.mem_cons.mp ht with rfl | ht
            · rfl
            · exact hrest.taker t ht
          · exact (OrderBook.Filled.of_sets hm hid hsum hsets).trans hrest.filled

theorem matchOrder_fills (h : e.book.Indexed) (hrun : e.matchOrder pr o = .ok (ts, rest, e')) :
    e.Fills o ts rest e' := by
  obtain ⟨crosses, -, hrun⟩ := Checked.bind_eq_ok.mp hrun
  split at hrun
  · exact matchLoop_fills h hrun
  · obtain ⟨rfl, heq⟩ := Prod.mk.inj (Except.ok.inj hrun)
    obtain ⟨rfl, rfl⟩ := Prod.mk.inj heq
    exact .refl h o

/-! ## What a call does to the orders -/

/-- `submit_order` of `o` gets to `insert_resting`. -/
def Rests (pr : Profile) (e : Engine S) (o : Order) : Prop := ∃ rest e', e.InsertsResting pr o rest e'

inductive Submits (pr : Profile) (e : Engine S) (o : Order) : Response → Engine S → Prop where
  | refused (err : EngineError) (hno : ¬ e.Rests pr o) : Submits pr e o (.error err) e
  | done {ts : List Trade} {rest : Order} {e' : Engine S} (tail : List BookEvent)
      (hno : ¬ e.Rests pr o) (hnew : e.book.getOrder o.id = none) (hfills : e.Fills o ts rest e')
      (htail : tail = [] ∨ tail = [.cancelled o.id]) :
      Submits pr e o (.ok (.accepted o.id :: ts.map .trade ++ tail)) e'
  | rested {ts : List Trade} {rest : Order} {e₁ e' : Engine S} (p : Price)
      (hrests : e.Rests pr o) (hnew : e.book.getOrder o.id = none) (hfills : e.Fills o ts rest e₁)
      (hpos : 0 < rest.rem) (hsets : e₁.book.Sets o.id (some rest) e'.book) :
      Submits pr e o
        (.ok (.accepted o.id :: ts.map .trade ++ [.restingOnBook o.id p rest.remainingQty])) e'

theorem getOrder_of_validate (hv : e.validate o = .ok ()) : e.book.getOrder o.id = none := by
  cases hget : e.book.getOrder o.id with
  | none => rfl
  | some x =>
    unfold validate at hv
    rw [hget] at hv
    by_cases hrem : o.remainingQty.val = 0
    · rw [if_pos hrem] at hv
      cases hv
    · rw [if_neg hrem] at hv
      cases ht : o.orderType with
      | limit =>
        rw [ht] at hv
        cases hp : o.price with
        | none =>
          rw [hp] at hv
          cases hv
        | some p =>
          rw [hp] at hv
          cases hv
      | market =>
        rw [ht] at hv
        by_cases hg : o.tif = .gtc
        · simp only [hg] at hv
          cases hv
        · simp only [hg] at hv
          cases hv

theorem submitOrder_submits {response : Response} (h : e.book.Indexed)
    (hrun : e.submitOrder pr o = .ok (response, e')) : Submits pr e o response e' := by
  rw [submitOrder_eq] at hrun
  cases hv : e.validate o with
  | error err =>
    simp only [hv] at hrun
    obtain ⟨rfl, rfl⟩ := Prod.mk.inj (Except.ok.inj hrun)
    apply Submits.refused
    rintro ⟨rest, e₁, hi⟩
    rw [hi.valid] at hv
    simp at hv
  | ok u =>
    simp only [hv] at hrun
    obtain ⟨fillable, hfill, hrun⟩ := Checked.bind_eq_ok.mp hrun
    have hnew := getOrder_of_validate hv
    split at hrun
    · next hnot =>
      obtain ⟨rfl, rfl⟩ := Prod.mk.inj (Except.ok.inj hrun)
      apply Submits.refused
      rintro ⟨rest, e₁, hi⟩
      split at hfill
      · next ht =>
        rw [hi.fillable ht, hnot] at hfill
        simp at hfill
      · rw [hnot] at hfill
        simp at hfill
    · next hyes =>
      rw [Bool.not_eq_false] at hyes
      obtain ⟨⟨ts, rest, e₁⟩, hmatch, hrun⟩ := Checked.bind_eq_ok.mp hrun
      obtain ⟨⟨tail, e₂⟩, htif, heq⟩ := Checked.bind_eq_ok.mp hrun
      obtain ⟨rfl, rfl⟩ := Prod.mk.inj (Except.ok.inj heq)
      have hfills := matchOrder_fills h hmatch
      have hdone : ∀ hq : rest.remainingQty.val = 0 ∨ rest.tif ≠ .gtc, ¬ e.Rests pr o := by
        rintro hq ⟨rest', e', hi⟩
        obtain ⟨ts', hm⟩ := hi.matched
        rw [hmatch] at hm
        obtain ⟨-, heq⟩ := Prod.mk.inj (Except.ok.inj hm)
        obtain ⟨rfl, -⟩ := Prod.mk.inj heq
        rcases hq with h0 | ht
        · exact hi.left h0
        · exact ht hi.gtc
      simp only [applyTifToRemainder] at htif
      split at htif
      · next h0 =>
        obtain ⟨rfl, rfl⟩ := Prod.mk.inj (Except.ok.inj htif)
        exact .done [] (hdone (.inl h0)) hnew hfills (.inl rfl)
      · next h0 =>
        have hid : rest.id = o.id := by rw [hfills.rest_eq, Order.id_withRemaining]
        cases ht : rest.tif with
        | gtc =>
          simp only [ht] at htif
          obtain ⟨p, hp, htif⟩ := Checked.bind_eq_ok.mp htif
          obtain ⟨b, hins, heq⟩ := Checked.bind_eq_ok.mp htif
          obtain ⟨rfl, rfl⟩ := Prod.mk.inj (Except.ok.inj heq)
          have hnew₁ : e₁.book.getOrder rest.id = none := by
            rw [hid]
            exact hfills.filled.getOrder_none hnew
          have hsets := OrderBook.insertResting_sets hfills.filled.indexed hnew₁ hins
          rw [hid] at hsets ⊢
          refine .rested p ⟨rest, e₁, hv, ?_, ⟨ts, hmatch⟩, h0, ht⟩ hnew hfills ?_ hsets
          · intro hfok
            rw [if_pos hfok, hyes] at hfill
            exact hfill
          · exact Nat.pos_of_ne_zero (fun hc => h0 ((Order.rem_eq_zero rest).mpr hc))
        | ioc =>
          simp only [ht] at htif
          obtain ⟨rfl, rfl⟩ := Prod.mk.inj (Except.ok.inj htif)
          exact .done _ (hdone (.inr (by simp [ht]))) hnew hfills (.inr (by rw [hid]))
        | fok =>
          simp only [ht] at htif
          obtain ⟨rfl, rfl⟩ := Prod.mk.inj (Except.ok.inj htif)
          exact .done [] (hdone (.inr (by simp [ht]))) hnew hfills (.inl rfl)

theorem cancelOrder_sets {id : OrderId} {response : Response} (h : e.book.Indexed)
    (hrun : e.cancelOrder id = .ok (response, e')) :
    (eventsOf response = [] ∧ e' = e) ∨
      (response = .ok [.cancelled id] ∧ e.book.Sets id none e'.book) := by
  obtain ⟨⟨removed, b⟩, hrem, hrun⟩ := Checked.bind_eq_ok.mp hrun
  rcases OrderBook.removeOrder_sets h hrem with ⟨rfl, rfl⟩ | ⟨⟨x, rfl⟩, hsets⟩
  · obtain ⟨rfl, rfl⟩ := Prod.mk.inj (Except.ok.inj hrun)
    exact Or.inl ⟨rfl, rfl⟩
  · obtain ⟨rfl, rfl⟩ := Prod.mk.inj (Except.ok.inj hrun)
    exact Or.inr ⟨rfl, hsets⟩

theorem call_indexed {c : Call} {response : Response} (h : e.book.Indexed)
    (hrun : e.call pr c = .ok (response, e')) : e'.book.Indexed := by
  cases c with
  | submit o =>
    cases submitOrder_submits h hrun with
    | refused => exact h
    | done tail hno hnew hfills => exact hfills.filled.indexed
    | rested p hrests hnew hfills hpos hsets => exact hsets.indexed
  | cancel id =>
    rcases cancelOrder_sets h hrun with ⟨-, rfl⟩ | ⟨-, hsets⟩
    · exact h
    · exact hsets.indexed

end Engine

/-! ## Progress that is told right -/

/-- The two quantities of an order tell what the log shows to be filled since it was accepted. -/
structure Truthful (log : List BookEvent) (o : Order) : Prop where
  pos : 0 < o.rem
  le : o.rem ≤ o.qty.toNat
  filled : ∃ before after, log = before ++ .accepted o.id :: after ∧ .accepted o.id ∉ after ∧
    o.qty.toNat - o.rem = filledOf o.id after

/-- So do those of every order in a slot of the arena, where the levels and the index have them. -/
def Engine.Truthful (e : Engine S) (log : List BookEvent) : Prop :=
  ∀ k node, Slab.get e.book.arena k = some node → Ordust.Truthful log node.order

namespace Truthful

variable {log evs : List BookEvent} {o x : Order}

/-- Fills as a maker take the same from what remains as they add to the log. -/
theorem fill (h : Truthful log o) (hx : x = o.withRemaining x.remainingQty.val) (hpos : 0 < x.rem)
    (hsum : x.rem + madeBy o.id evs = o.rem) (htaker : ∀ t, .trade t ∈ evs → t.takerOrderId ≠ o.id)
    (hacc : .accepted o.id ∉ evs) : Truthful (log ++ evs) x := by
  obtain ⟨before, after, rfl, hno, hfilled⟩ := h.filled
  have hle := h.le
  obtain ⟨n, rfl⟩ : ∃ n, x = o.withRemaining n := ⟨_, hx⟩
  rw [Order.rem_withRemaining] at hsum
  refine ⟨hpos, ?_, before, after ++ evs, ?_, ?_, ?_⟩
  · rw [Order.rem_withRemaining, Order.qty_withRemaining]
    omega
  · rw [Order.id_withRemaining, List.append_assoc]
    rfl
  · rw [Order.id_withRemaining, List.mem_append, not_or]
    exact ⟨hno, hacc⟩
  · rw [Order.id_withRemaining, Order.qty_withRemaining, Order.rem_withRemaining, filledOf_append,
      filledOf_eq_madeBy htaker]
    omega

theorem rested_iff {ts : List Trade} {p : Price}
    (hx : x = o.withRemaining x.remainingQty.val) (hpos : 0 < x.rem)
    (htotal : RefBook.tradeSum ts + x.rem = o.rem) (htaker : ∀ t ∈ ts, t.takerOrderId = o.id) :
    Truthful (log ++ (.accepted o.id :: ts.map .trade ++ [.restingOnBook o.id p x.remainingQty])) x ↔
      o.qty = o.remainingQty := by
  obtain ⟨n, rfl⟩ : ∃ n, x = o.withRemaining n := ⟨_, hx⟩
  have hacc : .accepted o.id ∉ ts.map BookEvent.trade ++ [.restingOnBook o.id p ⟨n⟩] := by simp
  have hfilled : filledOf o.id (ts.map .trade ++ [.restingOnBook o.id p ⟨n⟩]) =
      RefBook.tradeSum ts := by
    rw [filledOf_append, filledOf_trades htaker]
    rfl
  rw [Order.rem_withRemaining] at htotal
  constructor
  · rintro ⟨-, hle, before, after, hlog, hno, hsum⟩
    have hafter : after = ts.map .trade ++ [.restingOnBook o.id p ⟨n⟩] := by
      rcases append_eq_append_cons hlog with ⟨w, hw⟩ | ⟨w, -, rfl⟩
      · cases w with
        | nil => exact (List.cons.inj hw).2.symm
        | cons ev w =>
          have htail : ts.map BookEvent.trade ++ [.restingOnBook o.id p ⟨n⟩] =
              w ++ .accepted o.id :: after := (List.cons.inj hw).2
          exact absurd (by rw [htail]; simp) hacc
      · simp at hno
    rw [Order.id_withRemaining, hafter, hfilled, Order.qty_withRemaining,
      Order.rem_withRemaining] at hsum
    rw [Order.qty_withRemaining, Order.rem_withRemaining] at hle
    apply Qty.eq_of_toNat
    show o.qty.toNat = o.rem
    omega
  · intro heq
    have hrem : o.qty.toNat = o.rem := by rw [heq]; rfl
    refine ⟨hpos, ?_, log, ts.map .trade ++ [.restingOnBook o.id p ⟨n⟩], rfl, hacc, ?_⟩
    · rw [Order.rem_withRemaining, Order.qty_withRemaining]
      omega
    · rw [Order.id_withRemaining, Order.qty_withRemaining, Order.rem_withRemaining, hfilled]
      omega

end Truthful

namespace Engine

variable {e e' : Engine S} {log : List BookEvent} {pr : Profile} {o : Order}

theorem truthful_iff (h : e.book.Indexed) :
    e.Truthful log ↔ ∀ id x, e.book.getOrder id = some x → Ordust.Truthful log x := by
  rw [OrderBook.getOrder_eq_find]
  constructor
  · intro ht id x hx
    obtain ⟨⟨k, hk⟩, -⟩ := h.slot_of_find hx
    obtain ⟨node, hnode, rfl⟩ := Option.map_eq_some_iff.mp hk
    exact ht k node hnode
  · intro ht k node hnode
    exact ht node.order.id node.order (h.find_of_slot (orderAt_of_get hnode))

theorem Truthful.fills {rest : Order} {ts : List Trade} (tail : List BookEvent)
    (h : e.book.Indexed) (ht : e.Truthful log) (hnew : e.book.getOrder o.id = none)
    (hfills : e.Fills o ts rest e') (hmade : ∀ id, madeBy id tail = 0)
    (htrade : ∀ t, .trade t ∉ tail) (hacc : ∀ id, .accepted id ∉ tail) :
    e'.Truthful (log ++ (.accepted o.id :: ts.map .trade ++ tail)) := by
  rw [truthful_iff h] at ht
  rw [truthful_iff hfills.filled.indexed]
  intro id x hx
  obtain ⟨y, hy, hxy, hsum, hpos⟩ := hfills.filled.left id x hx
  have hyt := ht id y hy
  have hyid : y.id = id := by
    rw [OrderBook.getOrder_eq_find] at hy
    exact (h.slot_of_find hy).2
  subst hyid
  have hne : o.id ≠ y.id := by
    intro hc
    rw [hc, hy] at hnew
    simp at hnew
  apply hyt.fill hxy (hpos hyt.pos)
  · simp only [List.cons_append, madeBy_cons, madeBy_append, hmade]
    simp only [BookEvent.madeBy]
    omega
  · intro t hmem
    simp only [List.cons_append, List.mem_cons, reduceCtorEq, List.mem_append, List.mem_map,
      BookEvent.trade.injEq, exists_eq_right, false_or] at hmem
    rcases hmem with hmem | hmem
    · rw [hfills.taker t hmem]
      exact hne
    · exact absurd hmem (htrade t)
  · simp only [List.cons_append, List.mem_cons, List.mem_append, List.mem_map, reduceCtorEq, and_false,
      exists_false, false_or, not_or, BookEvent.accepted.injEq]
    exact ⟨hne.symm, hacc y.id⟩

/-- A call keeps the orders truthful if it brings to rest only an order whose quantities agree. -/
theorem Truthful.call {c : Call} {response : Response} (h : e.book.Indexed) (ht : e.Truthful log)
    (hrun : e.call pr c = .ok (response, e'))
    (hagree : ∀ o, c = .submit o → e.Rests pr o → o.qty = o.remainingQty) :
    e'.Truthful (log ++ eventsOf response) := by
  cases c with
  | submit o =>
    cases submitOrder_submits h hrun with
    | refused err =>
      rw [show eventsOf (.error err) = [] from rfl, List.append_nil]
      exact ht
    | done tail hno hnew hfills htail =>
      apply ht.fills tail h hnew hfills
      · rcases htail with rfl | rfl <;> intro id <;> rfl
      · rcases htail with rfl | rfl <;> simp
      · rcases htail with rfl | rfl <;> simp
    | @rested ts rest e₁ e' p hrests hnew hfills hpos hsets =>
      have hothers := ht.fills [.restingOnBook o.id p rest.remainingQty] h hnew hfills
        (fun _ => rfl) (by simp) (by simp)
      rw [truthful_iff hfills.filled.indexed] at hothers
      rw [truthful_iff hsets.indexed]
      intro id x hx
      rw [hsets.getOrder_eq] at hx
      by_cases hid : id = o.id
      · rw [hid, Function.update_self] at hx
        obtain rfl := Option.some.inj hx
        exact (Truthful.rested_iff hfills.rest_eq hpos hfills.total hfills.taker).mpr
          (hagree o rfl hrests)
      · rw [Function.update_of_ne hid] at hx
        exact hothers id x hx
  | cancel id =>
    rcases cancelOrder_sets h hrun with ⟨hevs, rfl⟩ | ⟨rfl, hsets⟩
    · rw [hevs, List.append_nil]
      exact ht
    · rw [truthful_iff h] at ht
      rw [truthful_iff hsets.indexed]
      intro i x hx
      rw [hsets.getOrder_eq] at hx
      by_cases hi : i = id
      · rw [hi, Function.update_self] at hx
        simp at hx
      · rw [Function.update_of_ne hi] at hx
        have hxt := ht i x hx
        exact hxt.fill rfl hxt.pos rfl (by simp [eventsOf]) (by simp [eventsOf])

theorem run_indexed {calls : List Call} {rs : List Response}
    (hrun : new.run pr calls = .ok (rs, e)) : e.book.Indexed := by
  induction calls using List.reverseRecOn generalizing rs e with
  | nil =>
    obtain ⟨-, rfl⟩ := Prod.mk.inj (Except.ok.inj hrun)
    exact OrderBook.indexed_new
  | append_singleton calls c ih =>
    obtain ⟨rs₁, e₁, response, hrun₁, hcall, -⟩ := run_snoc_eq_ok hrun
    exact call_indexed (ih hrun₁) hcall

/-- In the calls, every order that comes to rest comes in with quantities that agree. -/
def RestsAgree (S : Type) [Slab S OrderNode] (pr : Profile) (calls : List Call) : Prop :=
  ∀ done o, done ++ [.submit o] <+: calls → ∀ rs (e : Engine S), new.run pr done = .ok (rs, e) →
    e.Rests pr o → o.qty = o.remainingQty

theorem RestsAgree.truthful {calls : List Call} {rs : List Response}
    (h : RestsAgree S pr calls) (hrun : new.run pr calls = .ok (rs, e)) : e.Truthful (logOf rs) := by
  induction calls using List.reverseRecOn generalizing rs e with
  | nil =>
    obtain ⟨rfl, rfl⟩ := Prod.mk.inj (Except.ok.inj hrun)
    intro k node hnode
    simp [new, OrderBook.new] at hnode
  | append_singleton calls c ih =>
    obtain ⟨rs₁, e₁, response, hrun₁, hcall, rfl⟩ := run_snoc_eq_ok hrun
    have hpre : RestsAgree S pr calls := fun done o hd => h done o (hd.trans (List.prefix_append _ _))
    rw [logOf_snoc]
    apply (ih hpre hrun₁).call (run_indexed hrun₁) hcall
    rintro o rfl
    exact h calls o (List.prefix_refl _) rs₁ e₁ hrun₁

/-- The same of every order that is valid, good till cancelled and more than the crossing orders
can fill. -/
def UnfilledAgree (S : Type) [Slab S OrderNode] (pr : Profile) (calls : List Call) : Prop :=
  ∀ done o, done ++ [.submit o] <+: calls → ∀ rs (e : Engine S), new.run pr done = .ok (rs, e) →
    e.validate o = .ok () → o.tif = .gtc → e.book.resting.crossingQty o < o.rem →
    o.qty = o.remainingQty

/-- Where no sum wraps, an order rests if the crossing orders leave something of it. -/
theorem rests_iff {q : Queues} (h : BookRep e.book q) (hok : RefBook.Ok e.book.resting) :
    e.Rests pr o ↔
      e.validate o = .ok () ∧ o.tif = .gtc ∧ e.book.resting.crossingQty o < o.rem := by
  have hmatch : e.validate o = .ok () → ∃ e₁ ts n, e.matchOrder pr o = .ok (ts, o.withRemaining n, e₁) ∧
      n.toNat = o.rem - e.book.resting.crossingQty o := by
    intro hv
    rw [validate_eq h o] at hv
    obtain ⟨e₁, q₁, hrun, -⟩ := matchOrder_spec h o (RefBook.validate_ok hv).2.1
    obtain ⟨n, hn⟩ := RefBook.matchOrders_rest o (e.book.resting (oppositeSide o.side))
    have hrem := RefBook.matchOrders_rem o _ (hok.sorted (oppositeSide o.side))
    rw [hn] at hrem
    exact ⟨e₁, _, n, by rw [hrun, hn], hrem⟩
  constructor
  · rintro ⟨rest, e', hi⟩
    obtain ⟨e₁, ts, n, hrun, hn⟩ := hmatch hi.valid
    obtain ⟨ts', hm⟩ := hi.matched
    rw [hrun] at hm
    obtain ⟨-, heq⟩ := Prod.mk.inj (Except.ok.inj hm)
    obtain ⟨rfl, rfl⟩ := Prod.mk.inj heq
    refine ⟨hi.valid, hi.gtc, ?_⟩
    have hne : n.toNat ≠ 0 := fun h0 => hi.left ((Order.rem_eq_zero _).mpr h0)
    omega
  · rintro ⟨hv, ht, hlt⟩
    obtain ⟨e₁, ts, n, hrun, hn⟩ := hmatch hv
    refine ⟨o.withRemaining n, e₁, hv, by simp [ht], ⟨ts, hrun⟩, ?_, ht⟩
    rw [Ne, Order.rem_eq_zero, Order.rem_withRemaining]
    omega

theorem restsAgree_iff {calls : List Call} (h : NoAddOverflow S calls) :
    RestsAgree S pr calls ↔ UnfilledAgree S pr calls := by
  unfold RestsAgree UnfilledAgree
  refine forall₄_congr fun done o hd rs => forall₂_congr fun e hrun => ?_
  obtain ⟨later, rfl⟩ := hd
  rw [List.append_assoc] at h
  obtain ⟨e', q, hrun', hrep, -, hok⟩ := reach h.of_append
  rw [hrun' pr] at hrun
  obtain ⟨-, rfl⟩ := Prod.mk.inj (Except.ok.inj hrun)
  rw [rests_iff hrep hok]
  simp only [and_imp]

/-- In every state of a run, every order on the book tells right how much of it was filled, exactly
if each order that comes to rest in the run comes in with `remaining_qty` the same as `qty`. -/
theorem run_truthful_iff {calls : List Call} {rs : List Response}
    (hrun : new.run pr calls = .ok (rs, e)) :
    ((∀ done, done <+: calls → ∀ rs (e : Engine S), new.run pr done = .ok (rs, e) →
      e.Truthful (logOf rs)) ↔ RestsAgree S pr calls) ∧
    (NoAddOverflow S calls → (RestsAgree S pr calls ↔ UnfilledAgree S pr calls)) := by
  refine ⟨⟨?_, ?_⟩, restsAgree_iff⟩
  · intro h done o hd rs₁ e₁ hrun₁ hrests
    obtain ⟨later, rfl⟩ := hd
    obtain ⟨rs₂, e₂, hrun₂⟩ := run_append_isOk hrun
    obtain ⟨rs₁', e₁', response, hrun₁', hcall, rfl⟩ := run_snoc_eq_ok hrun₂
    rw [hrun₁] at hrun₁'
    obtain ⟨rfl, rfl⟩ := Prod.mk.inj (Except.ok.inj hrun₁')
    have ht := h _ (List.prefix_append _ _) _ _ hrun₂
    cases submitOrder_submits (run_indexed hrun₁) hcall with
    | refused err hno => exact absurd hrests hno
    | done tail hno => exact absurd hrests hno
    | @rested ts rest e₃ e₂ p _ hnew hfills hpos hsets =>
      have hget : e₂.book.getOrder o.id = some rest := by
        rw [hsets.getOrder_eq, Function.update_self]
      rw [truthful_iff hsets.indexed, logOf_snoc] at ht
      exact (Truthful.rested_iff hfills.rest_eq hpos hfills.total hfills.taker).mp (ht _ _ hget)
  · rintro h done ⟨later, rfl⟩ rs₁ e₁ hrun₁
    apply RestsAgree.truthful _ hrun₁
    intro done' o hd
    exact h done' o (hd.trans (List.prefix_append _ _))

theorem run_truthful_iff_twoSided :
    ∃ (rs : List Response) (e : Engine (FreeListSlab OrderNode)),
      new.run .debug twoSided = .ok (rs, e) ∧ e.Truthful (logOf rs) ∧
        UnfilledAgree (FreeListSlab OrderNode) .debug twoSided := by
  obtain ⟨e, q, hrun, -⟩ := reach twoSided_noAddOverflow
  have hagree : RestsAgree (FreeListSlab OrderNode) .debug twoSided := by
    intro done o hd rs e hrun hrests
    have hmem : .submit o ∈ twoSided := hd.subset (by simp)
    simp only [twoSided, List.mem_cons, Call.submit.injEq, List.not_mem_nil, or_false] at hmem
    rcases hmem with rfl | rfl | rfl | rfl | rfl | rfl <;> rfl
  have hiff := run_truthful_iff (hrun .debug)
  exact ⟨_, e, hrun .debug, hiff.1.mpr hagree _ (List.prefix_refl _) _ _ (hrun .debug),
    (hiff.2 twoSided_noAddOverflow).mp hagree⟩

/-- More remains of this order than it came with. -/
def tenOfFive : Order := { makeOrder 1 .sell 100 10 1 .limit .gtc with qty := ⟨5⟩ }

/-- It is accepted and comes to rest: ten of five are left of it. -/
theorem tenOfFive_rests :
    ∃ (rs : List Response) (e : Engine (FreeListSlab OrderNode)),
      new.run .debug [.submit tenOfFive] = .ok (rs, e) ∧
        rs = [.ok [.accepted ⟨1⟩, .restingOnBook ⟨1⟩ ⟨100⟩ ⟨10⟩]] ∧
        e.book.getOrder ⟨1⟩ = some tenOfFive ∧ tenOfFive.qty.toNat < tenOfFive.rem ∧
        ¬ e.Truthful (logOf rs) := by
  have hsum : Except.map (fun x => (x.1, x.2.book.getOrder ⟨1⟩))
      ((new : Engine (FreeListSlab OrderNode)).run .debug [.submit tenOfFive]) =
        .ok ([.ok [.accepted ⟨1⟩, .restingOnBook ⟨1⟩ ⟨100⟩ ⟨10⟩]], some tenOfFive) := by
    decide +kernel
  cases hrun : (new : Engine (FreeListSlab OrderNode)).run .debug [.submit tenOfFive] with
  | error p =>
    rw [hrun] at hsum
    cases hsum
  | ok x =>
    obtain ⟨rs, e⟩ := x
    rw [hrun] at hsum
    obtain ⟨hrs, hget⟩ := Prod.mk.inj (Except.ok.inj hsum)
    have hlt : tenOfFive.qty.toNat < tenOfFive.rem := by decide
    refine ⟨rs, e, rfl, hrs, hget, hlt, ?_⟩
    intro ht
    rw [truthful_iff (run_indexed hrun)] at ht
    have := (ht ⟨1⟩ tenOfFive hget).le
    omega

end Engine

end Ordust
