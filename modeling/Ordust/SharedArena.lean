import Ordust.PriceLevel
import Ordust.Reference

/-!
# Levels that share an arena

Any number of levels over one slab, and any calls of `price_level.rs` on them in any order. Each
level is a FIFO queue, and a call on one of them leaves the others alone.
-/

namespace Ordust

/-- Levels, one an index, that share an arena. -/
structure SharedLevels (ι S : Type) where
  level : ι → Level
  arena : S

/-- A call on one of the levels. -/
inductive LevelCall (ι : Type) where
  | pushBack (i : ι) (order : Order)
  | remove (i : ι) (id : NodeId)
  | popFront (i : ι)
  | consumeQty (i : ι) (qty : Qty)

def LevelCall.target {ι : Type} : LevelCall ι → ι
  | .pushBack i _ => i
  | .remove i _ => i
  | .popFront i => i
  | .consumeQty i _ => i

/-- What a call returns. -/
inductive LevelAnswer where
  | key (id : NodeId)
  | order (order : Option Order)
  | fill (fill : Option (OrderId × Qty × Bool))
  deriving DecidableEq

/-! ## Queues as they should behave -/

/-- A call takes the queues to other ones. A new key is one that no queue uses. -/
inductive FifoStep {ι : Type} [DecidableEq ι] (queues : ι → Queue) :
    LevelCall ι → LevelAnswer → (ι → Queue) → Prop
  | pushed (i : ι) (o : Order) (k : NodeId) (hnew : ∀ j, k ∉ (queues j).keys) :
      FifoStep queues (.pushBack i o) (.key k) (Function.update queues i (queues i ++ [(k, o)]))
  | removed {i : ι} {xs ys : Queue} {k : NodeId} {o : Order} (h : queues i = xs ++ (k, o) :: ys) :
      FifoStep queues (.remove i k) (.order (some o)) (Function.update queues i (xs ++ ys))
  | popped {i : ι} {k : NodeId} {o : Order} {q : Queue} (h : queues i = (k, o) :: q) :
      FifoStep queues (.popFront i) (.order (some o)) (Function.update queues i q)
  | nonePopped {i : ι} (h : queues i = []) : FifoStep queues (.popFront i) (.order none) queues
  | usedUp {i : ι} {k : NodeId} {o : Order} {q : Queue} {qty : Qty} (h : queues i = (k, o) :: q)
      (hle : o.remainingQty.toNat ≤ qty.toNat) :
      FifoStep queues (.consumeQty i qty) (.fill (some (o.id, o.remainingQty, true)))
        (Function.update queues i q)
  | usedPartly {i : ι} {k : NodeId} {o : Order} {q : Queue} {qty : Qty} (h : queues i = (k, o) :: q)
      (hlt : qty.toNat < o.remainingQty.toNat) :
      FifoStep queues (.consumeQty i qty) (.fill (some (o.id, qty, false)))
        (Function.update queues i ((k, o.withRemaining (o.remainingQty.val - qty.val)) :: q))
  | noneUsed {i : ι} {qty : Qty} (h : queues i = []) :
      FifoStep queues (.consumeQty i qty) (.fill none) queues

inductive FifoRun {ι : Type} [DecidableEq ι] :
    (ι → Queue) → List (LevelCall ι) → List LevelAnswer → (ι → Queue) → Prop
  | nil (queues : ι → Queue) : FifoRun queues [] [] queues
  | cons {queues queues' queues'' : ι → Queue} {c : LevelCall ι} {calls : List (LevelCall ι)}
      {answer : LevelAnswer} {answers : List LevelAnswer} (h : FifoStep queues c answer queues')
      (hrest : FifoRun queues' calls answers queues'') :
      FifoRun queues (c :: calls) (answer :: answers) queues''

namespace SharedLevels

variable {ι S : Type} [DecidableEq ι] [Slab S OrderNode]

/-! ## The code on all levels at once -/

/-- One level and the arena are written back. -/
def put (self : SharedLevels ι S) (i : ι) (level : Level) (arena : S) : SharedLevels ι S :=
  { level := Function.update self.level i level, arena := arena }

omit [Slab S OrderNode] in
@[simp] theorem put_level (self : SharedLevels ι S) (i : ι) (level : Level) (arena : S) :
    (self.put i level arena).level = Function.update self.level i level := rfl

omit [Slab S OrderNode] in
@[simp] theorem put_self (self : SharedLevels ι S) (i : ι) :
    self.put i (self.level i) self.arena = self := by
  rw [put, Function.update_eq_self]

def call (pr : Profile) (self : SharedLevels ι S) : LevelCall ι → Checked (LevelAnswer × SharedLevels ι S)
  | .pushBack i order => do
    let (id, level, arena) ← (self.level i).pushBack pr self.arena order
    return (.key id, self.put i level arena)
  | .remove i id => do
    let (order, level, arena) ← (self.level i).remove self.arena id
    return (.order order, self.put i level arena)
  | .popFront i => do
    let (order, level, arena) ← (self.level i).popFront pr self.arena
    return (.order order, self.put i level arena)
  | .consumeQty i qty => do
    let (fill, level, arena) ← (self.level i).consumeQty pr qty self.arena
    return (.fill fill, self.put i level arena)

def run (pr : Profile) (self : SharedLevels ι S) (calls : List (LevelCall ι)) :
    Checked (List LevelAnswer × SharedLevels ι S) :=
  Runs.exec (call pr) self calls

/-- The sequence that a level represents. -/
def queue (self : SharedLevels ι S) (i : ι) : Queue := (self.level i).nodes self.arena

end SharedLevels

/-- The level is a doubly linked list of the orders of `q`, and its total is the sum of what
remains of them. -/
structure Level.Holds {S : Type} [Slab S OrderNode] (l : Level) (arena : S) (q : Queue) : Prop where
  head : l.head = firstKey q none
  tail : l.tail = lastKey q none
  total : l.totalQty.toNat = qtySum q.orders
  stored : Stored arena q

namespace SharedLevels

variable {ι S : Type} [DecidableEq ι] [Slab S OrderNode]

/-- Every level is a list over slots of its own. -/
structure WellFormed (ls : SharedLevels ι S) : Prop where
  holds : ∀ i, (ls.level i).Holds ls.arena (ls.queue i)
  apart : ∀ i j, i ≠ j → ∀ k ∈ (ls.queue i).keys, k ∉ (ls.queue j).keys

/-- A removed key is linked in its level, and no total overflows. A debug build checks the price of
a new order. -/
def Allows (pr : Profile) (self : SharedLevels ι S) : LevelCall ι → Prop
  | .pushBack i order => (self.level i).totalQty.toNat + order.rem < 2 ^ 64 ∧
      (pr = .debug → order.price = some (self.level i).price)
  | .remove i id => id ∈ (self.queue i).keys
  | .popFront _ => True
  | .consumeQty _ _ => True

/-- Each call is allowed where it is made. -/
def AllowsRun (pr : Profile) (self : SharedLevels ι S) : List (LevelCall ι) → Prop
  | [] => True
  | c :: calls => self.Allows pr c ∧
      match self.call pr c with
      | .ok (_, self) => self.AllowsRun pr calls
      | .error _ => True

/-! ## One call -/

end SharedLevels

namespace Level.Holds

variable {S : Type} [Slab S OrderNode] {l : Level} {arena : S} {q : Queue}

theorem nodes_eq (h : l.Holds arena q) : l.nodes arena = q := by
  rw [Level.nodes, h.head]
  exact walkNodes_eq arena none q h.stored.seg _ h.stored.length_le

theorem eq_of (h : l.Holds arena q) : l = Level.of l.price q l.totalQty.val := by
  rw [Level.of, ← h.head, ← h.tail]

theorem of {p : Price} {t : UInt64} (hst : Stored arena q) (ht : t.toNat = qtySum q.orders) :
    (Level.of p q t).Holds arena q :=
  ⟨rfl, rfl, ht, hst⟩

theorem take (h : l.Holds arena q) {n : UInt64} {q' : Queue}
    (hsum : qtySum q.orders = n.toNat + qtySum q'.orders) :
    n.toNat ≤ l.totalQty.val.toNat ∧ (l.totalQty.val - n).toNat = qtySum q'.orders := by
  have htotal : l.totalQty.val.toNat = qtySum q.orders := h.total
  have hle : n.toNat ≤ l.totalQty.val.toNat := by omega
  refine ⟨hle, ?_⟩
  rw [UInt64.toNat_sub_of_le _ _ hle]
  omega

theorem frame {arena' : S} (h : l.Holds arena q) {ks : List NodeId} (hf : AgreeOff ks arena arena')
    (hd : ∀ k ∈ q.keys, k ∉ ks) : l.Holds arena' q :=
  ⟨h.head, h.tail, h.total, h.stored.frame hf hd⟩

end Level.Holds

namespace SharedLevels

variable {ι S : Type} [DecidableEq ι] [Slab S OrderNode] {ls : SharedLevels ι S} {pr : Profile}

theorem WellFormed.put (h : ls.WellFormed) (i : ι) {l : Level} {arena : S} {q : Queue}
    {ks : List NodeId} (hag : AgreeOff ks ls.arena arena)
    (hks : ∀ k ∈ ks, k ∈ (ls.queue i).keys ∨ Slab.get ls.arena k = none)
    (hq : ∀ k ∈ q.keys, k ∈ ks) (hl : l.Holds arena q) :
    (ls.put i l arena).WellFormed ∧ (ls.put i l arena).queue = Function.update ls.queue i q := by
  have hfree : ∀ j, j ≠ i → ∀ k ∈ (ls.queue j).keys, k ∉ ks := by
    intro j hj k hk hm
    rcases hks k hm with hi | hvac
    · exact h.apart j i hj k hk hi
    · exact (h.holds j).stored.occupied k hk hvac
  have hholds : ∀ j, ((ls.put i l arena).level j).Holds arena (Function.update ls.queue i q j) := by
    intro j
    rw [put_level]
    by_cases hj : j = i
    · subst hj
      rwa [Function.update_self, Function.update_self]
    · rw [Function.update_of_ne hj, Function.update_of_ne hj]
      exact (h.holds j).frame hag (hfree j hj)
  have hqueue : (ls.put i l arena).queue = Function.update ls.queue i q := by
    funext j
    exact (hholds j).nodes_eq
  refine ⟨⟨?_, ?_⟩, hqueue⟩
  · rw [hqueue]
    exact hholds
  · intro j j' hne k hk hk'
    rw [hqueue] at hk hk'
    by_cases hj : j = i
    · subst hj
      rw [Function.update_self] at hk
      rw [Function.update_of_ne (Ne.symm hne)] at hk'
      exact hfree j' (Ne.symm hne) k hk' (hq k hk)
    · rw [Function.update_of_ne hj] at hk
      by_cases hj' : j' = i
      · subst hj'
        rw [Function.update_self] at hk'
        exact hfree j hj k hk (hq k hk')
      · rw [Function.update_of_ne hj'] at hk'
        exact h.apart j j' hne k hk hk'

/-- What a call that returns has done. -/
structure Does (ls : SharedLevels ι S) (c : LevelCall ι) (answer : LevelAnswer) (ls' : SharedLevels ι S) :
    Prop where
  wellFormed : ls'.WellFormed
  step : FifoStep ls.queue c answer ls'.queue
  frame : ∀ j, j ≠ c.target → ls'.level j = ls.level j

theorem WellFormed.does (h : ls.WellFormed) {c : LevelCall ι} {answer : LevelAnswer} {l : Level}
    {arena : S} {q : Queue} {ks : List NodeId} (hag : AgreeOff ks ls.arena arena)
    (hks : ∀ k ∈ ks, k ∈ (ls.queue c.target).keys ∨ Slab.get ls.arena k = none)
    (hq : ∀ k ∈ q.keys, k ∈ ks) (hl : l.Holds arena q)
    (hstep : FifoStep ls.queue c answer (Function.update ls.queue c.target q)) :
    ls.Does c answer (ls.put c.target l arena) := by
  obtain ⟨hwf, hqueue⟩ := h.put c.target hag hks hq hl
  refine ⟨hwf, hqueue ▸ hstep, ?_⟩
  intro j hj
  rw [put_level, Function.update_of_ne hj]

theorem pushBack_does (h : ls.WellFormed) {i : ι} {o : Order}
    (hfit : (ls.level i).totalQty.toNat + o.rem < 2 ^ 64)
    (hprice : pr = .debug → o.price = some (ls.level i).price) :
    ∃ answer ls', ls.call pr (.pushBack i o) = .ok (answer, ls') ∧
      ls.Does (.pushBack i o) answer ls' := by
  have hi := h.holds i
  obtain ⟨k, arena, hvac, hag, hst, hpush⟩ :=
    Level.pushBack_spec (ls.level i).price (ls.queue i) ls.arena o hi.stored
  have hcode := hpush pr (ls.level i).totalQty.val hprice
  rw [← hi.eq_of, Profile.add_ok pr _ _ hfit, Checked.ok_bind] at hcode
  refine ⟨_, _, by rw [call, hcode]; rfl, h.does hag ?_ ?_ (.of hst ?_) ?_⟩
  · intro j hj
    rcases List.mem_cons.mp hj with rfl | hj
    · exact Or.inr hvac
    · exact Or.inl hj
  · intro j hj
    simpa [Queue.keys, or_comm] using hj
  · rw [UInt64.toNat_add_of_fits _ _ hfit]
    rw [Queue.orders_append, qtySum_append, ← hi.total]
    rfl
  · apply FifoStep.pushed
    intro j
    exact (h.holds j).stored.not_mem_of_vacant hvac

theorem remove_does (h : ls.WellFormed) {i : ι} {k : NodeId} (hk : k ∈ (ls.queue i).keys) :
    ∃ answer ls', ls.call pr (.remove i k) = .ok (answer, ls') ∧
      ls.Does (.remove i k) answer ls' := by
  obtain ⟨⟨j, o⟩, hm, hj⟩ := List.mem_map.mp hk
  obtain rfl : j = k := hj
  obtain ⟨xs, ys, hq⟩ := List.append_of_mem hm
  have hi := h.holds i
  have hst := hi.stored
  rw [hq] at hst
  obtain ⟨arena, -, hag, hst', hremove⟩ :=
    Level.remove_spec (ls.level i).price xs ys j o ls.arena hst
  have hsum : qtySum (ls.queue i).orders = o.rem + qtySum (Queue.orders (xs ++ ys)) := by
    rw [hq]
    simp only [Queue.orders_append, Queue.orders_cons, qtySum_append, qtySum_cons]
    omega
  obtain ⟨hle, htotal⟩ := hi.take hsum
  have hcode := hremove (ls.level i).totalQty.val
  rw [← hq, ← hi.eq_of, UInt64.checkedSub_eq_some _ _ hle, Checked.expect_some, Checked.ok_bind]
    at hcode
  refine ⟨_, _, by rw [call, hcode]; rfl, h.does hag ?_ ?_ (.of hst' htotal) (.removed hq)⟩
  · intro k hk
    rw [← hq] at hk
    exact Or.inl hk
  · intro k hk
    rw [Queue.keys, List.map_append, List.mem_append] at hk
    rw [Queue.keys, List.map_append, List.map_cons, List.mem_append, List.mem_cons]
    exact hk.imp id Or.inr

theorem popFront_does (h : ls.WellFormed) (i : ι) :
    ∃ answer ls', ls.call pr (.popFront i) = .ok (answer, ls') ∧
      ls.Does (.popFront i) answer ls' := by
  have hi := h.holds i
  cases hq : ls.queue i with
  | nil =>
    have hhead := hi.head
    rw [hq, firstKey_nil] at hhead
    have hcode : (ls.level i).popFront pr ls.arena = .ok (none, ls.level i, ls.arena) := by
      rw [Level.popFront, hhead]
      rfl
    refine ⟨_, _, by rw [call, hcode]; rfl, ?_⟩
    rw [put_self]
    exact ⟨h, .nonePopped hq, fun _ _ => rfl⟩
  | cons e q =>
    obtain ⟨k, o⟩ := e
    have hst := hi.stored
    rw [hq] at hst
    obtain ⟨arena, -, hag, hst', hpop⟩ := Level.popFront_spec (ls.level i).price q k o ls.arena hst
    have hsum : qtySum (ls.queue i).orders = o.rem + qtySum (Queue.orders q) := by
      rw [hq, Queue.orders_cons, qtySum_cons]
    obtain ⟨hle, htotal⟩ := hi.take hsum
    have hcode := hpop pr (ls.level i).totalQty.val
    rw [← hq, ← hi.eq_of, Profile.sub_ok pr _ _ hle, Checked.ok_bind] at hcode
    refine ⟨_, _, by rw [call, hcode]; rfl, h.does hag ?_ ?_ (.of hst' htotal) (.popped hq)⟩
    · intro j hj
      rw [← hq] at hj
      exact Or.inl hj
    · intro j hj
      exact List.mem_cons_of_mem k hj

theorem consumeQty_does (h : ls.WellFormed) (i : ι) (qty : Qty) :
    ∃ answer ls', ls.call pr (.consumeQty i qty) = .ok (answer, ls') ∧
      ls.Does (.consumeQty i qty) answer ls' := by
  have hi := h.holds i
  cases hq : ls.queue i with
  | nil =>
    have hhead := hi.head
    rw [hq, firstKey_nil] at hhead
    have hcode : (ls.level i).consumeQty pr qty ls.arena = .ok (none, ls.level i, ls.arena) := by
      rw [Level.consumeQty, hhead]
      rfl
    refine ⟨_, _, by rw [call, hcode]; rfl, ?_⟩
    rw [put_self]
    exact ⟨h, .noneUsed hq, fun _ _ => rfl⟩
  | cons e q =>
    obtain ⟨k, o⟩ := e
    have hst := hi.stored
    rw [hq] at hst
    have hkeys : ∀ j ∈ Queue.keys ((k, o) :: q), j ∈ (ls.queue i).keys ∨ Slab.get ls.arena j = none := by
      intro j hj
      rw [← hq] at hj
      exact Or.inl hj
    have hsum : qtySum (ls.queue i).orders = o.rem + qtySum (Queue.orders q) := by
      rw [hq, Queue.orders_cons, qtySum_cons]
    obtain ⟨arena, hag, ⟨hle, -, hst', hconsume⟩ | ⟨hlt, hst', hconsume⟩⟩ :=
      Level.consumeQty_spec (ls.level i).price q k o qty ls.arena hst
    · -- The front order is used up.
      obtain ⟨hfit, htotal⟩ := hi.take hsum
      have hcode := hconsume pr (ls.level i).totalQty.val
      rw [← hq, ← hi.eq_of, Profile.sub_ok pr _ _ hfit, Checked.ok_bind] at hcode
      refine ⟨_, _, by rw [call, hcode]; rfl, h.does hag hkeys ?_ (.of hst' htotal) (.usedUp hq hle)⟩
      intro j hj
      exact List.mem_cons_of_mem k hj
    · -- Something of it stays.
      have hrem : (o.withRemaining (o.remainingQty.val - qty.val)).rem = o.rem - qty.toNat :=
        o.rem_sub qty (Nat.le_of_lt hlt)
      have hsum' : qtySum (ls.queue i).orders = qty.val.toNat +
          qtySum (Queue.orders ((k, o.withRemaining (o.remainingQty.val - qty.val)) :: q)) := by
        have hlt' : qty.toNat < o.rem := hlt
        rw [hsum, Queue.orders_cons, qtySum_cons, hrem]
        show _ = qty.toNat + _
        omega
      obtain ⟨hfit, htotal⟩ := hi.take hsum'
      have hcode := hconsume pr (ls.level i).totalQty.val
      rw [← hq, ← hi.eq_of, Profile.sub_ok pr _ _ hfit, Checked.ok_bind] at hcode
      refine ⟨_, _, by rw [call, hcode]; rfl,
        h.does hag hkeys ?_ (.of hst' htotal) (.usedPartly hq hlt)⟩
      intro j hj
      exact hj

theorem call_does (h : ls.WellFormed) {c : LevelCall ι} (hc : ls.Allows pr c) :
    ∃ answer ls', ls.call pr c = .ok (answer, ls') ∧ ls.Does c answer ls' := by
  cases c with
  | pushBack i o => exact pushBack_does h hc.1 hc.2
  | remove i k => exact remove_does h hc
  | popFront i => exact popFront_does h i
  | consumeQty i qty => exact consumeQty_does h i qty

/-! ## Any calls in any order -/

theorem run_append_cons {calls later : List (LevelCall ι)} {c : LevelCall ι}
    (h : ls.WellFormed) (hallowed : ls.AllowsRun pr (calls ++ c :: later)) :
    ∃ answers ls₁ answer ls₂, ls.run pr calls = .ok (answers, ls₁) ∧ ls₁.WellFormed ∧
      ls₁.call pr c = .ok (answer, ls₂) ∧ ls₁.Does c answer ls₂ := by
  induction calls generalizing ls with
  | nil =>
    obtain ⟨answer, ls', hcall, hdoes⟩ := call_does h hallowed.1
    exact ⟨[], ls, answer, ls', rfl, h, hcall, hdoes⟩
  | cons c' calls ih =>
    obtain ⟨hc, hrest⟩ := hallowed
    obtain ⟨answer', ls', hcall', hdoes'⟩ := call_does h hc
    rw [hcall'] at hrest
    obtain ⟨answers, ls₁, answer, ls₂, hrun, hwf, hcall, hdoes⟩ := ih hdoes'.wellFormed hrest
    exact ⟨answer' :: answers, ls₁, answer, ls₂, Runs.exec_cons_ok hcall' hrun, hwf, hcall, hdoes⟩

/-- From well-formed levels on, the code does what the queues do, in a whole run and in each of its
calls. -/
theorem run_fifo (h : ls.WellFormed) (calls : List (LevelCall ι)) (hallowed : ls.AllowsRun pr calls) :
    (∃ answers ls', ls.run pr calls = .ok (answers, ls') ∧ ls'.WellFormed ∧
      FifoRun ls.queue calls answers ls'.queue) ∧
    ∀ done c later, calls = done ++ c :: later →
      ∃ answers ls₁ answer ls₂, ls.run pr done = .ok (answers, ls₁) ∧ ls₁.WellFormed ∧
        ls₁.call pr c = .ok (answer, ls₂) ∧ ls₁.Does c answer ls₂ := by
  constructor
  · induction calls generalizing ls with
    | nil => exact ⟨[], ls, rfl, h, .nil _⟩
    | cons c calls ih =>
      obtain ⟨hc, hrest⟩ := hallowed
      obtain ⟨answer, ls₁, hcall, hdoes⟩ := call_does h hc
      rw [hcall] at hrest
      obtain ⟨answers, ls₂, hrun, hwf, hfifo⟩ := ih hdoes.wellFormed hrest
      exact ⟨answer :: answers, ls₂, Runs.exec_cons_ok hcall hrun, hwf, .cons hdoes.step hfifo⟩
  · rintro done c later rfl
    exact run_append_cons h hallowed

/-! ## Two levels and a key that is used again -/

instance decidableAllows (pr : Profile) (ls : SharedLevels ι S) :
    (c : LevelCall ι) → Decidable (ls.Allows pr c)
  | .pushBack i order => inferInstanceAs (Decidable (_ ∧ (_ → order.price = some (ls.level i).price)))
  | .remove i id => inferInstanceAs (Decidable (id ∈ (ls.queue i).keys))
  | .popFront _ => .isTrue trivial
  | .consumeQty _ _ => .isTrue trivial

instance decidableAllowsRun (pr : Profile) :
    (calls : List (LevelCall ι)) → (ls : SharedLevels ι S) → Decidable (ls.AllowsRun pr calls)
  | [], _ => .isTrue trivial
  | c :: calls, ls => @instDecidableAnd _ _ (decidableAllows pr ls c)
    (match ls.call pr c with
      | .ok (_, ls) => decidableAllowsRun pr calls ls
      | .error _ => .isTrue trivial)

/-- Empty levels at the prices given. -/
def ofPrices (price : ι → Price) : SharedLevels ι S :=
  { level := fun i => Level.new (price i), arena := Slab.withCapacity 8 }

omit [DecidableEq ι] in
theorem wellFormed_ofPrices (price : ι → Price) :
    (ofPrices price : SharedLevels ι S).WellFormed := by
  have hqueue : ∀ i, (ofPrices price : SharedLevels ι S).queue i = [] := by
    intro i
    rw [queue, Level.nodes]
    exact walkNodes_eq _ none [] trivial _ (Nat.zero_le _)
  constructor
  · intro i
    rw [hqueue]
    exact ⟨rfl, rfl, rfl, Stored.nil _⟩
  · intro i j _ k hk
    rw [hqueue] at hk
    simp [Queue.keys] at hk

/-- `make_test_order` of the tests. -/
def makeTestOrder (id qty : UInt64) : Order :=
  { id := ⟨id⟩, side := .buy, orderType := .limit, tif := .gtc, price := some ⟨100⟩, qty := ⟨qty⟩,
    remainingQty := ⟨qty⟩, timestamp := ⟨id⟩ }

/-- Three orders at 100, the middle one of which goes. Its slot is used at 101. -/
def reusedKey : List (LevelCall Bool) :=
  [.pushBack false (makeTestOrder 1 10), .pushBack false (makeTestOrder 2 20),
    .pushBack false (makeTestOrder 3 30), .remove false 1,
    .pushBack true { makeTestOrder 4 5 with price := some ⟨101⟩ }, .consumeQty false ⟨12⟩,
    .popFront false, .consumeQty true ⟨2⟩]

def emptyLevels : SharedLevels Bool (FreeListSlab OrderNode) :=
  ofPrices fun i => if i then ⟨101⟩ else ⟨100⟩

theorem run_fifo_reusedKey :
    ∃ answers ls', emptyLevels.run .debug reusedKey = .ok (answers, ls') ∧ ls'.WellFormed ∧
      FifoRun emptyLevels.queue reusedKey answers ls'.queue ∧
      answers = [.key 0, .key 1, .key 2, .order (some (makeTestOrder 2 20)), .key 1,
        .fill (some (⟨1⟩, ⟨10⟩, true)), .order (some (makeTestOrder 3 30)),
        .fill (some (⟨4⟩, ⟨2⟩, false))] := by
  have hempty : emptyLevels.WellFormed := wellFormed_ofPrices _
  have hallowed : emptyLevels.AllowsRun .debug reusedKey := by decide +kernel
  obtain ⟨⟨answers, ls', hrun, hwf, hfifo⟩, -⟩ := run_fifo hempty reusedKey hallowed
  refine ⟨answers, ls', hrun, hwf, hfifo, ?_⟩
  have hanswers : (emptyLevels.run .debug reusedKey).map Prod.fst = .ok [.key 0, .key 1, .key 2,
      .order (some (makeTestOrder 2 20)), .key 1, .fill (some (⟨1⟩, ⟨10⟩, true)),
      .order (some (makeTestOrder 3 30)), .fill (some (⟨4⟩, ⟨2⟩, false))] := by
    decide +kernel
  rw [hrun] at hanswers
  exact Except.ok.inj hanswers

end SharedLevels

end Ordust
