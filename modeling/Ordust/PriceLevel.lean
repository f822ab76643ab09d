import Ordust.Spec.Reference
import Ordust.Lib.Seg

/-!
# Levels are FIFO queues in a shared arena

One spec per function of `price_level.rs`. A level that holds the queue `q` with the running
sum `t` is `Level.of p q t`; each spec says what the function makes of it, for any sum.
-/

namespace Ordust

variable {S : Type} [Slab S OrderNode]

/-- The keys and orders of a queue, head first. -/
abbrev Queue := List (NodeId × Order)

def Queue.keys (q : Queue) : List NodeId := q.map Prod.fst

def Queue.orders (q : Queue) : List Order := q.map Prod.snd

theorem Queue.orders_append (q r : Queue) : Queue.orders (q ++ r) = q.orders ++ r.orders :=
  List.map_append

theorem Queue.orders_cons (k : NodeId) (o : Order) (q : Queue) :
    Queue.orders ((k, o) :: q) = o :: q.orders := rfl

/-- The level at price `p` with the queue `q` and the running sum `t`. -/
def Level.of (p : Price) (q : Queue) (t : UInt64) : Level :=
  { price := p, head := firstKey q none, tail := lastKey q none, totalQty := ⟨t⟩ }

/-- The nodes of `q` are in the arena and linked in order, each at its own key. -/
structure Stored (arena : S) (q : Queue) : Prop where
  nodup : q.keys.Nodup
  seg : Seg OrderNode.mk (Slab.get arena) none q none

/-- The two arenas differ at most at the keys `ks`. -/
def AgreeOff (ks : List NodeId) (arena arena' : S) : Prop :=
  ∀ j, j ∉ ks → Slab.get arena' j = Slab.get arena j

namespace Stored

variable {arena arena' : S} {q : Queue}

theorem nil (arena : S) : Stored arena [] := ⟨List.nodup_nil, trivial⟩

theorem frame (h : Stored arena q) {ks : List NodeId} (hf : AgreeOff ks arena arena')
    (hd : ∀ k ∈ q.keys, k ∉ ks) : Stored arena' q :=
  ⟨h.nodup, h.seg.frame (fun k hk => hf k (hd k hk))⟩

theorem node {r : Queue} {k : NodeId} {o : Order} (h : Stored arena (q ++ (k, o) :: r)) :
    Slab.get arena k = some ⟨o, lastKey q none, firstKey r none⟩ :=
  h.seg.node

theorem order_at {k : NodeId} {o : Order} (h : Stored arena q) (hm : (k, o) ∈ q) :
    ∃ node, Slab.get arena k = some node ∧ node.order = o := by
  obtain ⟨xs, ys, rfl⟩ := List.append_of_mem hm
  exact ⟨_, h.node, rfl⟩

theorem occupied (h : Stored arena q) : ∀ k ∈ q.keys, Slab.get arena k ≠ none :=
  h.seg.occupied

theorem length_le (h : Stored arena q) : q.length ≤ Slab.len arena := by
  have := Slab.length_le_len arena q.keys h.nodup h.occupied
  simpa [Queue.keys] using this

theorem not_mem_of_vacant {k : NodeId} (h : Stored arena q) (hk : Slab.get arena k = none) :
    k ∉ q.keys :=
  fun hm => h.occupied k hm hk

end Stored

theorem AgreeOff.trans {ks : List NodeId} {a b c : S} (h₁ : AgreeOff ks a b)
    (h₂ : AgreeOff ks b c) : AgreeOff ks a c :=
  fun j hj => (h₂ j hj).trans (h₁ j hj)

theorem AgreeOff.mono {ks ls : List NodeId} {a b : S} (h : AgreeOff ks a b)
    (hsub : ∀ k ∈ ks, k ∈ ls) : AgreeOff ls a b :=
  fun j hj => h j (fun hk => hj (hsub j hk))

theorem agreeOff_modify (arena : S) (k : NodeId) (f : OrderNode → OrderNode) :
    AgreeOff [k] arena (Slab.modify arena k f) := by
  intro j hj
  exact Slab.get_modify_ne arena f (by simpa using hj)

/-! ## Following the links -/

/-- The keys and orders met on the way along `next`, for at most `fuel` nodes. -/
def walkNodes (arena : S) : Nat → Option NodeId → Queue
  | 0, _ => []
  | _, none => []
  | fuel + 1, some k =>
    match Slab.get arena k with
    | none => []
    | some node => (k, node.order) :: walkNodes arena fuel node.next

/-- What a level holds, from its head on. No list in the arena is longer than its number of
occupied slots. -/
def Level.nodes (self : Level) (arena : S) : Queue := walkNodes arena (Slab.len arena) self.head

theorem walk_eq_orders (arena : S) (fuel : Nat) (k : Option NodeId) :
    walk arena fuel k = (walkNodes arena fuel k).orders := by
  induction fuel generalizing k with
  | zero => cases k <;> rfl
  | succ fuel ih =>
    cases k with
    | none => rfl
    | some k =>
      rw [walk, walkNodes]
      cases Slab.get arena k with
      | none => rfl
      | some node => exact congrArg (node.order :: ·) (ih node.next)

theorem walkNodes_eq (arena : S) (p : Option NodeId) (q : Queue)
    (h : Seg OrderNode.mk (Slab.get arena) p q none) (fuel : Nat) (hf : q.length ≤ fuel) :
    walkNodes arena fuel (firstKey q none) = q := by
  induction q generalizing p fuel with
  | nil => cases fuel <;> rfl
  | cons e q ih =>
    obtain ⟨k, o⟩ := e
    cases fuel with
    | zero => simp at hf
    | succ fuel =>
      have := ih (some k) h.2 fuel (by simpa using hf)
      simp only [firstKey_cons, walkNodes, h.1, this]

namespace Level

/-! ## `push_back` -/

theorem stored_pushed (arena arena₁ : S) (r : Queue) (l k : NodeId) (b o : Order)
    (hq : Stored arena (r ++ [(l, b)])) (hvac : Slab.get arena k = none)
    (hk : Slab.get arena₁ k = some ⟨o, some l, none⟩)
    (hne : ∀ j, j ≠ k → Slab.get arena₁ j = Slab.get arena j) :
    let arena' := Slab.modify arena₁ l (fun node => { node with next := some k })
    AgreeOff (k :: Queue.keys (r ++ [(l, b)])) arena arena' ∧
      Stored arena' (r ++ [(l, b)] ++ [(k, o)]) := by
  intro arena'
  have hkq := hq.not_mem_of_vacant hvac
  have hlk : l ≠ k := by
    rintro rfl
    exact hkq (by simp [Queue.keys])
  have hget : ∀ j, j ≠ l → j ≠ k → Slab.get arena' j = Slab.get arena j := by
    intro j hjl hjk
    rw [Slab.get_modify_ne _ _ hjl, hne j hjk]
  refine ⟨?_, ?_, ?_⟩
  · intro j hj
    simp only [List.mem_cons, not_or] at hj
    apply hget j _ hj.1
    rintro rfl
    exact hj.2 (by simp [Queue.keys])
  · rw [Queue.keys, List.map_append, List.nodup_append]
    refine ⟨hq.nodup, by simp, ?_⟩
    rintro a ha _ hb rfl
    obtain rfl : a = k := by simpa using hb
    exact hkq ha
  · rw [seg_snoc]
    constructor
    · apply hq.seg.relinkNext hq.nodup
      constructor
      · intro j hj hjl
        apply hget
        · rintro rfl
          exact hjl (by simp)
        · rintro rfl
          exact hkq hj
      · intro r' t' b' he
        obtain ⟨rfl, he⟩ := List.append_inj' he rfl
        obtain ⟨rfl, rfl⟩ : l = t' ∧ b = b' := by simpa using he
        rw [Slab.get_modify_self, hne l hlk, hq.node]
        rfl
    · rw [Slab.get_modify_ne _ _ (Ne.symm hlk), hk, lastKey_snoc]

theorem pushBack_spec (p : Price) (q : Queue) (arena : S) (o : Order) (hq : Stored arena q) :
    ∃ (k : NodeId) (arena' : S),
      Slab.get arena k = none ∧ AgreeOff (k :: q.keys) arena arena' ∧
      Stored arena' (q ++ [(k, o)]) ∧
      ∀ (pr : Profile) (t : UInt64), (pr = .debug → o.price = some p) →
        (Level.of p q t).pushBack pr arena o = (pr.add t o.remainingQty.val >>= fun t' =>
          .ok (k, Level.of p (q ++ [(k, o)]) t', arena')) := by
  obtain ⟨k, arena₁, hins, hvac, hk, hne⟩ :=
    Slab.exists_insert arena (⟨o, lastKey q none, none⟩ : OrderNode)
  have hassert : ∀ (pr : Profile) (t : UInt64), (pr = .debug → o.price = some p) → ∀ message,
      pr.debugAssert message (o.price = some (Level.of p q t).price) = .ok () := by
    intro pr t ho message
    apply Profile.debugAssert_ok
    intro hpr
    exact decide_eq_true (ho hpr)
  rcases List.eq_nil_or_concat q with rfl | ⟨r, ⟨l, b⟩, rfl⟩
  · -- An empty level: the new node is head and tail.
    refine ⟨k, arena₁, hvac, ?_, ⟨by simp [Queue.keys], hk, trivial⟩, ?_⟩
    · intro j hj
      exact hne j (by simpa [Queue.keys] using hj)
    · intro pr t ho
      rw [lastKey_nil] at hins
      unfold pushBack
      rw [hassert pr t ho]
      simp only [Level.of, lastKey_nil, Checked.ok_bind, hins, Checked.pure_eq]
      rfl
  · rw [List.concat_eq_append] at hq hins hk hassert ⊢
    rw [lastKey_snoc] at hins hk
    obtain ⟨hag, hst⟩ := stored_pushed arena arena₁ r l k b o hq hvac hk hne
    refine ⟨k, _, hvac, hag, hst, ?_⟩
    intro pr t ho
    have hfirst : firstKey (r ++ [(l, b)] ++ [(k, o)]) none = firstKey (r ++ [(l, b)]) none := by
      cases r <;> rfl
    unfold pushBack
    rw [hassert pr t ho]
    simp only [Level.of, lastKey_snoc, Checked.ok_bind, hins, Checked.pure_eq, hfirst]

/-! ## `remove` and `pop_front` -/

/-- What `remove` leaves in the arena: the neighbours of the removed node point at each other. -/
def spliced (arena : S) (xs ys : Queue) : S :=
  Slab.modifyAt
    (Slab.modifyAt arena (lastKey xs none) (fun node => { node with next := firstKey ys none }))
    (firstKey ys none) (fun node => { node with prev := lastKey xs none })

theorem stored_spliced (arena arena₁ : S) (xs ys : Queue) (k : NodeId) (o : Order)
    (hq : Stored arena (xs ++ (k, o) :: ys))
    (hget : ∀ j, Slab.get arena₁ j = if j = k then none else Slab.get arena j) :
    Slab.get (spliced arena₁ xs ys) k = none ∧
      AgreeOff (Queue.keys (xs ++ (k, o) :: ys)) arena (spliced arena₁ xs ys) ∧
      Stored (spliced arena₁ xs ys) (xs ++ ys) := by
  have hnd := hq.nodup
  simp only [Queue.keys, List.map_append, List.map_cons, List.nodup_append, List.nodup_cons,
    List.mem_cons, ne_eq] at hnd
  obtain ⟨hx, ⟨hky, hy⟩, hcross⟩ := hnd
  have hkx : k ∉ xs.keys := fun h => hcross k h k (Or.inl rfl) rfl
  have hlast : ∀ j, lastKey xs none = some j → j ∈ xs.keys := fun j h => lastKey_mem h
  have hfirst : ∀ j, firstKey ys none = some j → j ∈ ys.keys := fun j h => firstKey_mem h
  have hout : ∀ j, j ≠ k → lastKey xs none ≠ some j → firstKey ys none ≠ some j →
      Slab.get (spliced arena₁ xs ys) j = Slab.get arena j := by
    intro j hjk hjx hjy
    rw [spliced, Slab.get_modifyAt, if_neg hjy, Slab.get_modifyAt, if_neg hjx, hget, if_neg hjk]
  have hseg := (seg_append _ _ _ _).mp hq.seg
  refine ⟨?_, ?_, ⟨?_, ?_⟩⟩
  · rw [spliced, Slab.get_modifyAt, if_neg (fun h => hky (hfirst k h)), Slab.get_modifyAt,
      if_neg (fun h => hkx (hlast k h)), hget, if_pos rfl]
  · intro j hj
    simp only [Queue.keys, List.map_append, List.map_cons, List.mem_append, List.mem_cons,
      not_or] at hj
    exact hout j hj.2.1 (fun h => hj.1 (hlast j h)) (fun h => hj.2.2 (hfirst j h))
  · rw [Queue.keys, List.map_append, List.nodup_append]
    exact ⟨hx, hy, fun a ha b hb => hcross a ha b (Or.inr hb)⟩
  · rw [seg_append]
    constructor
    · apply hseg.1.relinkNext hx
      constructor
      · intro j hj hjl
        exact hout j (fun h => hkx (h ▸ hj)) hjl
          (fun h => hcross j hj j (Or.inr (hfirst j h)) rfl)
      · rintro r t b rfl
        have ht : t ∈ Queue.keys (r ++ [(t, b)]) := by simp [Queue.keys]
        have htk : t ≠ k := fun h => hkx (by rw [← h]; exact ht)
        have hnode : Slab.get arena t = some ⟨b, lastKey r none, some k⟩ :=
          ((seg_snoc _ _ _ _ _).mp hseg.1).2
        rw [spliced, Slab.get_modifyAt, if_neg (fun h => hcross t ht t (Or.inr (hfirst t h)) rfl),
          Slab.get_modifyAt, lastKey_snoc, if_pos rfl, hget, if_neg htk, hnode]
        rfl
    · apply hseg.2.2.relinkPrev hy
      constructor
      · intro j hj hjf
        exact hout j (fun h => hky (h ▸ hj)) (fun h => hcross j (hlast j h) j (Or.inr hj) rfl) hjf
      · rintro t b r rfl
        have ht : t ∈ Queue.keys ((t, b) :: r) := by simp [Queue.keys]
        have htk : t ≠ k := fun h => hky (by rw [← h]; exact ht)
        have hnode : Slab.get arena t = some ⟨b, some k, firstKey r none⟩ := hseg.2.2.1
        rw [spliced, Slab.get_modifyAt, firstKey_cons, if_pos rfl, Slab.get_modifyAt,
          if_neg (fun h => hcross t (hlast t h) t (Or.inr ht) rfl), hget, if_neg htk, hnode]
        rfl

theorem remove_spec (p : Price) (xs ys : Queue) (k : NodeId) (o : Order) (arena : S)
    (hq : Stored arena (xs ++ (k, o) :: ys)) :
    ∃ arena' : S,
      Slab.get arena' k = none ∧ AgreeOff (Queue.keys (xs ++ (k, o) :: ys)) arena arena' ∧
      Stored arena' (xs ++ ys) ∧
      ∀ t : UInt64, (Level.of p (xs ++ (k, o) :: ys) t).remove arena k =
        (Checked.expect "total_qty underflow: level accounting is out of sync"
            (t.checkedSub o.remainingQty.val) >>= fun t' =>
          .ok (some o, Level.of p (xs ++ ys) t', arena')) := by
  obtain ⟨arena₁, hrem, hget, -⟩ := Slab.tryRemove_some arena k _ hq.node
  obtain ⟨hvac, hag, hst⟩ := stored_spliced arena arena₁ xs ys k o hq hget
  refine ⟨_, hvac, hag, hst, ?_⟩
  intro t
  simp only [remove, hrem]
  rcases List.eq_nil_or_concat xs with rfl | ⟨xs, ⟨l, b⟩, rfl⟩
  · cases ys with
    | nil => rfl
    | cons e ys =>
      simp only [Level.of, lastKey_nil, firstKey_cons, List.nil_append, lastKey_cons, spliced,
        Slab.modifyAt, Checked.pure_eq]
  · rw [List.concat_eq_append]
    have hf : ∀ r : Queue, firstKey (xs ++ [(l, b)] ++ r) none = firstKey (xs ++ [(l, b)]) none := by
      intro r
      cases xs <;> rfl
    cases ys with
    | nil =>
      simp only [Level.of, lastKey_snoc, firstKey_nil, List.append_nil, spliced, Slab.modifyAt, hf,
        Checked.pure_eq]
    | cons e ys =>
      simp only [Level.of, firstKey_cons, spliced, Slab.modifyAt, hf, lastKey_append,
        lastKey_cons, lastKey_nil, Checked.pure_eq]

theorem popFront_spec (p : Price) (q : Queue) (k : NodeId) (o : Order) (arena : S)
    (hq : Stored arena ((k, o) :: q)) :
    ∃ arena' : S,
      Slab.get arena' k = none ∧ AgreeOff (Queue.keys ((k, o) :: q)) arena arena' ∧
      Stored arena' q ∧
      ∀ (pr : Profile) (t : UInt64), (Level.of p ((k, o) :: q) t).popFront pr arena =
        (pr.sub t o.remainingQty.val >>= fun t' => .ok (some o, Level.of p q t', arena')) := by
  have hnode := Stored.node (q := []) hq
  obtain ⟨arena₁, hrem, hget, -⟩ := Slab.tryRemove_some arena k _ hnode
  obtain ⟨hvac, hag, hst⟩ := stored_spliced arena arena₁ [] q k o hq hget
  refine ⟨_, hvac, hag, hst, ?_⟩
  intro pr t
  cases q with
  | nil => simp only [popFront, Level.of, firstKey_cons, hrem]; rfl
  | cons e q =>
    simp only [popFront, Level.of, firstKey_cons, hrem, lastKey_cons, spliced, lastKey_nil,
      Slab.modifyAt, Checked.pure_eq]

/-! ## `consume_qty` -/

theorem stored_headRemaining (arena : S) (q : Queue) (k : NodeId) (o : Order) (n : UInt64)
    (hq : Stored arena ((k, o) :: q)) :
    AgreeOff [k] arena (Slab.modify arena k fun node =>
        { node with order := { node.order with remainingQty := ⟨n⟩ } }) ∧
      Stored (Slab.modify arena k fun node =>
        { node with order := { node.order with remainingQty := ⟨n⟩ } })
        ((k, o.withRemaining n) :: q) := by
  have hag := agreeOff_modify arena k fun node =>
    { node with order := { node.order with remainingQty := ⟨n⟩ } }
  have hnd := List.nodup_cons.mp hq.nodup
  refine ⟨hag, hq.nodup, ?_, ?_⟩
  · rw [Slab.get_modify_self, hq.seg.1]
    rfl
  · apply hq.seg.2.frame
    intro j hj
    apply hag
    rw [List.mem_singleton]
    rintro rfl
    exact hnd.1 hj

theorem consumeQty_spec (p : Price) (q : Queue) (k : NodeId) (o : Order) (qty : Qty) (arena : S)
    (hq : Stored arena ((k, o) :: q)) :
    ∃ arena' : S, AgreeOff (Queue.keys ((k, o) :: q)) arena arena' ∧
      ((o.remainingQty.toNat ≤ qty.toNat ∧ Slab.get arena' k = none ∧ Stored arena' q ∧
        ∀ (pr : Profile) (t : UInt64), (Level.of p ((k, o) :: q) t).consumeQty pr qty arena =
          (pr.sub t o.remainingQty.val >>= fun t' =>
            .ok (some (o.id, o.remainingQty, true), Level.of p q t', arena'))) ∨
      (qty.toNat < o.remainingQty.toNat ∧
        Stored arena' ((k, o.withRemaining (o.remainingQty.val - qty.val)) :: q) ∧
        ∀ (pr : Profile) (t : UInt64), (Level.of p ((k, o) :: q) t).consumeQty pr qty arena =
          (pr.sub t qty.val >>= fun t' =>
            .ok (some (o.id, qty, false),
              Level.of p ((k, o.withRemaining (o.remainingQty.val - qty.val)) :: q) t', arena')))) := by
  have hnode := Stored.node (q := []) hq
  by_cases hle : o.remainingQty.toNat ≤ qty.toNat
  · -- All of the front order: it is popped with nothing left of it.
    have hmin : min o.remainingQty.val qty.val = o.remainingQty.val := by
      apply UInt64.toNat_inj.mp
      rw [UInt64.toNat_min]
      exact Nat.min_eq_left hle
    obtain ⟨hag₁, hst₁⟩ := stored_headRemaining arena q k o 0 hq
    obtain ⟨arena', hvac, hag₂, hst₂, hpop⟩ := popFront_spec p q k (o.withRemaining 0) _ hst₁
    refine ⟨arena', ?_, Or.inl ⟨hle, hvac, hst₂, ?_⟩⟩
    · exact (hag₁.mono (by simp [Queue.keys])).trans hag₂
    · intro pr t
      have hsub : pr.sub o.remainingQty.val o.remainingQty.val = .ok 0 := by
        rw [Profile.sub_ok pr _ _ (le_refl _), UInt64.sub_self]
      have hsub₀ : ∀ t', pr.sub t' (o.withRemaining 0).remainingQty.val = .ok t' := by
        intro t'
        rw [Profile.sub_ok pr t' _ (Nat.zero_le _)]
        simp [Order.withRemaining]
      cases ht : pr.sub t o.remainingQty.val with
      | error e => simp [consumeQty, Level.of, hnode, hmin, hsub, ht]
      | ok t' =>
        have := hpop pr t'
        rw [hsub₀ t', Checked.ok_bind] at this
        simp only [Level.of, firstKey_cons, lastKey_cons] at this
        simp [consumeQty, Level.of, hnode, hmin, hsub, ht, lastKey_cons, this]
  · -- Only a part: the head stays, with less left of it.
    have hlt : qty.toNat < o.remainingQty.toNat := by omega
    have hmin : min o.remainingQty.val qty.val = qty.val := by
      apply UInt64.toNat_inj.mp
      rw [UInt64.toNat_min]
      exact Nat.min_eq_right (Nat.le_of_lt hlt)
    obtain ⟨hag, hst⟩ := stored_headRemaining arena q k o (o.remainingQty.val - qty.val) hq
    refine ⟨_, hag.mono (by simp [Queue.keys]), Or.inr ⟨hlt, hst, ?_⟩⟩
    intro pr t
    have hsub := Profile.sub_ok pr o.remainingQty.val qty.val (Nat.le_of_lt hlt)
    have hne : o.remainingQty.val - qty.val ≠ 0 := by
      intro h
      have := congrArg UInt64.toNat h
      rw [UInt64.toNat_sub_of_le _ _ (Nat.le_of_lt hlt)] at this
      simp only [UInt64.toNat_zero] at this
      simp only [Qty.toNat] at hlt
      omega
    simp only [consumeQty, Level.of, firstKey_cons, hnode, hmin, hsub, Checked.ok_bind,
      decide_eq_true_eq, hne, if_false, Checked.pure_eq, decide_false, lastKey_cons]

/-! ## Whatever the level holds -/

variable {pr : Profile} {self self' : Level} {arena arena' : S}

theorem popFront_ok {k : NodeId} {res : Option Order} (hhead : self.head = some k)
    (hrun : self.popFront pr arena = .ok (res, self', arena')) :
    (Slab.tryRemove arena k = none ∧ arena' = arena) ∨
    ∃ node arena₁, Slab.tryRemove arena k = some (node, arena₁) ∧
      (arena' = arena₁ ∨ ∃ newHead, arena' =
        Slab.modify arena₁ newHead (fun (head : OrderNode) => { head with prev := none })) := by
  simp only [popFront, hhead] at hrun
  cases hrem : Slab.tryRemove arena k with
  | none =>
    simp only [hrem] at hrun
    obtain ⟨-, heq⟩ := Prod.mk.inj (Except.ok.inj hrun)
    obtain ⟨-, rfl⟩ := Prod.mk.inj heq
    exact Or.inl ⟨rfl, rfl⟩
  | some x =>
    right
    obtain ⟨⟨o, prev, next⟩, arena₁⟩ := x
    refine ⟨_, arena₁, rfl, ?_⟩
    simp only [hrem] at hrun
    obtain ⟨total, -, hrun⟩ := Checked.bind_eq_ok.mp hrun
    obtain ⟨-, heq⟩ := Prod.mk.inj (Except.ok.inj hrun)
    obtain ⟨-, rfl⟩ := Prod.mk.inj heq
    cases next with
    | none => exact Or.inl rfl
    | some newHead => exact Or.inr ⟨newHead, rfl⟩

theorem consumeQty_ok {qty : Qty} {res : Option (OrderId × Qty × Bool)}
    (hrun : self.consumeQty pr qty arena = .ok (res, self', arena')) :
    (res = none ∧ arena' = arena) ∨
    ∃ k node fill left arena₁, Slab.get arena k = some node ∧
      fill.toNat = min node.order.rem qty.toNat ∧ fill.toNat + left.toNat = node.order.rem ∧
      res = some (node.order.id, ⟨fill⟩, decide (left = 0)) ∧
      arena₁ = Slab.modify arena k (fun node =>
        { node with order := { node.order with remainingQty := ⟨left⟩ } }) ∧
      (left ≠ 0 ∧ arena' = arena₁ ∨ left = 0 ∧ ∃ (level : Level) (popped : Option Order),
        level.head = some k ∧ level.popFront pr arena₁ = .ok (popped, self', arena')) := by
  cases hhead : self.head with
  | none =>
    simp only [consumeQty, hhead] at hrun
    obtain ⟨rfl, heq⟩ := Prod.mk.inj (Except.ok.inj hrun)
    exact Or.inl ⟨rfl, (Prod.mk.inj heq).2.symm⟩
  | some k =>
    cases hk : Slab.get arena k with
    | none =>
      simp only [consumeQty, hhead, hk] at hrun
      obtain ⟨rfl, heq⟩ := Prod.mk.inj (Except.ok.inj hrun)
      exact Or.inl ⟨rfl, (Prod.mk.inj heq).2.symm⟩
    | some node =>
      right
      have hmin := UInt64.toNat_min node.order.remainingQty.val qty.val
      have hle : (min node.order.remainingQty.val qty.val).toNat ≤
          node.order.remainingQty.val.toNat := by omega
      have hsub := UInt64.toNat_sub_of_le _ _ hle
      simp only [consumeQty, hhead, hk, Profile.sub_ok pr _ _ hle, Checked.ok_bind] at hrun
      generalize min node.order.remainingQty.val qty.val = fill at *
      generalize node.order.remainingQty.val - fill = left at *
      obtain ⟨total, -, hrun⟩ := Checked.bind_eq_ok.mp hrun
      have hsum : fill.toNat + left.toNat = node.order.remainingQty.val.toNat := by omega
      refine ⟨k, node, fill, left, Slab.modify arena k (fun node =>
        { node with order := { node.order with remainingQty := ⟨left⟩ } }), hk, hmin, hsum, ?_⟩
      by_cases h0 : left = 0
      · subst h0
        simp only [decide_true, if_true] at hrun
        obtain ⟨⟨popped, self₁, arena₁⟩, hpop, heq⟩ := Checked.bind_eq_ok.mp hrun
        obtain ⟨rfl, hpair⟩ := Prod.mk.inj (Except.ok.inj heq)
        obtain ⟨rfl, rfl⟩ := Prod.mk.inj hpair
        exact ⟨rfl, rfl, Or.inr ⟨rfl, _, popped, rfl, hpop⟩⟩
      · rw [decide_eq_false h0] at hrun ⊢
        obtain ⟨rfl, heq⟩ := Prod.mk.inj (Except.ok.inj hrun)
        obtain ⟨-, rfl⟩ := Prod.mk.inj heq
        exact ⟨rfl, rfl, Or.inl ⟨h0, rfl⟩⟩

end Level

end Ordust
