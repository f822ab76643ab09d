import Ordust.PriceLevel
import Ordust.Reference

/-!
# The book as queues in one arena

`BookRep b q` says that the arena, the two price maps and the index of `b` hold exactly the
queues `q`, one a side and price. `book.rs` writes out each side; here both are one.
-/

open OrderDual

namespace Ordust

variable {S : Type}

/-! ## One side of the book -/

namespace OrderBook

def level (b : OrderBook S) (s : Side) (p : Price) : Option Level :=
  match s with
  | .buy => b.bids.get? (toDual p)
  | .sell => b.asks.get? p

/-- The book with another level at one price, or with none there. -/
def withLevel (b : OrderBook S) (s : Side) (p : Price) (l : Option Level) : OrderBook S :=
  match s, l with
  | .buy, some l => { b with bids := b.bids.insert (toDual p) l }
  | .buy, none => { b with bids := b.bids.erase (toDual p) }
  | .sell, some l => { b with asks := b.asks.insert p l }
  | .sell, none => { b with asks := b.asks.erase p }

/-- A level that is empty by its running sum is dropped. -/
def pruned (l : Level) : Option Level := if l.isEmpty then none else some l

def best (b : OrderBook S) (s : Side) : Option Price := (b.iterSide s).head?.map Prod.fst

theorem level_withLevel (b : OrderBook S) (s s' : Side) (p p' : Price) (l : Option Level) :
    (b.withLevel s p l).level s' p' = if s' = s ∧ p' = p then l else b.level s' p' := by
  cases s <;> cases s' <;> cases l <;>
    simp [withLevel, level, SortedMap.get?_insert, SortedMap.get?_erase]

theorem iterSide_withLevel_ne (b : OrderBook S) {s s' : Side} (p : Price) (l : Option Level)
    (h : s' ≠ s) : (b.withLevel s p l).iterSide s' = b.iterSide s' := by
  cases s <;> cases s' <;> cases l <;> first | rfl | exact absurd rfl h

theorem mem_iterSide (b : OrderBook S) (s : Side) (p : Price) (l : Level) :
    (p, l) ∈ b.iterSide s ↔ b.level s p = some l := by
  cases s with
  | buy =>
    rw [level, ← SortedMap.mem_entries, iterSide, List.mem_map]
    constructor
    · rintro ⟨⟨p', l'⟩, hm, he⟩
      simp only [Prod.mk.injEq] at he
      obtain ⟨rfl, rfl⟩ := he
      exact hm
    · intro hm
      exact ⟨(toDual p, l), hm, rfl⟩
  | sell => exact SortedMap.mem_entries _ _ _

theorem iterSide_split (b : OrderBook S) (s : Side) (p : Price) :
    ∃ before after : List (Price × Level), (∀ e ∈ before, s.better e.1 p) ∧
      (∀ e ∈ after, s.better p e.1) ∧
      b.iterSide s = before ++ ((b.level s p).map (p, ·)).toList ++ after ∧
      ∀ l : Option Level,
        (b.withLevel s p l).iterSide s = before ++ (l.map (p, ·)).toList ++ after := by
  cases s with
  | buy =>
    obtain ⟨before, after, h⟩ := b.bids.exists_split (toDual p)
    refine ⟨before.map (fun e => (ofDual e.1, e.2)), after.map (fun e => (ofDual e.1, e.2)),
      ?_, ?_, ?_, ?_⟩
    · rintro _ hm
      obtain ⟨e, he, rfl⟩ := List.mem_map.mp hm
      exact h.lt e he
    · rintro _ hm
      obtain ⟨e, he, rfl⟩ := List.mem_map.mp hm
      exact h.gt e he
    · rw [iterSide, h.entries, level, SortedMap.get?]
      cases SortedMap.getEntry (toDual p) b.bids.entries <;> simp
    · rintro (_ | l)
      · simp [withLevel, iterSide, SortedMap.erase, h.erase]
      · simp [withLevel, iterSide, SortedMap.insert, h.insert]
  | sell =>
    obtain ⟨before, after, h⟩ := b.asks.exists_split p
    refine ⟨before, after, h.lt, h.gt, h.entries, ?_⟩
    rintro (_ | l)
    · simp [withLevel, iterSide, SortedMap.erase, h.erase]
    · simp [withLevel, iterSide, SortedMap.insert, h.insert]

theorem iterSide_sorted (b : OrderBook S) (s : Side) :
    (b.iterSide s).Pairwise (fun e f => s.better e.1 f.1) := by
  cases s with
  | buy =>
    rw [iterSide, List.pairwise_map]
    exact b.bids.sorted
  | sell => exact b.asks.sorted

theorem bestBid_eq (b : OrderBook S) : b.bestBid = b.best .buy := by
  simp only [bestBid, best, SortedMap.first?, iterSide, List.head?_map, Option.map_map]
  rfl

theorem bestAsk_eq (b : OrderBook S) : b.bestAsk = b.best .sell := rfl

/-! ## The functions of `book.rs`, for both sides at once -/

variable [Slab S OrderNode]

theorem insertResting_eq (pr : Profile) (b : OrderBook S) (o : Order) (p : Price)
    (hp : o.price = some p) :
    b.insertResting pr o =
      (((b.level o.side p).getD (Level.new p)).pushBack pr b.arena o >>= fun r =>
        .ok { b.withLevel o.side p (some r.2.1) with
          arena := r.2.2, orderIndex := b.orderIndex.insert o.id r.1 }) := by
  unfold insertResting
  rw [hp]
  cases hs : o.side <;>
    simp only [Checked.expect_some, Checked.ok_bind, reduceCtorEq, if_false, if_true] <;> rfl

theorem removeOrder_eq (b : OrderBook S) (id : OrderId) (k : NodeId) (node : OrderNode) (p : Price)
    (l : Level) (hk : b.orderIndex.lookup id = some k) (hn : Slab.get b.arena k = some node)
    (hp : node.order.price = some p) (hl : b.level node.order.side p = some l) :
    b.removeOrder id =
      (l.remove b.arena k >>= fun r =>
        .ok (({ b.withLevel node.order.side p (pruned r.2.1) with arena := r.2.2 } :
          OrderBook S).removeEntry id r.1)) := by
  unfold removeOrder
  simp only [hk, hn, hp]
  cases hs : node.order.side <;> rw [hs] at hl <;> simp only [level] at hl
  · simp only [if_true, hl]
    congr 1
    funext r
    obtain ⟨o, l', a⟩ := r
    by_cases he : l'.isEmpty = true <;> simp [pruned, withLevel, he]
  · simp only [reduceCtorEq, if_false, hl, Checked.unwrap_some, Checked.ok_bind]
    congr 1
    funext r
    obtain ⟨o, l', a⟩ := r
    by_cases he : l'.isEmpty = true <;> simp [pruned, withLevel, he]

theorem matchAtBest_nil (pr : Profile) (b : OrderBook S) (s : Side) (qty : Qty)
    (h : b.iterSide s = []) : b.matchAtBest pr s qty = .ok (none, b) := by
  cases s with
  | buy =>
    have he : b.bids.first? = none := by
      simpa [iterSide, SortedMap.first?] using h
    simp only [matchAtBest, he, Checked.pure_eq]
  | sell =>
    have he : b.asks.first? = none := by
      simpa [iterSide, SortedMap.first?] using h
    simp only [matchAtBest, he, Checked.pure_eq]

theorem matchAtBest_eq (pr : Profile) (b : OrderBook S) (s : Side) (qty : Qty) (p : Price)
    (l : Level) (rest : List (Price × Level)) (h : b.iterSide s = (p, l) :: rest) :
    b.matchAtBest pr s qty =
      (l.consumeQty pr qty b.arena >>= fun r =>
        match r.1 with
        | none => .ok (none, { b.withLevel s p (some r.2.1) with arena := r.2.2 })
        | some (id, filled, full) =>
          .ok (some ⟨id, p, filled, full⟩, { b.withLevel s p (pruned r.2.1) with
            arena := r.2.2,
            orderIndex := if full then b.orderIndex.erase id else b.orderIndex })) := by
  cases s with
  | buy =>
    have he : b.bids.first? = some (toDual p, l) := by
      rw [iterSide, List.map_eq_cons_iff] at h
      obtain ⟨⟨p', l'⟩, es, he, hpl, -⟩ := h
      simp only [Prod.mk.injEq] at hpl
      rw [SortedMap.first?, he, List.head?_cons, ← hpl.1, ← hpl.2]
      rfl
    simp only [matchAtBest, he]
    congr 1
    funext r
    obtain ⟨c, l', a⟩ := r
    rcases c with _ | ⟨id, filled, full⟩
    · rfl
    · by_cases hl' : l'.isEmpty = true <;> simp [pruned, withLevel, hl']
  | sell =>
    have he : b.asks.first? = some (p, l) := by
      rw [SortedMap.first?]
      rw [iterSide] at h
      rw [h, List.head?_cons]
    simp only [matchAtBest, he]
    congr 1
    funext r
    obtain ⟨c, l', a⟩ := r
    rcases c with _ | ⟨id, filled, full⟩
    · rfl
    · by_cases hl' : l'.isEmpty = true <;> simp [pruned, withLevel, hl']

end OrderBook

/-! ## Queues and what the book stores of them -/

variable [Slab S OrderNode]

/-- One queue a side and price. -/
abbrev Queues := Side → Price → Queue

def Queues.put (q : Queues) (s : Side) (p : Price) (x : Queue) : Queues :=
  fun s' p' => if s' = s ∧ p' = p then x else q s' p'

theorem Queues.put_self (q : Queues) (s : Side) (p : Price) (x : Queue) : q.put s p x s p = x :=
  if_pos ⟨rfl, rfl⟩

theorem Queues.put_ne (q : Queues) {s s' : Side} {p p' : Price} (x : Queue)
    (h : ¬ (s' = s ∧ p' = p)) : q.put s p x s' p' = q s' p' :=
  if_neg h

/-- The level of a queue, with the exact sum. An empty queue has no level. -/
def levelOf (p : Price) (x : Queue) : Option Level :=
  if x = [] then none else some (Level.of p x (UInt64.ofNat (qtySum x.orders)))

/-- The arena, the maps and the index hold the queues. The totals are the sums as `u64` has them. -/
structure Linked (b : OrderBook S) (q : Queues) : Prop where
  level : ∀ s p, b.level s p = levelOf p (q s p)
  stored : ∀ s p, Stored b.arena (q s p)
  rests : ∀ s p k o, (k, o) ∈ q s p → RestsAt s p o
  /-- No slot is on two levels. -/
  apart : ∀ s p s' p' k, k ∈ (q s p).keys → k ∈ (q s' p').keys → s = s' ∧ p = p'
  /-- Every occupied slot is on a level. -/
  full : ∀ k, Slab.get b.arena k ≠ none → ∃ s p, k ∈ (q s p).keys
  index : ∀ id k, b.orderIndex.lookup id = some k ↔ ∃ s p o, (k, o) ∈ q s p ∧ o.id = id

/-- The same with exact totals. -/
structure BookRep (b : OrderBook S) (q : Queues) : Prop extends Linked b q where
  fits : ∀ s p, qtySum (q s p).orders < 2 ^ 64

theorem Queue.mem_keys {q : Queue} {k : NodeId} : k ∈ q.keys ↔ ∃ o, (k, o) ∈ q := by
  simp [Queue.keys]

theorem Queue.mem_orders {q : Queue} {o : Order} : o ∈ q.orders ↔ ∃ k, (k, o) ∈ q := by
  simp [Queue.orders]

theorem Queue.eq_of_key {q : Queue} (h : q.keys.Nodup) {k : NodeId} {o o' : Order}
    (ho : (k, o) ∈ q) (ho' : (k, o') ∈ q) : o = o' := by
  have := List.inj_on_of_nodup_map h ho ho' rfl
  exact (Prod.mk.inj this).2

theorem levelOf_eq (p : Price) (x : Queue) (t : UInt64) (hx : x ≠ [])
    (ht : t.toNat = qtySum x.orders) : levelOf p x = some (Level.of p x t) := by
  rw [levelOf, if_neg hx, ← ht, UInt64.ofNat_toNat]

theorem pruned_of (p : Price) (x : Queue) (t : UInt64) (ht : t.toNat = qtySum x.orders)
    (hpos : ∀ k o, (k, o) ∈ x → 0 < o.rem) : OrderBook.pruned (Level.of p x t) = levelOf p x := by
  cases x with
  | nil =>
    have h0 : t = 0 := UInt64.toNat_inj.mp (by simpa [Queue.orders] using ht)
    simp [OrderBook.pruned, Level.isEmpty, Level.of, levelOf, h0]
  | cons e x =>
    have hlt : 0 < e.2.rem := hpos e.1 e.2 List.mem_cons_self
    have h0 : t ≠ 0 := by
      rintro rfl
      simp only [UInt64.toNat_zero, Queue.orders, List.map_cons, qtySum_cons] at ht
      omega
    rw [levelOf_eq p _ t (by simp) ht]
    simp [OrderBook.pruned, Level.isEmpty, Level.of, h0]

theorem walk_eq (arena : S) (p : Option NodeId) (q : Queue)
    (h : Seg OrderNode.mk (Slab.get arena) p q none) (fuel : Nat) (hf : q.length ≤ fuel) :
    walk arena fuel (firstKey q none) = q.orders := by
  rw [walk_eq_orders, walkNodes_eq arena p q h fuel hf]

theorem queue_of (arena : S) (p : Price) (q : Queue) (t : UInt64) (h : Stored arena q) :
    (Level.of p q t).queue arena = q.orders :=
  walk_eq arena none q h.seg _ h.length_le

namespace Linked

variable {b : OrderBook S} {q : Queues}

theorem level_some (h : Linked b q) {s : Side} {p : Price} {l : Level}
    (hl : b.level s p = some l) :
    q s p ≠ [] ∧ l = Level.of p (q s p) (UInt64.ofNat (qtySum (q s p).orders)) := by
  rw [h.level, levelOf] at hl
  split at hl
  · simp at hl
  · next hne => exact ⟨hne, (Option.some.inj hl).symm⟩

theorem level_of_mem (h : Linked b q) {s : Side} {p : Price} {l : Level}
    (hl : (p, l) ∈ b.iterSide s) :
    q s p ≠ [] ∧ l = Level.of p (q s p) (UInt64.ofNat (qtySum (q s p).orders)) :=
  h.level_some ((b.mem_iterSide s p l).mp hl)

theorem exists_level (h : Linked b q) {s : Side} {p : Price} (hne : q s p ≠ []) :
    ∃ l, (p, l) ∈ b.iterSide s := by
  have hl := h.level s p
  rw [levelOf, if_neg hne] at hl
  exact ⟨_, (b.mem_iterSide s p _).mpr hl⟩

theorem resting_eq (h : Linked b q) (s : Side) :
    b.resting s = (b.iterSide s).flatMap (fun e => (q s e.1).orders) := by
  apply List.flatMap_congr
  rintro ⟨p, l⟩ he
  obtain ⟨-, rfl⟩ := h.level_of_mem he
  exact queue_of b.arena p _ _ (h.stored s p)

theorem mem_resting (h : Linked b q) (s : Side) (o : Order) :
    o ∈ b.resting s ↔ ∃ p k, (k, o) ∈ q s p := by
  rw [h.resting_eq, List.mem_flatMap]
  constructor
  · rintro ⟨⟨p, l⟩, -, ho⟩
    exact ⟨p, Queue.mem_orders.mp ho⟩
  · rintro ⟨p, k, ho⟩
    have hne : q s p ≠ [] := by
      rintro he
      rw [he] at ho
      simp at ho
    have hl := h.level s p
    rw [levelOf, if_neg hne] at hl
    exact ⟨_, (b.mem_iterSide s p _).mpr hl, Queue.mem_orders.mpr ⟨k, ho⟩⟩

theorem rests_of_mem (h : Linked b q) {s : Side} {o : Order} (ho : o ∈ b.resting s) :
    ∃ p, RestsAt s p o := by
  obtain ⟨p, k, hk⟩ := (h.mem_resting s o).mp ho
  exact ⟨p, h.rests s p k o hk⟩

theorem px_of_mem (h : Linked b q) {s : Side} {p : Price} {o : Order}
    (ho : o ∈ (q s p).orders) : o.px = p := by
  obtain ⟨k, hk⟩ := Queue.mem_orders.mp ho
  simp [Order.px, (h.rests s p k o hk).price]

theorem eq_of_id (h : Linked b q) {s s' : Side} {p p' : Price} {k k' : NodeId} {o o' : Order}
    (ho : (k, o) ∈ q s p) (ho' : (k', o') ∈ q s' p') (hid : o.id = o'.id) :
    s = s' ∧ p = p' ∧ k = k' ∧ o = o' := by
  have h1 := (h.index o.id k).mpr ⟨s, p, o, ho, rfl⟩
  have h2 := (h.index o.id k').mpr ⟨s', p', o', ho', hid.symm⟩
  have hk : k = k' := by
    rw [h1] at h2
    exact Option.some.inj h2
  subst hk
  obtain ⟨rfl, rfl⟩ := h.apart s p s' p' k (Queue.mem_keys.mpr ⟨o, ho⟩) (Queue.mem_keys.mpr ⟨o', ho'⟩)
  exact ⟨rfl, rfl, rfl, Queue.eq_of_key (h.stored s p).nodup ho ho'⟩

theorem lookup_cases (h : Linked b q) {id : OrderId} {k : NodeId}
    (hk : b.orderIndex.lookup id = some k) (s : Side) (p : Price) :
    (∃ o, (k, o) ∈ q s p ∧ o.id = id) ∨ k ∉ (q s p).keys := by
  by_cases hkq : k ∈ (q s p).keys
  · obtain ⟨s', p', o, ho, hid⟩ := (h.index id k).mp hk
    obtain ⟨rfl, rfl⟩ := h.apart s' p' s p k (Queue.mem_keys.mpr ⟨o, ho⟩) hkq
    exact Or.inl ⟨o, ho, hid⟩
  · exact Or.inr hkq

/-- The book `b` after one queue became `x`. -/
structure Replaced (b : OrderBook S) (q : Queues) (s : Side) (p : Price) (x : Queue)
    (arena : S) (index : Finmap (fun _ : OrderId => NodeId)) : Prop where
  stored : Stored arena x
  rests : ∀ k o, (k, o) ∈ x → RestsAt s p o
  agree : AgreeOff ((q s p).keys ++ x.keys) b.arena arena
  new : ∀ k ∈ x.keys, k ∉ (q s p).keys → Slab.get b.arena k = none
  gone : ∀ k ∈ (q s p).keys, k ∉ x.keys → Slab.get arena k = none
  index : ∀ id k, index.lookup id = some k ↔
    (∃ o, (k, o) ∈ x ∧ o.id = id) ∨ b.orderIndex.lookup id = some k ∧ k ∉ (q s p).keys

theorem Replaced.elsewhere (h : Linked b q) {s : Side} {p : Price} {x : Queue} {arena : S}
    {index : Finmap (fun _ : OrderId => NodeId)} (hr : Replaced b q s p x arena index) {s' : Side}
    {p' : Price} {k : NodeId} (hne : ¬ (s' = s ∧ p' = p)) (hk : k ∈ (q s' p').keys) :
    k ∉ (q s p).keys ∧ k ∉ x.keys := by
  have hkq : k ∉ (q s p).keys := fun hk' => hne (h.apart s' p' s p k hk hk')
  refine ⟨hkq, fun hkx => ?_⟩
  exact (h.stored s' p').occupied k hk (hr.new k hkx hkq)

theorem put (h : Linked b q) {s : Side} {p : Price} {x : Queue} {arena : S}
    {index : Finmap (fun _ : OrderId => NodeId)} (hr : Replaced b q s p x arena index) :
    Linked { b.withLevel s p (levelOf p x) with arena := arena, orderIndex := index }
      (q.put s p x) where
  level := by
    intro s' p'
    have : (({ b.withLevel s p (levelOf p x) with arena := arena, orderIndex := index } :
        OrderBook S).level s' p') = (b.withLevel s p (levelOf p x)).level s' p' := by
      cases s' <;> rfl
    rw [this, OrderBook.level_withLevel, Queues.put]
    split
    · next he => rw [he.2]
    · exact h.level s' p'
  stored := by
    intro s' p'
    rw [Queues.put]
    split
    · exact hr.stored
    · next hne =>
      apply (h.stored s' p').frame hr.agree
      intro k hk
      rw [List.mem_append, not_or]
      exact hr.elsewhere h hne hk
  rests := by
    intro s' p' k o ho
    rw [Queues.put] at ho
    split at ho
    · next he => obtain ⟨rfl, rfl⟩ := he; exact hr.rests k o ho
    · exact h.rests s' p' k o ho
  apart := by
    intro s₁ p₁ s₂ p₂ k h₁ h₂
    rw [Queues.put] at h₁ h₂
    split at h₁ <;> split at h₂
    · next e₁ e₂ => exact ⟨e₁.1.trans e₂.1.symm, e₁.2.trans e₂.2.symm⟩
    · next e₁ e₂ => exact absurd h₁ (hr.elsewhere h e₂ h₂).2
    · next e₁ e₂ => exact absurd h₂ (hr.elsewhere h e₁ h₁).2
    · exact h.apart s₁ p₁ s₂ p₂ k h₁ h₂
  full := by
    intro k hk
    by_cases hx : k ∈ x.keys
    · exact ⟨s, p, by rwa [Queues.put_self]⟩
    · have hkq : k ∉ (q s p).keys := fun hk' => hk (hr.gone k hk' hx)
      have hag := hr.agree k (by simp [hkq, hx])
      obtain ⟨s', p', hk'⟩ := h.full k (fun hv => hk (hag.trans hv))
      have hne : ¬ (s' = s ∧ p' = p) := by
        rintro ⟨rfl, rfl⟩
        exact hkq hk'
      exact ⟨s', p', by rwa [Queues.put_ne q x hne]⟩
  index := by
    intro id k
    show index.lookup id = some k ↔ _
    rw [hr.index]
    constructor
    · rintro (⟨o, ho, hid⟩ | ⟨hb, hkq⟩)
      · exact ⟨s, p, o, by rwa [Queues.put_self], hid⟩
      · obtain ⟨s', p', o, ho, hid⟩ := (h.index id k).mp hb
        have hne : ¬ (s' = s ∧ p' = p) := by
          rintro ⟨rfl, rfl⟩
          exact hkq (Queue.mem_keys.mpr ⟨o, ho⟩)
        exact ⟨s', p', o, by rwa [Queues.put_ne q x hne], hid⟩
    · rintro ⟨s', p', o, ho, hid⟩
      rw [Queues.put] at ho
      split at ho
      · exact Or.inl ⟨o, ho, hid⟩
      · next hne =>
        exact Or.inr ⟨(h.index id k).mpr ⟨s', p', o, ho, hid⟩,
          (hr.elsewhere h hne (Queue.mem_keys.mpr ⟨o, ho⟩)).1⟩

theorem resting_of_split (h : Linked b q) {s : Side} {p : Price} {pre suf : List (Price × Level)}
    (hit : b.iterSide s = pre ++ ((levelOf p (q s p)).map (p, ·)).toList ++ suf) :
    b.resting s = pre.flatMap (fun e => (q s e.1).orders) ++ (q s p).orders ++
      suf.flatMap (fun e => (q s e.1).orders) := by
  rw [h.resting_eq, hit, List.flatMap_append, List.flatMap_append]
  congr 2
  rw [levelOf]
  split
  · next hq => rw [hq]; rfl
  · simp

theorem resting_split (h : Linked b q) (s : Side) (p : Price) :
    ∃ before after : List Order, (∀ o ∈ before, s.better o.px p) ∧
      (∀ o ∈ after, s.better p o.px) ∧ b.resting s = before ++ (q s p).orders ++ after := by
  obtain ⟨pre, suf, hpre, hsuf, hb, -⟩ := b.iterSide_split s p
  rw [h.level] at hb
  refine ⟨_, _, ?_, ?_, h.resting_of_split hb⟩
  · intro o ho
    obtain ⟨e, he, ho⟩ := List.mem_flatMap.mp ho
    rw [h.px_of_mem ho]
    exact hpre e he
  · intro o ho
    obtain ⟨e, he, ho⟩ := List.mem_flatMap.mp ho
    rw [h.px_of_mem ho]
    exact hsuf e he

theorem resting_put (h : Linked b q) {s : Side} {p : Price} {x : Queue} {arena : S}
    {index : Finmap (fun _ : OrderId => NodeId)} (hr : Replaced b q s p x arena index) :
    ∃ before after : List Order, (∀ o ∈ before, s.better o.px p) ∧
      (∀ o ∈ after, s.better p o.px) ∧
      b.resting s = before ++ (q s p).orders ++ after ∧
      OrderBook.resting { b.withLevel s p (levelOf p x) with arena := arena, orderIndex := index } =
        Function.update b.resting s (before ++ x.orders ++ after) := by
  have h' := h.put hr
  have hit : ∀ s', ({ b.withLevel s p (levelOf p x) with arena := arena, orderIndex := index } :
      OrderBook S).iterSide s' = (b.withLevel s p (levelOf p x)).iterSide s' := by
    intro s'
    cases s' <;> rfl
  obtain ⟨pre, suf, hpre, hsuf, hb, hw⟩ := b.iterSide_split s p
  rw [h.level] at hb
  have hold := h.resting_of_split hb
  have hnew := @resting_of_split _ _ _ _ h' s p pre suf
    (by rw [hit, hw, Queues.put_self])
  -- The other prices keep their queues.
  have hsame : ∀ es : List (Price × Level), (∀ e ∈ es, e.1 ≠ p) →
      es.flatMap (fun e => Queue.orders ((q.put s p x) s e.1)) =
        es.flatMap (fun e => (q s e.1).orders) := by
    intro es hes
    apply List.flatMap_congr
    intro e he
    rw [Queues.put_ne q x (fun hc => hes e he hc.2)]
  rw [Queues.put_self, hsame pre, hsame suf] at hnew
  · refine ⟨_, _, ?_, ?_, hold, ?_⟩
    · intro o ho
      obtain ⟨e, he, ho⟩ := List.mem_flatMap.mp ho
      rw [h.px_of_mem ho]
      exact hpre e he
    · intro o ho
      obtain ⟨e, he, ho⟩ := List.mem_flatMap.mp ho
      rw [h.px_of_mem ho]
      exact hsuf e he
    · funext s'
      by_cases hs : s' = s
      · subst hs
        rw [Function.update_self, hnew]
      · rw [Function.update_of_ne hs, h.resting_eq, h'.resting_eq, hit,
          b.iterSide_withLevel_ne p _ hs]
        exact List.flatMap_congr (fun e _ => by rw [Queues.put_ne q x (fun hc => hs hc.1)])
  · intro e he hep
    exact s.better_irrefl p (hep ▸ hsuf e he)
  · intro e he hep
    exact s.better_irrefl p (hep ▸ hpre e he)

end Linked

namespace BookRep

variable {b : OrderBook S} {q : Queues}

theorem toNat_sum (h : BookRep b q) (s : Side) (p : Price) :
    (UInt64.ofNat (qtySum (q s p).orders)).toNat = qtySum (q s p).orders :=
  UInt64.toNat_ofNat_of_lt' (h.fits s p)

theorem put (h : BookRep b q) {s : Side} {p : Price} {x : Queue} {arena : S}
    {index : Finmap (fun _ : OrderId => NodeId)} (hr : Linked.Replaced b q s p x arena index)
    (hfit : qtySum x.orders < 2 ^ 64) :
    BookRep { b.withLevel s p (levelOf p x) with arena := arena, orderIndex := index }
      (q.put s p x) where
  toLinked := h.toLinked.put hr
  fits := by
    intro s' p'
    rw [Queues.put]
    split
    · exact hfit
    · exact h.fits s' p'

end BookRep

end Ordust
