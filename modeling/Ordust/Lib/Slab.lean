import Mathlib.Data.List.Nodup

/-!
# Slabs

An arena that chooses the keys, as the `slab` crate documents it. `FreeListSlab` is a slab
whose freed keys are handed out again, the last freed one first.
-/

/-- The operations of a slab `S` of values `α`, and what its users may rely on. -/
class Slab (S : Type) (α : outParam Type) where
  withCapacity : Nat → S
  get : S → Nat → Option α
  insert : S → α → Nat × S
  /-- A write through `get_mut`. -/
  modify : S → Nat → (α → α) → S
  tryRemove : S → Nat → Option (α × S)
  len : S → Nat
  get_withCapacity : ∀ c k, get (withCapacity c) k = none
  insert_vacant : ∀ s a, get s (insert s a).1 = none
  get_insert : ∀ s a k, get (insert s a).2 k = if k = (insert s a).1 then some a else get s k
  get_modify : ∀ s k f j, get (modify s k f) j = if j = k then (get s k).map f else get s j
  tryRemove_none : ∀ s k, get s k = none → tryRemove s k = none
  tryRemove_some : ∀ s k a, get s k = some a → ∃ s', tryRemove s k = some (a, s') ∧
    (∀ j, get s' j = if j = k then none else get s j) ∧ len s' + 1 = len s
  len_insert : ∀ s a, len (insert s a).2 = len s + 1
  len_modify : ∀ s k f, len (modify s k f) = len s

namespace Slab

variable {S α : Type} [Slab S α]

attribute [simp] get_withCapacity insert_vacant len_insert len_modify

theorem get_modify_self (s : S) (k : Nat) (f : α → α) :
    get (modify s k f) k = (get s k).map f := by
  rw [get_modify, if_pos rfl]

theorem get_modify_ne (s : S) {k j : Nat} (f : α → α) (h : j ≠ k) :
    get (modify s k f) j = get s j := by
  rw [get_modify, if_neg h]

theorem exists_insert (s : S) (a : α) : ∃ k s', insert s a = (k, s') ∧ get s k = none ∧
    get s' k = some a ∧ ∀ j, j ≠ k → get s' j = get s j := by
  refine ⟨(insert s a).1, (insert s a).2, rfl, insert_vacant s a, ?_, ?_⟩
  · rw [get_insert, if_pos rfl]
  · intro j hj
    rw [get_insert, if_neg hj]

/-- A write through `get_mut` of an optional key. -/
def modifyAt (s : S) (k : Option Nat) (f : α → α) : S :=
  match k with
  | some k => modify s k f
  | none => s

theorem get_modifyAt (s : S) (k : Option Nat) (f : α → α) (j : Nat) :
    get (modifyAt s k f) j = if k = some j then (get s j).map f else get s j := by
  cases k with
  | none => simp [modifyAt]
  | some k =>
    rw [modifyAt, get_modify]
    by_cases h : j = k
    · subst h; simp
    · rw [if_neg h, if_neg (by simpa using Ne.symm h)]

theorem length_le_len (s : S) (ks : List Nat) (hnd : ks.Nodup)
    (hocc : ∀ k ∈ ks, get s k ≠ none) : ks.length ≤ len s := by
  induction ks generalizing s with
  | nil => simp
  | cons k ks ih =>
    obtain ⟨hk, hnd⟩ := List.nodup_cons.mp hnd
    obtain ⟨a, ha⟩ := Option.ne_none_iff_exists'.mp (hocc k List.mem_cons_self)
    obtain ⟨s', -, hget, hlen⟩ := tryRemove_some s k a ha
    have hle : ks.length ≤ len s' := by
      apply ih s' hnd
      intro j hj
      have hjk : j ≠ k := fun h => hk (h ▸ hj)
      rw [hget, if_neg hjk]
      exact hocc j (List.mem_cons_of_mem k hj)
    simp only [List.length_cons]
    omega

end Slab

/-! ## A slab with a free list -/

/-- Slots with a stack of the vacant ones. A key past the last slot is used when the stack is
empty. -/
structure FreeListSlab (α : Type) where
  slots : List (Option α)
  free : List Nat
  free_nodup : free.Nodup
  free_vacant : ∀ k ∈ free, slots[k]? = some none

namespace FreeListSlab

variable {α : Type}

def empty : FreeListSlab α := ⟨[], [], List.nodup_nil, by simp⟩

def get (s : FreeListSlab α) (k : Nat) : Option α := (s.slots[k]?).join

def len (s : FreeListSlab α) : Nat := s.slots.countP Option.isSome

theorem get_eq_some (s : FreeListSlab α) (k : Nat) (a : α) :
    s.get k = some a ↔ s.slots[k]? = some (some a) := by
  simp [get, Option.join_eq_some_iff]

theorem not_mem_free (s : FreeListSlab α) (k : Nat) (a : α) (h : s.get k = some a) :
    k ∉ s.free := by
  intro hk
  rw [get_eq_some, s.free_vacant k hk] at h
  simp at h

def insert (s : FreeListSlab α) (a : α) : Nat × FreeListSlab α :=
  match hf : s.free with
  | [] => (s.slots.length, ⟨s.slots ++ [some a], [], List.nodup_nil, by simp⟩)
  | k :: free => (k, ⟨s.slots.set k (some a), free, by
      have := s.free_nodup
      rw [hf] at this
      exact (List.nodup_cons.mp this).2, by
      intro j hj
      have hnd := s.free_nodup
      rw [hf] at hnd
      have hjk : k ≠ j := fun h => (List.nodup_cons.mp hnd).1 (h ▸ hj)
      rw [List.getElem?_set_ne hjk]
      exact s.free_vacant j (by rw [hf]; exact List.mem_cons_of_mem k hj)⟩)

def modify (s : FreeListSlab α) (k : Nat) (f : α → α) : FreeListSlab α :=
  ⟨s.slots.modify k (Option.map f), s.free, s.free_nodup, by
    intro j hj
    rw [List.getElem?_modify, s.free_vacant j hj]
    split <;> rfl⟩

def tryRemove (s : FreeListSlab α) (k : Nat) : Option (α × FreeListSlab α) :=
  match h : s.get k with
  | none => none
  | some a => some (a, ⟨s.slots.set k none, k :: s.free,
      List.nodup_cons.mpr ⟨s.not_mem_free k a h, s.free_nodup⟩, by
      have hk := (s.get_eq_some k a).mp h
      have hlt : k < s.slots.length := (List.getElem?_eq_some_iff.mp hk).1
      intro j hj
      rcases List.mem_cons.mp hj with rfl | hj
      · rw [List.getElem?_set_self hlt]
      · have hjk : k ≠ j := fun e => s.not_mem_free k a h (e ▸ hj)
        rw [List.getElem?_set_ne hjk]
        exact s.free_vacant j hj⟩)

theorem insert_nil (s : FreeListSlab α) (a : α) (h : s.free = []) :
    (s.insert a).1 = s.slots.length ∧ (s.insert a).2.slots = s.slots ++ [some a] := by
  unfold insert
  split
  · exact ⟨rfl, rfl⟩
  · next k free hf => rw [h] at hf; simp at hf

theorem insert_cons (s : FreeListSlab α) (a : α) (k : Nat) (free : List Nat)
    (h : s.free = k :: free) :
    (s.insert a).1 = k ∧ (s.insert a).2.slots = s.slots.set k (some a) := by
  unfold insert
  split
  · next hf => rw [h] at hf; simp at hf
  · next k' free' hf =>
    rw [h] at hf
    obtain ⟨rfl, -⟩ := List.cons.injEq .. ▸ hf
    exact ⟨rfl, rfl⟩

theorem get_empty (k : Nat) : (empty : FreeListSlab α).get k = none := by
  simp [get, empty]

theorem get_insert_fst (s : FreeListSlab α) (a : α) : s.get (s.insert a).1 = none := by
  cases hf : s.free with
  | nil => simp [get, (insert_nil s a hf).1]
  | cons k free =>
    have := s.free_vacant k (by rw [hf]; exact List.mem_cons_self)
    simp [get, (insert_cons s a k free hf).1, this]

theorem get_insert (s : FreeListSlab α) (a : α) (k : Nat) :
    (s.insert a).2.get k = if k = (s.insert a).1 then some a else s.get k := by
  cases hf : s.free with
  | nil =>
    obtain ⟨h1, h2⟩ := insert_nil s a hf
    rw [get, h1, h2, get]
    split
    · next hk => subst hk; simp
    · next hk =>
      rcases Nat.lt_or_gt_of_ne hk with hlt | hgt
      · rw [List.getElem?_append_left hlt]
      · rw [List.getElem?_eq_none (by simp; omega), List.getElem?_eq_none (by omega)]
  | cons j free =>
    obtain ⟨h1, h2⟩ := insert_cons s a j free hf
    have hv := s.free_vacant j (by rw [hf]; exact List.mem_cons_self)
    have hlt : j < s.slots.length := (List.getElem?_eq_some_iff.mp hv).1
    rw [get, h1, h2, get]
    split
    · next hk => subst hk; rw [List.getElem?_set_self hlt]; rfl
    · next hk => rw [List.getElem?_set_ne (Ne.symm hk)]

theorem len_insert (s : FreeListSlab α) (a : α) : (s.insert a).2.len = s.len + 1 := by
  cases hf : s.free with
  | nil =>
    rw [len, (insert_nil s a hf).2, len]
    simp
  | cons k free =>
    have hv := s.free_vacant k (by rw [hf]; exact List.mem_cons_self)
    obtain ⟨hlt, hk⟩ := List.getElem?_eq_some_iff.mp hv
    rw [len, (insert_cons s a k free hf).2, len, List.countP_set hlt, hk]
    rfl

theorem get_modify (s : FreeListSlab α) (k : Nat) (f : α → α) (j : Nat) :
    (s.modify k f).get j = if j = k then (s.get k).map f else s.get j := by
  simp only [get, modify, List.getElem?_modify]
  split
  · next h => subst h; cases s.slots[k]? <;> simp
  · next h => rw [if_neg (Ne.symm h)]; simp

theorem len_modify (s : FreeListSlab α) (k : Nat) (f : α → α) : (s.modify k f).len = s.len := by
  simp only [len, modify]
  induction s.slots generalizing k with
  | nil => simp
  | cons x l ih => cases k <;> simp [List.modify_cons, List.countP_cons, ih]

theorem tryRemove_none (s : FreeListSlab α) (k : Nat) (h : s.get k = none) :
    s.tryRemove k = none := by
  unfold tryRemove
  split
  · rfl
  · next a ha => rw [h] at ha; simp at ha

theorem tryRemove_some (s : FreeListSlab α) (k : Nat) (a : α) (h : s.get k = some a) :
    ∃ s', s.tryRemove k = some (a, s') ∧
      (∀ j, s'.get j = if j = k then none else s.get j) ∧ s'.len + 1 = s.len := by
  have hk := (s.get_eq_some k a).mp h
  have hlt : k < s.slots.length := (List.getElem?_eq_some_iff.mp hk).1
  unfold tryRemove
  split
  · next hn => rw [h] at hn; simp at hn
  · next b hb =>
    rw [h] at hb
    obtain rfl := Option.some.inj hb
    refine ⟨_, rfl, ?_, ?_⟩
    · intro j
      simp only [get]
      split
      · next hj => subst hj; rw [List.getElem?_set_self hlt]; rfl
      · next hj => rw [List.getElem?_set_ne (Ne.symm hj)]
    · have hpos : 0 < s.slots.countP Option.isSome :=
        List.countP_pos_iff.mpr ⟨some a, List.mem_of_getElem? hk, rfl⟩
      have hka := (List.getElem?_eq_some_iff.mp hk).2
      simp only [len, List.countP_set hlt, hka, Option.isSome_some, Option.isSome_none, if_true,
        Bool.false_eq_true, if_false]
      omega

instance : Slab (FreeListSlab α) α where
  withCapacity _ := empty
  get := get
  insert := insert
  modify := modify
  tryRemove := tryRemove
  len := len
  get_withCapacity := fun _ => get_empty
  insert_vacant := get_insert_fst
  get_insert := get_insert
  get_modify := get_modify
  tryRemove_none := tryRemove_none
  tryRemove_some := tryRemove_some
  len_insert := len_insert
  len_modify := len_modify

end FreeListSlab
