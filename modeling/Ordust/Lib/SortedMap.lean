import Mathlib.Order.Defs.LinearOrder
import Mathlib.Data.List.Sort

/-!
# Sorted maps

An ordered map as the list of its entries, keys strictly increasing. `exists_split` cuts a map
at one key, and the other facts about lookups and updates follow from it.
-/

/-- The entries of a map, in increasing order of their keys. -/
structure SortedMap (κ ν : Type) [LinearOrder κ] where
  entries : List (κ × ν)
  sorted : entries.Pairwise (fun a b => a.1 < b.1)

namespace SortedMap

variable {κ ν : Type} [LinearOrder κ]

def empty : SortedMap κ ν := ⟨[], List.Pairwise.nil⟩

def getEntry (k : κ) : List (κ × ν) → Option ν
  | [] => none
  | (j, v) :: es => if j = k then some v else getEntry k es

def insertEntry (k : κ) (v : ν) : List (κ × ν) → List (κ × ν)
  | [] => [(k, v)]
  | (j, w) :: es =>
    if k < j then (k, v) :: (j, w) :: es
    else if k = j then (k, v) :: es
    else (j, w) :: insertEntry k v es

def eraseEntry (k : κ) (es : List (κ × ν)) : List (κ × ν) := es.filter (fun e => e.1 ≠ k)

/-! ## Cutting a sorted list at a key -/

theorem getEntry_append (k : κ) (as bs : List (κ × ν)) (h : ∀ e ∈ as, e.1 ≠ k) :
    getEntry k (as ++ bs) = getEntry k bs := by
  induction as with
  | nil => rfl
  | cons e as ih =>
    obtain ⟨j, v⟩ := e
    have hj : j ≠ k := h (j, v) List.mem_cons_self
    rw [List.cons_append, getEntry, if_neg hj]
    exact ih (fun e he => h e (List.mem_cons_of_mem _ he))

theorem getEntry_eq_none (k : κ) (es : List (κ × ν)) (h : ∀ e ∈ es, e.1 ≠ k) :
    getEntry k es = none := by
  simpa [getEntry] using getEntry_append k es [] h

theorem insertEntry_of_lt (k : κ) (v : ν) (es : List (κ × ν)) (h : ∀ e ∈ es, k < e.1) :
    insertEntry k v es = (k, v) :: es := by
  cases es with
  | nil => rfl
  | cons e es => rw [insertEntry, if_pos (h e List.mem_cons_self)]

theorem eraseEntry_eq_self (k : κ) (es : List (κ × ν)) (h : ∀ e ∈ es, e.1 ≠ k) :
    eraseEntry k es = es := by
  rw [eraseEntry, List.filter_eq_self]
  simpa using h

/-- What `exists_split` says of the list of entries `es`. -/
structure Split (es : List (κ × ν)) (k : κ) (before after : List (κ × ν)) : Prop where
  lt : ∀ e ∈ before, e.1 < k
  gt : ∀ e ∈ after, k < e.1
  entries : es = before ++ ((getEntry k es).map (k, ·)).toList ++ after
  insert : ∀ v, insertEntry k v es = before ++ (k, v) :: after
  erase : eraseEntry k es = before ++ after

theorem exists_split_entries (es : List (κ × ν)) (k : κ)
    (hs : es.Pairwise (fun a b => a.1 < b.1)) : ∃ before after, Split es k before after := by
  induction es with
  | nil => exact ⟨[], [], by simp, by simp, rfl, fun _ => rfl, rfl⟩
  | cons e es ih =>
    obtain ⟨j, w⟩ := e
    obtain ⟨hlt, hs⟩ := List.pairwise_cons.mp hs
    rcases lt_trichotomy j k with hjk | rfl | hkj
    · obtain ⟨before, after, h⟩ := ih hs
      refine ⟨(j, w) :: before, after, ?_, h.gt, ?_, ?_, ?_⟩
      · rintro e (_ | ⟨_, he⟩)
        · exact hjk
        · exact h.lt e he
      · rw [getEntry, if_neg (ne_of_lt hjk), List.cons_append, List.cons_append, ← h.entries]
      · intro v
        rw [insertEntry, if_neg (lt_asymm hjk), if_neg (ne_of_gt hjk), h.insert, List.cons_append]
      · have herase := h.erase
        rw [eraseEntry] at herase ⊢
        rw [List.filter_cons_of_pos (by simpa using ne_of_lt hjk), herase, List.cons_append]
    · have hne : ∀ e ∈ es, e.1 ≠ j := fun e he => ne_of_gt (hlt e he)
      refine ⟨[], es, by simp, hlt, by simp [getEntry], ?_, ?_⟩
      · intro v
        rw [insertEntry, if_neg (lt_irrefl j), if_pos rfl, List.nil_append]
      · rw [eraseEntry, List.filter_cons_of_neg (by simp), List.nil_append]
        exact eraseEntry_eq_self j es hne
    · have hgt : ∀ e ∈ (j, w) :: es, k < e.1 := by
        rintro e (_ | ⟨_, he⟩)
        · exact hkj
        · exact lt_trans hkj (hlt e he)
      have hne : ∀ e ∈ (j, w) :: es, e.1 ≠ k := fun e he => ne_of_gt (hgt e he)
      refine ⟨[], (j, w) :: es, by simp, hgt, ?_, ?_, ?_⟩
      · rw [getEntry_eq_none k _ hne]; rfl
      · intro v
        rw [insertEntry_of_lt k v _ hgt, List.nil_append]
      · rw [eraseEntry_eq_self k _ hne, List.nil_append]

theorem Split.sorted {es : List (κ × ν)} {k : κ} {before after : List (κ × ν)}
    (h : Split es k before after) (hs : es.Pairwise (fun a b => a.1 < b.1)) :
    (before ++ after).Pairwise (fun a b => a.1 < b.1) ∧
      ∀ v, (before ++ (k, v) :: after).Pairwise (fun a b => a.1 < b.1) := by
  have hba : (before ++ after).Pairwise (fun a b => a.1 < b.1) := by
    rw [← h.erase]
    exact hs.filter _
  refine ⟨hba, fun v => ?_⟩
  rw [List.pairwise_append] at hba ⊢
  obtain ⟨hb, ha, hcross⟩ := hba
  refine ⟨hb, List.pairwise_cons.mpr ⟨h.gt, ha⟩, ?_⟩
  rintro x hx y (_ | ⟨_, hy⟩)
  · exact h.lt x hx
  · exact hcross x hx y hy

/-! ## The map -/

def get? (m : SortedMap κ ν) (k : κ) : Option ν := getEntry k m.entries

def insert (m : SortedMap κ ν) (k : κ) (v : ν) : SortedMap κ ν :=
  ⟨insertEntry k v m.entries, by
    obtain ⟨before, after, h⟩ := exists_split_entries m.entries k m.sorted
    rw [h.insert]
    exact (h.sorted m.sorted).2 v⟩

def erase (m : SortedMap κ ν) (k : κ) : SortedMap κ ν :=
  ⟨eraseEntry k m.entries, m.sorted.filter _⟩

/-- The entry with the least key. -/
def first? (m : SortedMap κ ν) : Option (κ × ν) := m.entries.head?

@[simp] theorem get?_empty (k : κ) : (empty : SortedMap κ ν).get? k = none := rfl

theorem exists_split (m : SortedMap κ ν) (k : κ) :
    ∃ before after, Split m.entries k before after :=
  exists_split_entries m.entries k m.sorted

theorem mem_entries (m : SortedMap κ ν) (k : κ) (v : ν) :
    (k, v) ∈ m.entries ↔ m.get? k = some v := by
  obtain ⟨before, after, h⟩ := m.exists_split k
  have hb : (k, v) ∉ before := fun hm => lt_irrefl k (h.lt _ hm)
  have ha : (k, v) ∉ after := fun hm => lt_irrefl k (h.gt _ hm)
  rw [h.entries]
  simp [hb, ha, get?, Option.map_eq_some_iff]

theorem get?_insert (m : SortedMap κ ν) (k j : κ) (v : ν) :
    (m.insert k v).get? j = if j = k then some v else m.get? j := by
  obtain ⟨before, after, h⟩ := m.exists_split k
  apply Option.ext
  intro w
  rw [← mem_entries]
  show (j, w) ∈ insertEntry k v m.entries ↔ _
  rw [h.insert]
  split
  · next hj =>
    subst hj
    have hb : (j, w) ∉ before := fun hm => lt_irrefl j (h.lt _ hm)
    have ha : (j, w) ∉ after := fun hm => lt_irrefl j (h.gt _ hm)
    simp [hb, ha, eq_comm]
  · next hj =>
    rw [← mem_entries, h.entries]
    cases getEntry k m.entries <;> simp [hj]

theorem get?_erase (m : SortedMap κ ν) (k j : κ) :
    (m.erase k).get? j = if j = k then none else m.get? j := by
  apply Option.ext
  intro w
  rw [← mem_entries]
  show (j, w) ∈ eraseEntry k m.entries ↔ _
  rw [eraseEntry, List.mem_filter, mem_entries]
  split
  · next hj => simp [hj]
  · next hj => simp [hj]

theorem ext_get? {m n : SortedMap κ ν} (h : ∀ k, m.get? k = n.get? k) : m = n := by
  have hmem : ∀ e, e ∈ m.entries ↔ e ∈ n.entries := by
    rintro ⟨k, v⟩
    rw [mem_entries, mem_entries, h]
  have : Std.Antisymm (fun a b : κ × ν => a.1 < b.1) :=
    ⟨fun a b hab hba => absurd hba (lt_asymm hab)⟩
  have : Std.Irrefl (fun a b : κ × ν => a.1 < b.1) := ⟨fun a => lt_irrefl a.1⟩
  have he := List.Pairwise.eq_of_mem_iff m.sorted n.sorted hmem
  cases m
  cases n
  simpa using he

end SortedMap
