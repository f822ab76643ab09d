import Mathlib.Data.List.Nodup
import Mathlib.Data.Option.Basic

/-!
# Doubly linked segments in a heap

`Seg mk heap p q n` says that the nodes of the list `q` of keys and contents lie in the heap,
each with the key before it and the key after it. The segment is entered from `p` and left to
`n`. `mk` builds a node from its contents and its two links.
-/

variable {κ α ν : Type}

/-! ## The ends of a segment -/

/-- The first key of `q`, or `n` when there is none. -/
def firstKey (q : List (κ × α)) (n : Option κ) : Option κ := (q.head?.map Prod.fst).or n

/-- The last key of `q`, or `p` when there is none. -/
def lastKey (q : List (κ × α)) (p : Option κ) : Option κ := (q.getLast?.map Prod.fst).or p

@[simp] theorem firstKey_nil (n : Option κ) : firstKey ([] : List (κ × α)) n = n := rfl

@[simp] theorem firstKey_cons (e : κ × α) (q : List (κ × α)) (n : Option κ) :
    firstKey (e :: q) n = some e.1 := rfl

@[simp] theorem lastKey_nil (p : Option κ) : lastKey ([] : List (κ × α)) p = p := rfl

@[simp] theorem lastKey_snoc (q : List (κ × α)) (e : κ × α) (p : Option κ) :
    lastKey (q ++ [e]) p = some e.1 := by
  simp [lastKey]

theorem lastKey_cons (e : κ × α) (q : List (κ × α)) (p : Option κ) :
    lastKey (e :: q) p = lastKey q (some e.1) := by
  rcases List.eq_nil_or_concat q with rfl | ⟨q, x, rfl⟩
  · rfl
  · rw [List.concat_eq_append, ← List.cons_append, lastKey_snoc, lastKey_snoc]

theorem firstKey_append (q r : List (κ × α)) (n : Option κ) :
    firstKey (q ++ r) n = firstKey q (firstKey r n) := by
  cases q <;> rfl

theorem lastKey_append (q r : List (κ × α)) (p : Option κ) :
    lastKey (q ++ r) p = lastKey r (lastKey q p) := by
  rcases List.eq_nil_or_concat r with rfl | ⟨r, x, rfl⟩
  · simp
  · rw [List.concat_eq_append, ← List.append_assoc, lastKey_snoc, lastKey_snoc]

theorem firstKey_mem {q : List (κ × α)} {k : κ} (h : firstKey q none = some k) :
    k ∈ q.map Prod.fst := by
  cases q with
  | nil => simp at h
  | cons e q =>
    obtain rfl : e.1 = k := by simpa using h
    simp

theorem lastKey_mem {q : List (κ × α)} {k : κ} (h : lastKey q none = some k) :
    k ∈ q.map Prod.fst := by
  rcases List.eq_nil_or_concat q with rfl | ⟨q, e, rfl⟩
  · simp at h
  · rw [List.concat_eq_append, lastKey_snoc] at h
    obtain rfl : e.1 = k := by simpa using h
    simp

/-! ## Segments -/

def Seg (mk : α → Option κ → Option κ → ν) (heap : κ → Option ν) :
    Option κ → List (κ × α) → Option κ → Prop
  | _, [], _ => True
  | p, (k, a) :: q, n => heap k = some (mk a p (firstKey q n)) ∧ Seg mk heap (some k) q n

variable {mk : α → Option κ → Option κ → ν} {heap heap' : κ → Option ν}

theorem seg_append (p n : Option κ) (q r : List (κ × α)) :
    Seg mk heap p (q ++ r) n ↔
      Seg mk heap p q (firstKey r n) ∧ Seg mk heap (lastKey q p) r n := by
  induction q generalizing p with
  | nil => simp [Seg]
  | cons e q ih =>
    obtain ⟨k, a⟩ := e
    simp only [List.cons_append, Seg, ih, firstKey_append, lastKey_cons, and_assoc]

theorem seg_snoc (p n : Option κ) (q : List (κ × α)) (k : κ) (a : α) :
    Seg mk heap p (q ++ [(k, a)]) n ↔
      Seg mk heap p q (some k) ∧ heap k = some (mk a (lastKey q p) n) := by
  rw [seg_append]
  simp [Seg]

/-- A segment depends only on the slots of its own keys. -/
theorem Seg.frame {p n : Option κ} {q : List (κ × α)} (h : Seg mk heap p q n)
    (hf : ∀ k ∈ q.map Prod.fst, heap' k = heap k) : Seg mk heap' p q n := by
  induction q generalizing p with
  | nil => trivial
  | cons e q ih =>
    obtain ⟨k, a⟩ := e
    refine ⟨?_, ih h.2 (fun j hj => hf j (List.mem_cons_of_mem _ hj))⟩
    rw [hf k List.mem_cons_self]
    exact h.1

theorem Seg.node {p n : Option κ} {q r : List (κ × α)} {k : κ} {a : α}
    (h : Seg mk heap p (q ++ (k, a) :: r) n) :
    heap k = some (mk a (lastKey q p) (firstKey r n)) :=
  ((seg_append p n q _).mp h).2.1

theorem Seg.occupied {p n : Option κ} {q : List (κ × α)} (h : Seg mk heap p q n) :
    ∀ k ∈ q.map Prod.fst, heap k ≠ none := by
  intro k hk
  obtain ⟨⟨j, a⟩, he, rfl⟩ := List.mem_map.mp hk
  obtain ⟨xs, ys, rfl⟩ := List.append_of_mem he
  simp [h.node]

/-! ## Changing the links at the ends -/

/-- `heap'` is `heap` with the last node of `q` linked on to `n'`. -/
def RelinkNext (mk : α → Option κ → Option κ → ν) (heap heap' : κ → Option ν) (p : Option κ)
    (q : List (κ × α)) (n' : Option κ) : Prop :=
  (∀ k ∈ q.map Prod.fst, lastKey q none ≠ some k → heap' k = heap k) ∧
    ∀ r t b, q = r ++ [(t, b)] → heap' t = some (mk b (lastKey r p) n')

/-- `heap'` is `heap` with the first node of `q` linked back to `p'`. -/
def RelinkPrev (mk : α → Option κ → Option κ → ν) (heap heap' : κ → Option ν) (p' : Option κ)
    (q : List (κ × α)) (n : Option κ) : Prop :=
  (∀ k ∈ q.map Prod.fst, firstKey q none ≠ some k → heap' k = heap k) ∧
    ∀ t b r, q = (t, b) :: r → heap' t = some (mk b p' (firstKey r n))

theorem Seg.relinkNext {p n n' : Option κ} {q : List (κ × α)} (h : Seg mk heap p q n)
    (hnd : (q.map Prod.fst).Nodup) (hr : RelinkNext mk heap heap' p q n') :
    Seg mk heap' p q n' := by
  rcases List.eq_nil_or_concat q with rfl | ⟨q, ⟨t, b⟩, rfl⟩
  · trivial
  · rw [List.concat_eq_append] at h hnd hr ⊢
    rw [seg_snoc] at h ⊢
    refine ⟨h.1.frame ?_, hr.2 q t b rfl⟩
    intro k hk
    apply hr.1 k (by simp only [List.map_append, List.mem_append]; exact Or.inl hk)
    rw [lastKey_snoc]
    rintro ⟨rfl⟩
    rw [List.map_append, List.nodup_append] at hnd
    exact hnd.2.2 t hk t (by simp) rfl

theorem Seg.relinkPrev {p p' n : Option κ} {q : List (κ × α)} (h : Seg mk heap p q n)
    (hnd : (q.map Prod.fst).Nodup) (hr : RelinkPrev mk heap heap' p' q n) :
    Seg mk heap' p' q n := by
  cases q with
  | nil => trivial
  | cons e q =>
    obtain ⟨t, b⟩ := e
    refine ⟨hr.2 t b q rfl, h.2.frame ?_⟩
    intro k hk
    apply hr.1 k (List.mem_cons_of_mem _ hk)
    rw [firstKey_cons]
    rintro ⟨rfl⟩
    exact (List.nodup_cons.mp hnd).1 hk
