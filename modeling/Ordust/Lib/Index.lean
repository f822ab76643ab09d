import Mathlib.Logic.Function.Basic

/-!
# Records in slots, found by a key

An index maps the key of each record to the slot that holds it. It stays exact when a record is
replaced under its key, taken out, or added under a new key.
-/

namespace Index

variable {κ ι α : Type}

/-- The record under the key. -/
def find (slots : κ → Option α) (index : ι → Option κ) (i : ι) : Option α := (index i).bind slots

/-- The index has an entry for each record, and no other. -/
structure Exact (key : α → ι) (slots : κ → Option α) (index : ι → Option κ) : Prop where
  sound : ∀ i k, index i = some k → ∃ a, slots k = some a ∧ key a = i
  complete : ∀ k a, slots k = some a → index (key a) = some k

variable {key : α → ι} {slots : κ → Option α} {index : ι → Option κ}

namespace Exact

theorem find_of_slot (h : Exact key slots index) {k : κ} {a : α} (hk : slots k = some a) :
    find slots index (key a) = some a := by
  rw [find, h.complete k a hk]
  exact hk

theorem slot_of_find (h : Exact key slots index) {i : ι} {a : α}
    (hi : find slots index i = some a) : (∃ k, slots k = some a) ∧ key a = i := by
  obtain ⟨k, hk, hka⟩ := Option.bind_eq_some_iff.mp hi
  obtain ⟨a', ha', hkey⟩ := h.sound i k hk
  obtain rfl : a' = a := Option.some.inj (ha'.symm.trans hka)
  exact ⟨⟨k, hka⟩, hkey⟩

theorem index_of_find_none (h : Exact key slots index) {i : ι} (hi : find slots index i = none) :
    index i = none := by
  rw [Option.eq_none_iff_forall_ne_some]
  intro k hk
  obtain ⟨a, ha, -⟩ := h.sound i k hk
  rw [find, hk] at hi
  exact absurd ha (by simp [show slots k = none from hi])

theorem slot_unique (h : Exact key slots index) {j k : κ} {a b : α} (hj : slots j = some a)
    (hk : slots k = some b) (hkey : key a = key b) : j = k := by
  have hja := h.complete j a hj
  rw [hkey, h.complete k b hk] at hja
  exact (Option.some.inj hja).symm

theorem slot_ne (h : Exact key slots index) {j k : κ} {i : ι} {a : α} (hk : slots k = some a)
    (hi : i ≠ key a) (hij : index i = some j) : j ≠ k := by
  rintro rfl
  obtain ⟨c, hc, rfl⟩ := h.sound i j hij
  rw [hk] at hc
  exact hi (congrArg key (Option.some.inj hc)).symm

variable [DecidableEq κ] [DecidableEq ι]

theorem replace (h : Exact key slots index) {k : κ} {a b : α} (hk : slots k = some a)
    (hkey : key b = key a) : Exact key (Function.update slots k (some b)) index ∧
      find (Function.update slots k (some b)) index =
        Function.update (find slots index) (key a) (some b) := by
  refine ⟨⟨?_, ?_⟩, ?_⟩
  · intro i j hj
    obtain ⟨c, hc, hci⟩ := h.sound i j hj
    by_cases hjk : j = k
    · subst hjk
      obtain rfl : c = a := Option.some.inj (hc.symm.trans hk)
      exact ⟨b, Function.update_self j _ _, hkey.trans hci⟩
    · exact ⟨c, by rwa [Function.update_of_ne hjk], hci⟩
  · intro j c hj
    by_cases hjk : j = k
    · subst hjk
      rw [Function.update_self] at hj
      rw [← Option.some.inj hj, hkey]
      exact h.complete j a hk
    · rw [Function.update_of_ne hjk] at hj
      exact h.complete j c hj
  · funext i
    by_cases hi : i = key a
    · subst hi
      rw [Function.update_self, find, h.complete k a hk]
      exact Function.update_self k _ _
    · rw [Function.update_of_ne hi, find, find]
      cases hij : index i with
      | none => rfl
      | some j => exact Function.update_of_ne (h.slot_ne hk hi hij) _ _

theorem remove (h : Exact key slots index) {k : κ} {a : α} (hk : slots k = some a) :
    Exact key (Function.update slots k none) (Function.update index (key a) none) ∧
      find (Function.update slots k none) (Function.update index (key a) none) =
        Function.update (find slots index) (key a) none := by
  refine ⟨⟨?_, ?_⟩, ?_⟩
  · intro i j hj
    by_cases hi : i = key a
    · rw [hi, Function.update_self] at hj
      simp at hj
    · rw [Function.update_of_ne hi] at hj
      rw [Function.update_of_ne (h.slot_ne hk hi hj)]
      exact h.sound i j hj
  · intro j c hj
    by_cases hjk : j = k
    · rw [hjk, Function.update_self] at hj
      simp at hj
    · rw [Function.update_of_ne hjk] at hj
      have hc : key c ≠ key a := fun hc => hjk (h.slot_unique hj hk hc)
      rw [Function.update_of_ne hc]
      exact h.complete j c hj
  · funext i
    by_cases hi : i = key a
    · rw [hi, Function.update_self, find, Function.update_self]
      rfl
    · rw [Function.update_of_ne hi, find, Function.update_of_ne hi, find]
      cases hij : index i with
      | none => rfl
      | some j => exact Function.update_of_ne (h.slot_ne hk hi hij) _ _

theorem add (h : Exact key slots index) {k : κ} {a : α} (hk : slots k = none)
    (ha : find slots index (key a) = none) :
    Exact key (Function.update slots k (some a)) (Function.update index (key a) (some k)) ∧
      find (Function.update slots k (some a)) (Function.update index (key a) (some k)) =
        Function.update (find slots index) (key a) (some a) := by
  have hvacant : ∀ i j, index i = some j → j ≠ k := by
    rintro i j hij rfl
    obtain ⟨c, hc, -⟩ := h.sound i j hij
    rw [hk] at hc
    simp at hc
  refine ⟨⟨?_, ?_⟩, ?_⟩
  · intro i j hj
    by_cases hi : i = key a
    · rw [hi, Function.update_self] at hj
      rw [← Option.some.inj hj]
      exact ⟨a, Function.update_self k _ _, hi.symm⟩
    · rw [Function.update_of_ne hi] at hj
      rw [Function.update_of_ne (hvacant i j hj)]
      exact h.sound i j hj
  · intro j c hj
    by_cases hjk : j = k
    · subst hjk
      rw [Function.update_self] at hj
      rw [← Option.some.inj hj]
      exact Function.update_self _ _ _
    · rw [Function.update_of_ne hjk] at hj
      have hc : key c ≠ key a := by
        intro hc
        have hnone := h.index_of_find_none ha
        rw [← hc, h.complete j c hj] at hnone
        simp at hnone
      rw [Function.update_of_ne hc]
      exact h.complete j c hj
  · funext i
    by_cases hi : i = key a
    · rw [hi, Function.update_self, find, Function.update_self]
      exact Function.update_self k _ _
    · rw [Function.update_of_ne hi, find, Function.update_of_ne hi, find]
      cases hij : index i with
      | none => rfl
      | some j => exact Function.update_of_ne (hvacant i j hij) _ _

end Exact

end Index
