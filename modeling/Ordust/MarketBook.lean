import Ordust.Spec.Exchange
import Mathlib.Data.List.Induction

/-!
# What a snapshot and a diff do to the market book

The last entry for a price counts. A diff sets the prices that it names and leaves the others; a
snapshot starts from nothing.
-/

open OrderDual

namespace Ordust

/-! ## The last entry for a price -/

def lastFor (p : Price) (entries : List (Price × Qty)) : Option Qty :=
  ((entries.filter (fun e => e.1 = p)).getLast?).map Prod.snd

@[simp] theorem lastFor_nil (p : Price) : lastFor p [] = none := rfl

theorem lastFor_snoc (p : Price) (entries : List (Price × Qty)) (e : Price × Qty) :
    lastFor p (entries ++ [e]) = if e.1 = p then some e.2 else lastFor p entries := by
  unfold lastFor
  by_cases he : e.1 = p <;> simp [List.filter_append, he]

theorem lastFor_mem {p : Price} {n : Qty} {entries : List (Price × Qty)}
    (h : lastFor p entries = some n) : (p, n) ∈ entries := by
  obtain ⟨e, he, rfl⟩ := Option.map_eq_some_iff.mp h
  have hmem := List.mem_of_getLast? he
  rw [List.mem_filter, decide_eq_true_eq] at hmem
  obtain ⟨hmem, rfl⟩ := hmem
  exact hmem

theorem lastFor_eq_none {p : Price} {entries : List (Price × Qty)} (h : ∀ n, (p, n) ∉ entries) :
    lastFor p entries = none := by
  rw [Option.eq_none_iff_forall_ne_some]
  intro n hn
  exact h n (lastFor_mem hn)

theorem lastFor_of_mem {p : Price} {n : Qty} {entries : List (Price × Qty)}
    (hnd : (entries.map Prod.fst).Nodup) (h : (p, n) ∈ entries) : lastFor p entries = some n := by
  cases hl : lastFor p entries with
  | none =>
    simp only [lastFor, Option.map_eq_none_iff, List.getLast?_eq_none_iff,
      List.filter_eq_nil_iff] at hl
    exact absurd h (fun hm => hl _ hm (by simp))
  | some n' =>
    have := List.inj_on_of_nodup_map hnd (lastFor_mem hl) h rfl
    rw [(Prod.mk.inj this).2]

/-- A quantity of zero stands for no level. -/
def Qty.toLevel (n : Qty) : Option Qty := if 0 < n.val then some n else none

section Fold

variable {κ : Type} [LinearOrder κ] {key : Price → κ} (hkey : Function.Injective key)
  (m : SortedMap κ Qty) (entries : List (Price × Qty)) (p : Price)

include hkey

theorem get?_foldl_write :
    (entries.foldl (fun m e => if 0 < e.2.val then m.insert (key e.1) e.2 else m.erase (key e.1))
      m).get? (key p) = ((lastFor p entries).map Qty.toLevel).getD (m.get? (key p)) := by
  induction entries using List.reverseRecOn with
  | nil => rfl
  | append_singleton entries e ih =>
    rw [List.foldl_append, List.foldl_cons, List.foldl_nil, lastFor_snoc]
    by_cases he : e.1 = p
    · subst he
      by_cases hpos : 0 < e.2.val
      · simp [hpos, SortedMap.get?_insert, Qty.toLevel]
      · simp [hpos, SortedMap.get?_erase, Qty.toLevel]
    · have hne : ¬ key p = key e.1 := fun hc => he (hkey hc).symm
      rw [if_neg he, ← ih]
      split
      · rw [SortedMap.get?_insert, if_neg hne]
      · rw [SortedMap.get?_erase, if_neg hne]

theorem get?_foldl_insert :
    (entries.foldl (fun m e => if 0 < e.2.val then m.insert (key e.1) e.2 else m) m).get? (key p) =
      (lastFor p (entries.filter (fun e => 0 < e.2.val))).or (m.get? (key p)) := by
  induction entries using List.reverseRecOn with
  | nil => rfl
  | append_singleton entries e ih =>
    rw [List.foldl_append, List.foldl_cons, List.foldl_nil, List.filter_append]
    by_cases hpos : 0 < e.2.val
    · rw [if_pos hpos, SortedMap.get?_insert, List.filter_cons_of_pos (by simpa using hpos),
        List.filter_nil, lastFor_snoc]
      by_cases he : e.1 = p
      · subst he
        simp
      · rw [if_neg (fun hc => he (hkey hc).symm), if_neg he, ih]
    · rw [if_neg hpos, List.filter_cons_of_neg (by simpa using hpos), List.filter_nil,
        List.append_nil, ih]

end Fold

/-! ## The two updates -/

/-- What a diff sets. -/
def DepthUpdate.patch (d : DepthUpdate) : Patch (Side × Price) (Option Qty) :=
  fun x => (lastFor x.2 (d.entries x.1)).map Qty.toLevel

/-- What a snapshot quotes. -/
def Snapshot.levels (s : Snapshot) : Levels :=
  fun x => lastFor x.2 ((s.entries x.1).filter (fun e => 0 < e.2.val))

namespace MarketBook

theorem level_applyDiff (b : MarketBook) (d : DepthUpdate) :
    (b.applyDiff d).level = d.patch.apply b.level := by
  funext ⟨s, p⟩
  cases s with
  | buy => exact get?_foldl_write toDual.injective b.bids d.bids p
  | sell => exact get?_foldl_write Function.injective_id b.asks d.asks p

theorem level_applySnapshot (b : MarketBook) (s : Snapshot) :
    (b.applySnapshot s).level = s.levels := by
  funext ⟨side, p⟩
  cases side with
  | buy =>
    have := get?_foldl_insert toDual.injective SortedMap.empty s.bids p
    rw [SortedMap.get?_empty, Option.or_none] at this
    exact this
  | sell =>
    have := get?_foldl_insert Function.injective_id SortedMap.empty s.asks p
    rw [SortedMap.get?_empty, Option.or_none] at this
    exact this

end MarketBook

end Ordust
