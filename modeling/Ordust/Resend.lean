import Ordust.LastMention
import Ordust.Recovery

/-!
# A book sent on

What `depth` lists is a snapshot that gives the same book again, or as much of it as was listed. A
reconciler that starts from it goes on like the one that it was taken from.
-/

open OrderDual

namespace Ordust

namespace MarketBook

variable {b : MarketBook}

/-- A level that is there has something on it. -/
def Positive (b : MarketBook) : Prop := ∀ x n, b.level x = some n → 0 < n.val

theorem positive_applySnapshot (b : MarketBook) (S : Snapshot) : (b.applySnapshot S).Positive := by
  rintro ⟨s, p⟩ n hn
  rw [level_applySnapshot] at hn
  have hmem := (List.mem_filter.mp (lastFor_mem hn)).2
  exact of_decide_eq_true hmem

theorem Positive.applyDiff (h : b.Positive) (d : DepthUpdate) : (b.applyDiff d).Positive := by
  intro x n hn
  rw [level_applyDiff] at hn
  unfold Patch.apply DepthUpdate.patch at hn
  cases hlast : lastFor x.2 (d.entries x.1) with
  | none =>
    rw [hlast] at hn
    exact h x n hn
  | some q =>
    rw [hlast] at hn
    obtain ⟨rfl, hpos⟩ := Qty.toLevel_eq_some.mp hn
    exact hpos

/-- The snapshot of the best `n` levels of each side. -/
def sent (b : MarketBook) (n : Nat) : Snapshot :=
  { lastUpdateId := b.lastUpdateId, bids := b.depth .buy n, asks := b.depth .sell n }

theorem entries_sent (b : MarketBook) (n : Nat) (s : Side) : (b.sent n).entries s = b.depth s n := by
  cases s <;> rfl

theorem level_sent (h : b.Positive) (b' : MarketBook) (n : Nat) (s : Side) (p : Price) (q : Qty) :
    (b'.applySnapshot (b.sent n)).level (s, p) = some q ↔ (p, q) ∈ b.depth s n := by
  have hpos : (b.depth s n).filter (fun e => 0 < e.2.val) = b.depth s n := by
    rw [List.filter_eq_self]
    rintro ⟨p', q'⟩ hm
    rw [depth_eq] at hm
    exact decide_eq_true (h (s, p') q' ((mem_listing b s p' q').mp (List.mem_of_mem_take hm)))
  rw [level_applySnapshot, Snapshot.levels, entries_sent, hpos]
  constructor
  · exact lastFor_mem
  · intro hm
    rw [depth_eq] at hm ⊢
    exact lastFor_of_mem (ListsBest.take (listing_sorted b s) n).once hm

theorem eq_of_sorted {s : Side} {l l' : List (Price × Qty)}
    (hl : l.Pairwise (fun x y => s.better x.1 y.1)) (hl' : l'.Pairwise (fun x y => s.better x.1 y.1))
    (hmem : ∀ e, e ∈ l ↔ e ∈ l') : l = l' := by
  have : Std.Antisymm (fun x y : Price × Qty => s.better x.1 y.1) :=
    ⟨fun x y hxy hyx => absurd hyx (Side.better_asymm hxy)⟩
  have : Std.Irrefl (fun x y : Price × Qty => s.better x.1 y.1) := ⟨fun x => s.better_irrefl x.1⟩
  exact List.Pairwise.eq_of_mem_iff hl hl' hmem

theorem listing_sent (h : b.Positive) (b' : MarketBook) (n : Nat) (s : Side) :
    (b'.applySnapshot (b.sent n)).listing s = b.depth s n := by
  have hdepth := (ListsBest.take (listing_sorted b s) n).sorted
  rw [← depth_eq] at hdepth
  apply eq_of_sorted (listing_sorted _ s) hdepth
  rintro ⟨p, q⟩
  rw [mem_listing, level_sent h]

theorem applySnapshot_sent (h : b.Positive) (b' : MarketBook) {n : Nat}
    (hn : ∀ s, (b.listing s).length ≤ n) : b'.applySnapshot (b.sent n) = b := by
  apply eq_of_level
  · funext ⟨s, p⟩
    apply Option.ext
    intro q
    rw [level_sent h, depth_eq, List.take_of_length_le (hn s), mem_listing]
  · rfl

end MarketBook

namespace Reconciler

/-! ## What every book that is shown has -/

section Shows

variable {P : MarketBook → Prop} (hsnapshot : ∀ (b : MarketBook) S, P (b.applySnapshot S))
  (hdiff : ∀ (b : MarketBook) d, P b → P (b.applyDiff d)) {pr : Profile}

def Shows (P : MarketBook → Prop) (r : Reconciler) : Prop := ∀ b ∈ r.book, P b

include hdiff

theorem bridge_keeps {b b' : MarketBook} {ds : List DepthUpdate} (hb : P b)
    (h : bridge pr b ds = .ok (.ok b')) : P b' := by
  induction ds generalizing b with
  | nil =>
    obtain rfl : b = b' := Except.ok.inj (Except.ok.inj h)
    exact hb
  | cons d ds ih =>
    obtain ⟨expected, -, hturn⟩ := Checked.bind_eq_ok.mp h
    by_cases htest : d.firstUpdateId ≤ expected ∧ expected ≤ d.finalUpdateId
    · rw [if_pos htest] at hturn
      exact ih (hdiff b d hb) hturn
    · rw [if_neg htest] at hturn
      simp at hturn

include hsnapshot

theorem shows_onMessage {r r' : Reconciler} {m : Message} {out : Except ReconcileError Unit}
    (hr : r.Shows P) (h : r.onMessage pr m = .ok (out, r')) : r'.Shows P := by
  have hempty : Shows P { state := .buffering [] } := by simp [Shows, book]
  have hsynced : ∀ b, P b → Shows P { state := .synced b } := by
    rintro b hb b' ⟨rfl⟩
    exact hb
  obtain ⟨state⟩ := r
  cases m with
  | diff d =>
    cases state with
    | buffering queue =>
      obtain ⟨-, rfl⟩ := Prod.mk.inj (Except.ok.inj h)
      simp [Shows, book]
    | synced b =>
      obtain ⟨expected, -, hturn⟩ := Checked.bind_eq_ok.mp h
      split at hturn
      · obtain ⟨-, rfl⟩ := Prod.mk.inj (Except.ok.inj hturn)
        exact hsynced _ (hdiff b d (hr b rfl))
      · obtain ⟨-, rfl⟩ := Prod.mk.inj (Except.ok.inj hturn)
        exact hempty
  | snapshot S =>
    cases state with
    | synced b =>
      obtain ⟨-, rfl⟩ := Prod.mk.inj (Except.ok.inj h)
      exact hsynced _ (hsnapshot b S)
    | buffering queue =>
      simp only [onMessage, onSnapshot] at h
      split at h
      · obtain ⟨-, rfl⟩ := Prod.mk.inj (Except.ok.inj h)
        exact hsynced _ (hsnapshot _ S)
      · obtain ⟨seq, -, hturn⟩ := Checked.bind_eq_ok.mp h
        split at hturn
        · obtain ⟨-, rfl⟩ := Prod.mk.inj (Except.ok.inj hturn)
          exact hempty
        · obtain ⟨res, hbridge, hturn⟩ := Checked.bind_eq_ok.mp hturn
          split at hturn
          · obtain ⟨-, rfl⟩ := Prod.mk.inj (Except.ok.inj hturn)
            exact hsynced _ (bridge_keeps hdiff (hsnapshot _ S) hbridge)
          · obtain ⟨-, rfl⟩ := Prod.mk.inj (Except.ok.inj hturn)
            exact hempty

theorem shows_run {r r' : Reconciler} {messages : List Message}
    {outs : List (Except ReconcileError Unit)} (hr : r.Shows P)
    (h : r.run pr messages = .ok (outs, r')) : r'.Shows P := by
  induction messages generalizing r outs with
  | nil =>
    obtain ⟨-, rfl⟩ := Prod.mk.inj (Except.ok.inj h)
    exact hr
  | cons m messages ih =>
    obtain ⟨out, r₁, outs₁, hm, hrun, rfl⟩ := Runs.exec_cons_eq_ok h
    exact ih (shows_onMessage hsnapshot hdiff hr hm) hrun

end Shows

/-! ## Starting from a book of another -/

/-- Whatever a reconciler has been through, in either build, its book sent on with `n` levels a side
lists the same `n` levels. If there are no more, a new reconciler that gets it first answers all that
comes later as the old one does, panics included. -/
theorem resent (pr : Profile) (before : List Message) (outs : List (Except ReconcileError Unit))
    (r : Reconciler) (b : MarketBook) (hrun : new.run pr before = .ok (outs, r))
    (hb : r.book = some b) (n : Nat) :
    (∀ b' s k, (MarketBook.applySnapshot b' (b.sent n)).depth s k = (b.depth s n).take k) ∧
    ((∀ s, (b.depth s (n + 1)).length ≤ n) → ∀ later,
      new.run pr (.snapshot (b.sent n) :: later) =
        (r.run pr later).map (fun x => (.ok () :: x.1, x.2))) := by
  have hpos : b.Positive := shows_run (P := MarketBook.Positive) MarketBook.positive_applySnapshot
    (fun _ d h => h.applyDiff d) (by simp [Shows, book, new]) hrun b hb
  constructor
  · intro b' s k
    rw [MarketBook.depth_eq, MarketBook.listing_sent hpos]
  · intro hall later
    have hn : ∀ s, (b.listing s).length ≤ n := by
      intro s
      have hs := hall s
      rw [MarketBook.depth_eq, List.length_take] at hs
      omega
    obtain ⟨state⟩ := r
    cases state with
    | buffering queue => simp [book] at hb
    | synced book =>
      obtain rfl : book = b := Option.some.inj hb
      have hfirst : new.onMessage pr (.snapshot (book.sent n)) = .ok (.ok (), ⟨.synced book⟩) := by
        have hsame := MarketBook.applySnapshot_sent hpos MarketBook.new hn
        show Except.ok (Except.ok (), Reconciler.mk (.synced _)) = _
        rw [hsame]
      rw [run, Runs.exec, hfirst, Checked.ok_bind]
      show (run pr _ later >>= _) = _
      cases run pr ⟨.synced book⟩ later <;> rfl

/-- A book that was bridged from two diffs, sent on with two levels a side. -/
theorem resent_bridged :
    let b := [diff95to102, diff103to105].foldl MarketBook.applyDiff
      (MarketBook.new.applySnapshot snapshotAt100)
    (∀ b' s k, (MarketBook.applySnapshot b' (b.sent 2)).depth s k = (b.depth s 2).take k) ∧
    ((∀ s, (b.depth s 3).length ≤ 2) ∧ ∀ later,
      new.run .release (.snapshot (b.sent 2) :: later) =
        (run .release ⟨.synced b⟩ later).map (fun x => (.ok () :: x.1, x.2))) := by
  intro b
  have hstraddle : diff95to102.Straddles (snapshotAt100.lastUpdateId.toNat + 1) :=
    ⟨by decide, by decide⟩
  have hrest : Follows diff95to102.finalUpdateId [diff103to105] := ⟨rfl, trivial⟩
  have hrun := run_deliver_succ .release hstraddle hrest (by decide) 0
  have hfew : ∀ s, (b.depth s 3).length ≤ 2 := by
    intro s
    cases s <;> decide +kernel
  obtain ⟨hdepth, hlater⟩ := resent .release _ _ _ b hrun rfl 2
  exact ⟨hdepth, hfew, hlater hfew⟩

end Reconciler

end Ordust
