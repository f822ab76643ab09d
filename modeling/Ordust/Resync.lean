import Ordust.ReconcilerSteps

/-!
# A snapshot among the diffs

Where a snapshot arrives among the diffs that continue it makes no difference, but for one
position: before a first diff that begins at or before the snapshot's own id.
-/

namespace Ordust

namespace Reconciler

/-! ## Runs of diffs -/

theorem run_buffering (pr : Profile) (queue ds : List DepthUpdate) :
    run pr ⟨.buffering queue⟩ (ds.map .diff) =
      .ok (List.replicate ds.length (.ok ()), ⟨.buffering (queue ++ ds)⟩) := by
  induction ds generalizing queue with
  | nil =>
    rw [List.append_nil]
    rfl
  | cons d ds ih =>
    have hds := ih (queue ++ [d])
    rw [List.append_assoc] at hds
    exact Runs.exec_cons_ok rfl hds

theorem run_follows (pr : Profile) {b : MarketBook} {ds : List DepthUpdate}
    (h : Follows b.lastUpdateId ds) :
    run pr ⟨.synced b⟩ (ds.map .diff) =
      .ok (List.replicate ds.length (.ok ()), ⟨.synced (ds.foldl MarketBook.applyDiff b)⟩) := by
  induction ds generalizing b with
  | nil => rfl
  | cons d ds ih =>
    obtain ⟨hd, hds⟩ := h
    exact Runs.exec_cons_ok (onDiff_starts pr hd) (ih (b := b.applyDiff d) hds)

/-! ## The snapshot at any position -/

/-- The diffs in order, with the snapshot after the first `i` of them. -/
def deliver (S : Snapshot) (ds : List DepthUpdate) (i : Nat) : List Message :=
  (ds.take i).map .diff ++ .snapshot S :: (ds.drop i).map .diff

/-- Every call returns `Ok`, and the book is the snapshot followed by all the diffs. -/
structure Resynced (S : Snapshot) (ds : List DepthUpdate) (i : Nat) : Prop where
  run_eq (pr : Profile) : new.run pr (deliver S ds i) =
    .ok (List.replicate (ds.length + 1) (.ok ()),
      ⟨.synced (ds.foldl MarketBook.applyDiff (MarketBook.new.applySnapshot S))⟩)
  lastUpdateId_eq : ∀ dn ∈ ds.getLast?,
    (ds.foldl MarketBook.applyDiff (MarketBook.new.applySnapshot S)).lastUpdateId = dn.finalUpdateId

variable {S : Snapshot} {d : DepthUpdate} {rest : List DepthUpdate}

theorem run_deliver_succ (pr : Profile) (hstraddle : d.Straddles (S.lastUpdateId.toNat + 1))
    (hrest : Follows d.finalUpdateId rest)
    (hrange : ∀ x ∈ rest, x.firstUpdateId ≤ x.finalUpdateId) (i : Nat) :
    new.run pr (deliver S (d :: rest) (i + 1)) =
      .ok (List.replicate ((d :: rest).length + 1) (.ok ()),
        ⟨.synced ((d :: rest).foldl MarketBook.applyDiff (MarketBook.new.applySnapshot S))⟩) := by
  have hsplit := hrest
  rw [← List.take_append_drop i rest] at hsplit
  obtain ⟨hbuffered, hlive⟩ := chained_append.mp hsplit
  have hbridges : Bridges S.lastUpdateId (d :: rest.take i) := by
    refine ⟨hstraddle, Follows.bridges hbuffered ?_⟩
    intro x hx
    exact hrange x (List.mem_of_mem_take hx)
  have hsnapshot : onMessage pr ⟨.buffering ([] ++ d :: rest.take i)⟩ (.snapshot S) =
      .ok (.ok (), ⟨.synced ((d :: rest.take i).foldl MarketBook.applyDiff
        (MarketBook.new.applySnapshot S))⟩) := by
    have hused := fromStraddle_cons hstraddle (rest.take i)
    have hne : fromStraddle (S.lastUpdateId.toNat + 1) (d :: rest.take i) ≠ [] := by
      rw [hused]
      exact List.cons_ne_nil d _
    have hS := onSnapshot_bridges pr hne (by rwa [hused])
    rw [hused] at hS
    exact hS
  have hfollows : Follows ((d :: rest.take i).foldl MarketBook.applyDiff
      (MarketBook.new.applySnapshot S)).lastUpdateId (rest.drop i) := by
    rw [MarketBook.lastUpdateId_foldl]
    exact hlive
  have hrun := Runs.exec_append_ok (run_buffering pr [] (d :: rest.take i))
    (Runs.exec_cons_ok hsnapshot (run_follows pr hfollows))
  rw [← List.foldl_append, List.cons_append, List.take_append_drop] at hrun
  have hlen : (d :: rest.take i).length + ((rest.drop i).length + 1) = (d :: rest).length + 1 := by
    simp only [List.length_cons, List.length_take, List.length_drop]
    omega
  rw [← List.replicate_succ, List.replicate_append_replicate, hlen] at hrun
  exact hrun

theorem run_deliver_zero (pr : Profile) (hfirst : d.Starts (S.lastUpdateId.toNat + 1))
    (hrest : Follows d.finalUpdateId rest) :
    new.run pr (deliver S (d :: rest) 0) =
      .ok (List.replicate ((d :: rest).length + 1) (.ok ()),
        ⟨.synced ((d :: rest).foldl MarketBook.applyDiff (MarketBook.new.applySnapshot S))⟩) := by
  have hfollows : Follows (MarketBook.new.applySnapshot S).lastUpdateId (d :: rest) :=
    ⟨hfirst, hrest⟩
  exact Runs.exec_cons_ok rfl (run_follows pr hfollows)

theorem starts_of_run_deliver_zero {pr : Profile} {outs : List (Except ReconcileError Unit)}
    {r : Reconciler} (hfit : S.lastUpdateId.toNat + 1 < 2 ^ 64)
    (hrun : new.run pr (deliver S (d :: rest) 0) = .ok (outs, r))
    (hok : ∀ out ∈ outs, out = .ok ()) : d.Starts (S.lastUpdateId.toNat + 1) := by
  obtain ⟨out, r₁, outs₁, hS, hrun₁, rfl⟩ := Runs.exec_cons_eq_ok hrun
  obtain ⟨-, rfl⟩ := Prod.mk.inj (Except.ok.inj hS)
  obtain ⟨out₂, r₂, outs₂, hd, -, rfl⟩ := Runs.exec_cons_eq_ok hrun₁
  obtain rfl : out₂ = .ok () := hok out₂ (by simp)
  by_contra hstarts
  have hgap := (onDiff_synced pr (b := MarketBook.new.applySnapshot S) hfit d).trans (if_neg hstarts)
  rw [onMessage, hgap] at hd
  obtain ⟨herr, -⟩ := Prod.mk.inj (Except.ok.inj hd)
  simp at herr

/-- Contiguous diffs, the first of which straddles the snapshot, end up on top of it wherever it
arrives, but before a first diff that overlaps it. -/
theorem resynced_iff (hfit : S.lastUpdateId.toNat + 1 < 2 ^ 64)
    (hrange : ∀ x ∈ d :: rest, x.firstUpdateId ≤ x.finalUpdateId)
    (hrest : Follows d.finalUpdateId rest) (hstraddle : d.Straddles (S.lastUpdateId.toNat + 1))
    (i : Nat) :
    Resynced S (d :: rest) i ↔ i ≠ 0 ∨ d.firstUpdateId.toNat = S.lastUpdateId.toNat + 1 := by
  have hlast : ∀ dn ∈ (d :: rest).getLast?, ((d :: rest).foldl MarketBook.applyDiff
      (MarketBook.new.applySnapshot S)).lastUpdateId = dn.finalUpdateId := by
    rw [MarketBook.lastUpdateId_foldl]
    exact getLast?_lastId (d :: rest)
  cases i with
  | succ i =>
    refine ⟨fun _ => .inl (Nat.succ_ne_zero i), fun _ => ⟨?_, hlast⟩⟩
    intro pr
    apply run_deliver_succ pr hstraddle hrest
    intro x hx
    exact hrange x (List.mem_cons_of_mem _ hx)
  | zero =>
    constructor
    · intro h
      right
      apply starts_of_run_deliver_zero hfit (h.run_eq .debug)
      intro out hout
      exact List.eq_of_mem_replicate hout
    · rintro (h | hfirst)
      · exact absurd rfl h
      · exact ⟨fun pr => run_deliver_zero pr hfirst hrest, hlast⟩

/-! ## The diffs of one snapshot -/

def snapshotAt100 : Snapshot :=
  { lastUpdateId := 100, bids := [(⟨100⟩, ⟨1⟩)], asks := [(⟨101⟩, ⟨2⟩)] }

def diff95to102 : DepthUpdate :=
  { firstUpdateId := 95, finalUpdateId := 102, bids := [], asks := [(⟨101⟩, ⟨0⟩)] }

def diff103to105 : DepthUpdate :=
  { firstUpdateId := 103, finalUpdateId := 105, bids := [(⟨99⟩, ⟨4⟩)], asks := [] }

theorem resynced_iff_snapshotAt100 :
    Resynced snapshotAt100 [diff95to102, diff103to105] 1 ∧
      ¬ Resynced snapshotAt100 [diff95to102, diff103to105] 0 := by
  have hfit : snapshotAt100.lastUpdateId.toNat + 1 < 2 ^ 64 := by decide
  have hrange : ∀ x ∈ [diff95to102, diff103to105], x.firstUpdateId ≤ x.finalUpdateId := by decide
  have hrest : Follows diff95to102.finalUpdateId [diff103to105] := ⟨rfl, trivial⟩
  have hstraddle : diff95to102.Straddles (snapshotAt100.lastUpdateId.toNat + 1) :=
    ⟨by decide, by decide⟩
  refine ⟨(resynced_iff hfit hrange hrest hstraddle 1).mpr (.inl one_ne_zero), ?_⟩
  rw [resynced_iff hfit hrange hrest hstraddle 0]
  decide

/-- The snapshot first: the diff that it overlaps counts as a gap, and the book is lost. -/
theorem overlap_refused :
    diff95to102.Straddles (snapshotAt100.lastUpdateId.toNat + 1) ∧
    Except.map (fun x => (x.1, x.2.book.map MarketBook.lastUpdateId))
        (new.run .debug (deliver snapshotAt100 [diff95to102] 0)) =
      .ok ([.ok (), .error (.gapDetected 101 95)], none) ∧
    Except.map (fun x => (x.1, x.2.book.map MarketBook.lastUpdateId))
        (new.run .debug (deliver snapshotAt100 [diff95to102] 1)) =
      .ok ([.ok (), .ok ()], some 102) ∧
    ¬ Resynced snapshotAt100 [diff95to102] 0 := by
  refine ⟨⟨by decide, by decide⟩, by decide +kernel, by decide +kernel, ?_⟩
  intro h
  have hrun := congrArg (Except.map fun x => x.2.book.isSome) (h.run_eq .debug)
  revert hrun
  decide +kernel

end Reconciler

end Ordust
