import Ordust.Resync

/-!
# The ids that the reconciler goes through

Each call of the reconciler adds one to some ids and takes some diffs into a book. The additions
are exact unless the book, or the copy that the buffer is played on, is at the last id of `u64`.
-/

namespace Ordust

namespace Reconciler

/-! ## What a call adds and takes in -/

/-- In the loop over the buffer the turn comes to the diff `d` when the copy is the book `b`. -/
def LoopReaches (pr : Profile) (queue : List DepthUpdate) (S : Snapshot) (b : MarketBook)
    (d : DepthUpdate) : Prop :=
  ∃ seq idx chained later, pr.add S.lastUpdateId 1 = .ok seq ∧
    queue.findIdx? (fun d => d.firstUpdateId ≤ seq ∧ seq ≤ d.finalUpdateId) = some idx ∧
    queue.drop idx = chained ++ d :: later ∧
    bridge pr (MarketBook.new.applySnapshot S) chained = .ok (.ok b)

/-- The call computes `id + 1`. -/
inductive Adds (pr : Profile) : Reconciler → Message → UInt64 → Prop
  | live (b : MarketBook) (d : DepthUpdate) : Adds pr ⟨.synced b⟩ (.diff d) b.lastUpdateId
  | straddle {queue : List DepthUpdate} (S : Snapshot) (hqueue : queue ≠ []) :
      Adds pr ⟨.buffering queue⟩ (.snapshot S) S.lastUpdateId
  | chain {queue : List DepthUpdate} {S : Snapshot} {b : MarketBook} {d : DepthUpdate}
      (h : LoopReaches pr queue S b d) : Adds pr ⟨.buffering queue⟩ (.snapshot S) b.lastUpdateId

/-- The call applies the diff `d` to the book `b`, or to a copy that it may yet drop. -/
inductive Applies (pr : Profile) : Reconciler → Message → MarketBook → DepthUpdate → Prop
  | live {b : MarketBook} {d : DepthUpdate}
      (h : onDiff pr ⟨.synced b⟩ d = .ok (.ok (), ⟨.synced (b.applyDiff d)⟩)) :
      Applies pr ⟨.synced b⟩ (.diff d) b d
  | bridged {queue : List DepthUpdate} {S : Snapshot} {b : MarketBook} {d : DepthUpdate}
      (h : LoopReaches pr queue S b d) (hd : bridge pr b [d] = .ok (.ok (b.applyDiff d))) :
      Applies pr ⟨.buffering queue⟩ (.snapshot S) b d

/-- What the state asks of a diff that is linked to the event `next`. -/
def Links (r : Reconciler) (d : DepthUpdate) (next : Nat) : Prop :=
  match r.state with
  | .buffering _ => d.Straddles next
  | .synced _ => d.Starts next

/-- The call returns, its additions are those of the numbers, and each diff that it takes in is
linked to the true successor of the id before. -/
structure Exact (pr : Profile) (r : Reconciler) (m : Message) : Prop where
  returns : ∃ x, r.onMessage pr m = .ok x
  fits : ∀ id, Adds pr r m id → id.toNat + 1 < 2 ^ 64
  links : ∀ b d, Applies pr r m b d → r.Links d (b.lastUpdateId.toNat + 1)

/-! ## Room for the next id -/

variable {pr : Profile} {id : UInt64} {d : DepthUpdate} {ds later : List DepthUpdate}
  {b b' : MarketBook}

theorem bridge_chained (hroom : RoomInChain b.lastUpdateId (ds ++ d :: later))
    (h : bridge pr b ds = .ok (.ok b')) :
    Bridges b.lastUpdateId ds ∧ b' = ds.foldl MarketBook.applyDiff b := by
  induction ds generalizing b with
  | nil =>
    obtain rfl : b = b' := Except.ok.inj (Except.ok.inj h)
    exact ⟨trivial, rfl⟩
  | cons x ds ih =>
    obtain ⟨hid, htail⟩ := atReached_cons.mp hroom
    have hfit : b.lastUpdateId.toNat + 1 < 2 ^ 64 := by omega
    rw [bridge_cons pr hfit] at h
    by_cases hx : x.Straddles (b.lastUpdateId.toNat + 1)
    · rw [if_pos hx] at h
      obtain ⟨hds, heq⟩ := ih (b := b.applyDiff x) (htail hx) h
      exact ⟨⟨hx, hds⟩, heq⟩
    · rw [if_neg hx] at h
      simp at h

theorem bridge_returns (pr : Profile) (hroom : RoomInChain b.lastUpdateId ds) :
    ∃ out, bridge pr b ds = .ok out := by
  by_cases hbridges : Bridges b.lastUpdateId ds
  · exact ⟨_, bridge_bridges pr hbridges⟩
  · obtain ⟨err, herr⟩ := bridge_refused hroom hbridges
    exact ⟨_, herr pr⟩

theorem fits_of_bridge {out : Except ReconcileError MarketBook}
    (h : bridge .debug b (d :: ds) = .ok out) : b.lastUpdateId.toNat + 1 < 2 ^ 64 := by
  obtain ⟨expected, hadd, -⟩ := Checked.bind_eq_ok.mp h
  exact Profile.fits_of_add_one hadd

theorem bridge_append (h : bridge pr b ds = .ok (.ok b')) (ds' : List DepthUpdate) :
    bridge pr b (ds ++ ds') = bridge pr b' ds' := by
  induction ds generalizing b with
  | nil =>
    obtain rfl : b = b' := Except.ok.inj (Except.ok.inj h)
    rfl
  | cons d ds ih =>
    obtain ⟨expected, hadd, hturn⟩ := Checked.bind_eq_ok.mp h
    rw [List.cons_append, bridge, hadd, Checked.ok_bind]
    by_cases htest : d.firstUpdateId ≤ expected ∧ expected ≤ d.finalUpdateId
    · rw [if_pos htest] at hturn ⊢
      exact ih hturn
    · rw [if_neg htest] at hturn
      simp at hturn

/-! ## Exact calls -/

variable {r : Reconciler} {m : Message} {queue : List DepthUpdate} {S : Snapshot}

theorem loopReaches_of_bridges {chained : List DepthUpdate} (hfit : S.lastUpdateId.toNat + 1 < 2 ^ 64)
    (hused : fromStraddle (S.lastUpdateId.toNat + 1) queue = chained ++ d :: later)
    (hbridges : Bridges S.lastUpdateId chained) :
    LoopReaches pr queue S (chained.foldl MarketBook.applyDiff (MarketBook.new.applySnapshot S))
      d := by
  rcases findIdx?_straddle hfit queue with ⟨-, hnil⟩ | ⟨idx, hidx, hdrop, -⟩
  · rw [hused] at hnil
    simp at hnil
  · rw [hused] at hdrop
    exact ⟨_, idx, chained, later, pr.add_one_ok hfit, hidx, hdrop.symm,
      bridge_bridges pr (b := MarketBook.new.applySnapshot S) hbridges⟩

theorem LoopReaches.room (hfit : S.lastUpdateId.toNat < 2 ^ 64 - 1)
    (hroom : RoomInChain S.lastUpdateId (fromStraddle (S.lastUpdateId.toNat + 1) queue))
    (h : LoopReaches pr queue S b d) : b.lastUpdateId.toNat < 2 ^ 64 - 1 := by
  obtain ⟨seq, idx, chained, later, hseq, hidx, hdrop, hbridge⟩ := h
  have hfit' : S.lastUpdateId.toNat + 1 < 2 ^ 64 := by omega
  rw [pr.add_one_ok hfit'] at hseq
  obtain rfl : S.lastUpdateId + 1 = seq := Except.ok.inj hseq
  rcases findIdx?_straddle hfit' queue with ⟨hnone, -⟩ | ⟨idx', hsome, hused, -⟩
  · rw [hnone] at hidx
    simp at hidx
  · rw [hidx] at hsome
    obtain rfl : idx = idx' := Option.some.inj hsome
    rw [hused, hdrop] at hroom
    obtain ⟨hbridges, rfl⟩ :=
      bridge_chained (b := MarketBook.new.applySnapshot S) hroom hbridge
    rw [MarketBook.lastUpdateId_foldl]
    exact hroom chained d later rfl hbridges

theorem adds_fit (hr : r.RoomFor m) (h : Adds pr r m id) : id.toNat + 1 < 2 ^ 64 := by
  cases h with
  | live b d =>
    have hb : b.lastUpdateId.toNat < 2 ^ 64 - 1 := hr
    omega
  | straddle S hqueue =>
    obtain ⟨hS, -⟩ := hr hqueue
    omega
  | @chain queue S b d hloop =>
    have hqueue : queue ≠ [] := by
      obtain ⟨_, _, _, _, _, hidx, _⟩ := hloop
      rintro rfl
      simp at hidx
    obtain ⟨hS, hroom⟩ := hr hqueue
    have hb := hloop.room hS hroom
    omega

theorem fits_of_returns {x : Except ReconcileError Unit × Reconciler}
    (h : r.onMessage .debug m = .ok x) (hadds : Adds .debug r m id) : id.toNat + 1 < 2 ^ 64 := by
  cases hadds with
  | live b d =>
    obtain ⟨expected, hadd, -⟩ := Checked.bind_eq_ok.mp h
    exact Profile.fits_of_add_one hadd
  | straddle S hqueue =>
    simp only [onMessage, onSnapshot, List.isEmpty_iff, if_neg hqueue] at h
    obtain ⟨seq, hadd, -⟩ := Checked.bind_eq_ok.mp h
    exact Profile.fits_of_add_one hadd
  | @chain queue S b d hloop =>
    obtain ⟨seq, idx, chained, later, hseq, hidx, hdrop, hbridge⟩ := hloop
    have hqueue : queue ≠ [] := by
      rintro rfl
      simp at hidx
    have hseq' : Profile.debug.add (MarketBook.new.applySnapshot S).lastUpdateId 1 = .ok seq := hseq
    simp only [onMessage, onSnapshot, List.isEmpty_iff, if_neg hqueue, hseq', Checked.ok_bind,
      hidx, hdrop, bridge_append hbridge] at h
    obtain ⟨out, hrest, -⟩ := Checked.bind_eq_ok.mp h
    exact fits_of_bridge hrest

theorem roomFor_of_fits (h : ∀ id, Adds pr r m id → id.toNat + 1 < 2 ^ 64) : r.RoomFor m := by
  obtain ⟨state⟩ := r
  cases state with
  | synced b =>
    cases m with
    | snapshot S => trivial
    | diff d =>
      have hb := h _ (.live b d)
      show b.lastUpdateId.toNat < 2 ^ 64 - 1
      omega
  | buffering queue =>
    cases m with
    | diff d => trivial
    | snapshot S =>
      intro hqueue
      have hS := h _ (.straddle S hqueue)
      refine ⟨by omega, ?_⟩
      intro chained d later hused hbridges
      have hd := h _ (.chain (loopReaches_of_bridges hS hused hbridges))
      rw [MarketBook.lastUpdateId_foldl] at hd
      have hd' : (lastId S.lastUpdateId chained).toNat + 1 < 2 ^ 64 := hd
      omega

theorem links_of_applies (hr : r.RoomFor m) (h : Applies pr r m b d) :
    r.Links d (b.lastUpdateId.toNat + 1) := by
  cases h with
  | live hd =>
    have hb : b.lastUpdateId.toNat < 2 ^ 64 - 1 := hr
    have hfit : b.lastUpdateId.toNat + 1 < 2 ^ 64 := by omega
    rw [onDiff_synced pr hfit] at hd
    by_contra hstarts
    have hstarts' : ¬ d.Starts (b.lastUpdateId.toNat + 1) := hstarts
    rw [if_neg hstarts'] at hd
    simp at hd
  | bridged hloop hd =>
    have hfit : b.lastUpdateId.toNat + 1 < 2 ^ 64 := adds_fit hr (.chain hloop)
    rw [bridge_cons pr hfit] at hd
    by_contra hstraddles
    have hstraddles' : ¬ d.Straddles (b.lastUpdateId.toNat + 1) := hstraddles
    rw [if_neg hstraddles'] at hd
    simp at hd

theorem onMessage_returns (pr : Profile) (hr : r.RoomFor m) : ∃ x, r.onMessage pr m = .ok x := by
  obtain ⟨out, r', hcall, -⟩ := step_of_roomFor hr
  exact ⟨_, hcall pr⟩

/-- The additions are those that a debug build checks: it returns if and only if they all fit. -/
theorem debug_returns_iff :
    (∃ x, r.onMessage .debug m = .ok x) ↔ ∀ id, Adds .debug r m id → id.toNat + 1 < 2 ^ 64 := by
  constructor
  · rintro ⟨x, hx⟩ id hadds
    exact fits_of_returns hx hadds
  · intro h
    exact onMessage_returns .debug (roomFor_of_fits h)

theorem exact_iff_roomFor : r.Exact pr m ↔ r.RoomFor m := by
  constructor
  · intro h
    exact roomFor_of_fits h.fits
  · intro hr
    exact {
      returns := onMessage_returns pr hr
      fits := fun _ => adds_fit hr
      links := fun _ _ => links_of_applies hr }

/-! ## Runs -/

/-- At each message that the run comes to, the state before it is as asked. -/
def AlongRun (pr : Profile) (messages : List Message) (P : Reconciler → Message → Prop) : Prop :=
  ∀ done m outs r, done ++ [m] <+: messages → new.run pr done = .ok (outs, r) → P r m

/-! ## Entry and use of the last id -/

/-- Messages that stand next to each other, of which one brings the last id of `u64` and another
makes the reconciler add one to it: a snapshot and a diff in either order, and a diff with a further
one behind it or behind the snapshot after it. -/
inductive EntryAndUse : List Message → Prop
  | snapshotDiff (S : Snapshot) (d : DepthUpdate) (h : ¬ (Message.snapshot S).BelowMax) :
      EntryAndUse [.snapshot S, .diff d]
  | diffSnapshot (d : DepthUpdate) (S : Snapshot) (h : ¬ (Message.snapshot S).BelowMax) :
      EntryAndUse [.diff d, .snapshot S]
  | diffDiff (d d' : DepthUpdate) (h : ¬ (Message.diff d).BelowMax) :
      EntryAndUse [.diff d, .diff d']
  | bridgedDiff (d : DepthUpdate) (S : Snapshot) (d' : DepthUpdate)
      (h : ¬ (Message.diff d).BelowMax) : EntryAndUse [.diff d, .snapshot S, .diff d']

/-- Nowhere in the messages is the last id of `u64` brought and used. -/
def Unused (messages : List Message) : Prop := ∀ w, EntryAndUse w → ¬ w <:+: messages

theorem Unused.of_prefix {done messages : List Message} (h : Unused messages)
    (hdone : done <+: messages) : Unused done :=
  fun w hw hpart => h w hw (hpart.trans hdone.isInfix)

theorem Unused.not_suffix {done w : List Message} (h : Unused (done ++ [m])) (hw : w <:+ done) :
    ¬ EntryAndUse (w ++ [m]) := by
  intro huse
  obtain ⟨before, rfl⟩ := hw
  exact h _ huse ⟨before, [], by simp⟩

/-- After these messages, where the last id of `u64` can be: in a book, which the next diff would
use, and in the youngest diff of a buffer. -/
def LastIdAtEnd (done : List Message) (r : Reconciler) : Prop :=
  match r.state with
  | .buffering queue => (∀ d ∈ queue.dropLast, (Message.diff d).BelowMax) ∧
      ∀ d ∈ queue.getLast?, [.diff d] <:+ done
  | .synced b => b.lastUpdateId.toNat < 2 ^ 64 - 1 ∨
      ∃ w, w <:+ done ∧ ∀ d, EntryAndUse (w ++ [.diff d])

theorem lastIdAtEnd_new (done : List Message) : LastIdAtEnd done new := by
  constructor <;> simp

theorem mem_dropLast_of_append {xs ys : List DepthUpdate} {x : DepthUpdate} (hx : x ∈ xs)
    (hys : ys ≠ []) : x ∈ (xs ++ ys).dropLast := by
  rw [List.dropLast_append_of_ne_nil hys]
  exact List.mem_append_left _ hx

theorem LastIdAtEnd.roomFor {done : List Message} (h : LastIdAtEnd done r)
    (hunused : Unused (done ++ [m])) : r.RoomFor m := by
  obtain ⟨state⟩ := r
  cases state with
  | synced b =>
    cases m with
    | snapshot S => trivial
    | diff d =>
      rcases h with hb | ⟨w, hw, huse⟩
      · exact hb
      · exact absurd (huse d) (hunused.not_suffix hw)
  | buffering queue =>
    cases m with
    | diff d => trivial
    | snapshot S =>
      intro hqueue
      obtain ⟨hbelow, hlast⟩ := h
      obtain ⟨queue, d, rfl⟩ := List.eq_nil_or_concat' queue |>.resolve_left hqueue
      have hS : S.lastUpdateId.toNat < 2 ^ 64 - 1 := by
        by_contra hS
        exact hunused.not_suffix (hlast d (by simp)) (.diffSnapshot d S hS)
      refine ⟨hS, ?_⟩
      intro chained d' later hused _
      -- What the chain has behind it is not the youngest diff.
      obtain ⟨skipped, hqueue'⟩ := List.dropWhile_suffix (l := queue ++ [d])
        (fun d => ¬ d.Straddles (S.lastUpdateId.toNat + 1))
      rcases List.eq_nil_or_concat' chained with rfl | ⟨chained, c, rfl⟩
      · exact hS
      · rw [lastId_append]
        apply hbelow c
        rw [← hqueue', show List.dropWhile _ _ = _ from hused, ← List.append_assoc]
        exact mem_dropLast_of_append (by simp) (List.cons_ne_nil d' later)

theorem LastIdAtEnd.step {done : List Message} {r' : Reconciler} {out : Except ReconcileError Unit}
    (h : LastIdAtEnd done r) (hunused : Unused (done ++ [m])) (hstep : Step r m out r') :
    LastIdAtEnd (done ++ [m]) r' := by
  cases hstep with
  | buffered queue d =>
    obtain ⟨hbelow, hlast⟩ := h
    refine ⟨?_, ?_⟩
    · rw [List.dropLast_concat]
      intro d' hd'
      by_contra hmax
      rcases List.eq_nil_or_concat' queue with rfl | ⟨queue, c, rfl⟩
      · simp at hd'
      · rw [List.dropLast_concat] at hbelow
        rcases List.mem_append.mp hd' with hmem | hmem
        · exact hmax (hbelow d' hmem)
        · obtain rfl := List.mem_singleton.mp hmem
          exact hunused.not_suffix (hlast d' (by simp)) (.diffDiff d' d hmax)
    · intro d' hd'
      obtain rfl : d = d' := by simpa using hd'
      exact List.suffix_append _ _
  | @applied b d hs =>
    by_cases hd : (Message.diff d).BelowMax
    · exact Or.inl hd
    · exact Or.inr ⟨[.diff d], List.suffix_append _ _, fun d' => .diffDiff d d' hd⟩
  | @bridged queue S hne hbridges =>
    obtain ⟨-, hlast⟩ := h
    by_cases hlastId : (lastId S.lastUpdateId
        (fromStraddle (S.lastUpdateId.toNat + 1) queue)).toNat < 2 ^ 64 - 1
    · left
      rw [MarketBook.lastUpdateId_foldl]
      exact hlastId
    · right
      rcases List.eq_nil_or_concat' (fromStraddle (S.lastUpdateId.toNat + 1) queue)
        with hnil | ⟨used, d, hused⟩
      · rw [hnil] at hlastId
        exact ⟨[.snapshot S], List.suffix_append _ _, fun d => .snapshotDiff S d hlastId⟩
      · rw [hused, lastId_append] at hlastId
        -- The chain ends with the youngest diff of the buffer.
        obtain ⟨skipped, hqueue⟩ := List.dropWhile_suffix (l := queue)
          (fun d => ¬ d.Straddles (S.lastUpdateId.toNat + 1))
        have hqueue' : queue = skipped ++ used ++ [d] := by
          rw [← hqueue, show List.dropWhile _ _ = _ from hused, List.append_assoc]
        have hd := hlast d (by rw [hqueue']; simp)
        refine ⟨[.diff d, .snapshot S], ?_, fun d' => .bridgedDiff d S d' hlastId⟩
        obtain ⟨before, rfl⟩ := hd
        exact ⟨before, by simp⟩
  | replaced b S =>
    by_cases hS : (Message.snapshot S).BelowMax
    · exact Or.inl hS
    · exact Or.inr ⟨[.snapshot S], List.suffix_append _ _, fun d => .snapshotDiff S d hS⟩
  | refused => exact lastIdAtEnd_new _

theorem lastIdAtEnd_run {done : List Message} {outs : List (Except ReconcileError Unit)}
    (hunused : Unused done) (hrun : new.run pr done = .ok (outs, r)) : LastIdAtEnd done r := by
  refine Runs.exec_keeps (fun done _ r => Unused done → LastIdAtEnd done r) ?_ ?_ hrun hunused
  · exact fun _ => lastIdAtEnd_new []
  · intro done outs r m out r' _ ih hcall hunused
    have h := ih (hunused.of_prefix (List.prefix_append _ _))
    obtain ⟨out', r₁, hcall', hstep⟩ := step_of_roomFor (h.roomFor hunused)
    rw [hcall' pr] at hcall
    obtain ⟨rfl, rfl⟩ := Prod.mk.inj (Except.ok.inj hcall)
    exact h.step hunused hstep

theorem not_exact_of_not_roomFor (done after : List Message)
    {outs : List (Except ReconcileError Unit)} (hrun : new.run pr done = .ok (outs, r))
    (hroom : ¬ r.RoomFor m) : ¬ AlongRun pr (done ++ m :: after) (Exact pr) := by
  intro h
  exact hroom (exact_iff_roomFor.mp (h done m outs r ⟨after, by simp⟩ hrun))

theorem last_of_not_belowMax (hd : ¬ (Message.diff d).BelowMax) :
    d.finalUpdateId.toNat = 2 ^ 64 - 1 ∧ d.Straddles (2 ^ 64 - 1) := by
  have hd' : ¬ d.finalUpdateId.toNat < 2 ^ 64 - 1 := hd
  have hlast := d.finalUpdateId.toNat_lt
  have hfirst := d.firstUpdateId.toNat_lt
  unfold DepthUpdate.Straddles
  omega

def snapshotBeforeLast : Snapshot := { lastUpdateId := 18446744073709551614, bids := [], asks := [] }

/-- A diff about all the ids before the last one. -/
def upToLast : DepthUpdate :=
  { firstUpdateId := 0, finalUpdateId := 18446744073709551614, bids := [], asks := [] }

theorem bridges_upToLast (hd : ¬ (Message.diff d).BelowMax) (hS : (Message.snapshot S).BelowMax) :
    ∃ used, fromStraddle (S.lastUpdateId.toNat + 1) [upToLast, d] = used ++ [d] ∧
      Bridges S.lastUpdateId (used ++ [d]) := by
  obtain ⟨-, hstraddles⟩ := last_of_not_belowMax hd
  have hnext : upToLast.finalUpdateId.toNat + 1 = 2 ^ 64 - 1 := by decide
  by_cases hall : upToLast.Straddles (S.lastUpdateId.toNat + 1)
  · exact ⟨[upToLast], fromStraddle_cons hall _, hall, hnext ▸ hstraddles, trivial⟩
  · have hS' : S.lastUpdateId.toNat < 2 ^ 64 - 1 := hS
    have hfirst : upToLast.firstUpdateId.toNat = 0 := rfl
    unfold DepthUpdate.Straddles at hall
    have heq : S.lastUpdateId.toNat + 1 = 2 ^ 64 - 1 := by omega
    rw [← heq] at hstraddles
    refine ⟨[], ?_, hstraddles, trivial⟩
    rw [fromStraddle_cons_of_not hall, fromStraddle_cons hstraddles]
    rfl

/-- Each way to bring the last id and use it goes wrong in a run whose other messages are below
it. -/
theorem EntryAndUse.overflows {w : List Message} (h : EntryAndUse w) :
    ∃ before after, (∀ m ∈ before ++ after, m.BelowMax) ∧
      ∀ pr, ¬ AlongRun pr (before ++ w ++ after) (Exact pr) := by
  cases h with
  | snapshotDiff S d h =>
    refine ⟨[], [], by simp, fun pr => ?_⟩
    exact not_exact_of_not_roomFor [.snapshot S] [] (r := ⟨.synced _⟩) rfl h
  | diffSnapshot d S h =>
    refine ⟨[], [], by simp, fun pr => ?_⟩
    refine not_exact_of_not_roomFor [.diff d] [] (r := ⟨.buffering [d]⟩) rfl ?_
    exact fun hroom => h (hroom (List.cons_ne_nil d [])).1
  | diffDiff d d' h =>
    -- Both are buffered, and the first one is in the chain of a snapshot.
    refine ⟨[], [.snapshot snapshotBeforeLast], by decide, fun pr => ?_⟩
    refine not_exact_of_not_roomFor [.diff d, .diff d'] [] (r := ⟨.buffering [d, d']⟩) rfl ?_
    intro hroom
    obtain ⟨-, hstraddles⟩ := last_of_not_belowMax h
    have hchain := (hroom (List.cons_ne_nil d [d'])).2 [d] d' []
      (fromStraddle_cons hstraddles [d']) ⟨hstraddles, trivial⟩
    exact h hchain
  | bridgedDiff d S d' h =>
    refine ⟨[.diff upToLast], [], by decide, fun pr => ?_⟩
    have hdiffs : new.run pr [.diff upToLast, .diff d] =
        .ok ([.ok (), .ok ()], ⟨.buffering [upToLast, d]⟩) := rfl
    by_cases hS : (Message.snapshot S).BelowMax
    · obtain ⟨used, hused, hbridges⟩ := bridges_upToLast h hS
      have hne : fromStraddle (S.lastUpdateId.toNat + 1) [upToLast, d] ≠ [] := by
        rw [hused]
        simp
      rw [← hused] at hbridges
      have hsnapshot : onMessage pr ⟨.buffering [upToLast, d]⟩ (.snapshot S) =
          .ok (.ok (), ⟨.synced ((fromStraddle (S.lastUpdateId.toNat + 1) [upToLast, d]).foldl
            MarketBook.applyDiff (MarketBook.new.applySnapshot S))⟩) :=
        onSnapshot_bridges pr hne hbridges
      have hrun : new.run pr [.diff upToLast, .diff d, .snapshot S] =
          .ok ([.ok (), .ok (), .ok ()], _) :=
        Runs.exec_append_ok hdiffs (Runs.exec_cons_ok hsnapshot rfl)
      refine not_exact_of_not_roomFor _ [] hrun ?_
      intro hroom
      have hbook : (MarketBook.lastUpdateId _).toNat < 2 ^ 64 - 1 := hroom
      rw [MarketBook.lastUpdateId_foldl, hused, lastId_append] at hbook
      exact h hbook
    · refine not_exact_of_not_roomFor _ [.diff d'] hdiffs ?_
      exact fun hroom => hS (hroom (List.cons_ne_nil _ _)).1

theorem run_of_exact {messages done : List Message} (h : AlongRun pr messages (Exact pr))
    (hdone : done <+: messages) : ∃ outs r, new.run pr done = .ok (outs, r) := by
  induction done using List.reverseRecOn with
  | nil => exact ⟨[], new, rfl⟩
  | append_singleton done m ih =>
    obtain ⟨outs, r, hrun⟩ := ih ((List.prefix_append _ _).trans hdone)
    obtain ⟨⟨out, r'⟩, hcall⟩ := (h done m outs r hdone hrun).returns
    exact ⟨outs ++ [out], r', Runs.exec_append_ok hrun (Runs.exec_cons_ok hcall rfl)⟩

theorem not_exact_snapshotDiff (before after : List Message)
    (hS : ¬ (Message.snapshot S).BelowMax) :
    ¬ AlongRun pr (before ++ .snapshot S :: .diff d :: after) (Exact pr) := by
  intro h
  obtain ⟨outs, r, hrun⟩ := run_of_exact h (List.prefix_append _ _)
  have hroom := exact_iff_roomFor.mp (h before (.snapshot S) outs r ⟨.diff d :: after, by simp⟩ hrun)
  have hbook : ∃ out b, r.onMessage pr (.snapshot S) = .ok (out, ⟨.synced b⟩) ∧
      b.lastUpdateId = S.lastUpdateId := by
    obtain ⟨state⟩ := r
    cases state with
    | synced b => exact ⟨_, _, rfl, rfl⟩
    | buffering queue =>
      by_cases hqueue : queue = []
      · subst hqueue
        exact ⟨_, _, rfl, rfl⟩
      · exact absurd (hroom hqueue).1 hS
  obtain ⟨out, b, hcall, hid⟩ := hbook
  have hroom' := exact_iff_roomFor.mp (h (before ++ [.snapshot S]) (.diff d) _ _ ⟨after, by simp⟩
    (Runs.exec_append_ok hrun (Runs.exec_cons_ok hcall rfl)))
  have hb : b.lastUpdateId.toNat < 2 ^ 64 - 1 := hroom'
  rw [hid] at hb
  exact hS hb

/-- While nowhere in the messages the last id of `u64` is brought and used, the ids of the run are
exact. Each way to bring and use it goes wrong in some run, and a snapshot before a diff in all. -/
theorem ids_exact_unused (messages : List Message) :
    (Unused messages → ∀ pr, AlongRun pr messages (Exact pr)) ∧
    (EntryAndUse messages → ∃ before after, (∀ m ∈ before ++ after, m.BelowMax) ∧
      ∀ pr, ¬ AlongRun pr (before ++ messages ++ after) (Exact pr)) ∧
    (∀ before S d after, messages = before ++ .snapshot S :: .diff d :: after →
      ¬ (Message.snapshot S).BelowMax → ∀ pr, ¬ AlongRun pr messages (Exact pr)) ∧
    ∀ (r : Reconciler) (m : Message), (∃ x, r.onMessage .debug m = .ok x) ↔
      ∀ id, Adds .debug r m id → id.toNat + 1 < 2 ^ 64 := by
  refine ⟨?_, EntryAndUse.overflows, ?_, fun _ _ => debug_returns_iff⟩
  · intro hunused pr done m outs r hdone hrun
    have hunused' := hunused.of_prefix hdone
    have h := lastIdAtEnd_run (hunused'.of_prefix (List.prefix_append _ _)) hrun
    exact exact_iff_roomFor.mpr (h.roomFor hunused')
  · rintro before S d after rfl hS pr
    exact not_exact_snapshotDiff before after hS

/-- The last id comes in with a diff, and the next message is a snapshot and the end. -/
def lastIdReplaced : List Message :=
  [.snapshot snapshotAt100,
    .diff { firstUpdateId := 101, finalUpdateId := 18446744073709551615, bids := [], asks := [] },
    .snapshot snapshotAt100]

theorem lastIdReplaced_unused : Unused lastIdReplaced := by
  intro w hw hpart
  cases hw with
  | snapshotDiff S d h =>
    obtain ⟨rfl, -⟩ : S = snapshotAt100 ∧ d = _ := by
      simpa [lastIdReplaced, List.infix_cons_iff] using hpart
    exact h (by decide)
  | diffSnapshot d S h =>
    obtain ⟨-, rfl⟩ : d = _ ∧ S = snapshotAt100 := by
      simpa [lastIdReplaced, List.infix_cons_iff] using hpart
    exact h (by decide)
  | diffDiff d d' h => simp [lastIdReplaced, List.infix_cons_iff] at hpart
  | bridgedDiff d S d' h => simp [lastIdReplaced, List.infix_cons_iff] at hpart

theorem ids_exact_unused_lastIdReplaced : ∀ pr, AlongRun pr lastIdReplaced (Exact pr) :=
  (ids_exact_unused lastIdReplaced).1 lastIdReplaced_unused

/-- A feed whose clock has come to its end, and one diff more. -/
def saturatedIds : List Message :=
  [.snapshot { lastUpdateId := 18446744073709551614, bids := [], asks := [] },
    .diff { firstUpdateId := 18446744073709551615, finalUpdateId := 18446744073709551615,
            bids := [], asks := [] },
    .diff { firstUpdateId := 0, finalUpdateId := 5, bids := [], asks := [] }]

/-- The debug build stops, the release build takes the event 0 for the next one. -/
theorem ids_not_exact_saturatedIds :
    Except.map (fun x => x.1) (new.run .debug saturatedIds) = .error .addOverflow ∧
    Except.map (fun x => (x.1, x.2.book.map MarketBook.lastUpdateId))
        (new.run .release saturatedIds) = .ok ([.ok (), .ok (), .ok ()], some 5) ∧
    ∀ pr, ¬ AlongRun pr saturatedIds (Exact pr) := by
  refine ⟨by decide +kernel, by decide +kernel, ?_⟩
  intro pr h
  have hrun : new.run pr (saturatedIds.take 2) = .ok ([.ok (), .ok ()],
      ⟨.synced ((MarketBook.new.applySnapshot ⟨18446744073709551614, [], []⟩).applyDiff
        ⟨18446744073709551615, 18446744073709551615, [], []⟩)⟩) := by
    cases pr <;> rfl
  have hexact := h (saturatedIds.take 2) _ _ _ (List.prefix_refl saturatedIds) hrun
  have hfits := hexact.fits _ (.live _ _)
  revert hfits
  decide +kernel

/-! ## Whether the book moves forward -/

/-- What the call does to the id of the book. A diff of the live path counts where it ends no
earlier than it begins: its end is not looked at there. -/
structure MovesForward (pr : Profile) (r : Reconciler) (m : Message) (r' : Reconciler) : Prop where
  applied : ∀ b d, Applies pr r m b d → r.book = none ∨ d.firstUpdateId ≤ d.finalUpdateId →
    b.lastUpdateId < (b.applyDiff d).lastUpdateId
  diff : ∀ b b' d, m = .diff d → d.firstUpdateId ≤ d.finalUpdateId → r.book = some b →
    r'.book = some b' → b.lastUpdateId < b'.lastUpdateId
  snapshot : ∀ b b' S, m = .snapshot S → r.book = some b → r'.book = some b' →
    b'.lastUpdateId = S.lastUpdateId

theorem lt_of_links (h : r.Links d (b.lastUpdateId.toNat + 1))
    (hd : r.book = none ∨ d.firstUpdateId ≤ d.finalUpdateId) :
    b.lastUpdateId < (b.applyDiff d).lastUpdateId := by
  rw [UInt64.lt_iff_toNat_lt]
  obtain ⟨state⟩ := r
  cases state with
  | buffering queue => exact h.2
  | synced book =>
    have hstarts : d.firstUpdateId.toNat = b.lastUpdateId.toNat + 1 := h
    have hle : d.firstUpdateId.toNat ≤ d.finalUpdateId.toNat := by
      rcases hd with hnone | hle
      · simp [Reconciler.book] at hnone
      · exact UInt64.le_iff_toNat_le.mp hle
    show b.lastUpdateId.toNat < d.finalUpdateId.toNat
    omega

theorem movesForward {r' : Reconciler} {out : Except ReconcileError Unit} (hroom : r.RoomFor m)
    (hstep : Step r m out r') : r.MovesForward pr m r' where
  applied b d h hd := lt_of_links (links_of_applies hroom h) hd
  diff := by
    rintro b b' d rfl hd hb hb'
    cases hstep with
    | buffered queue d => simp [book] at hb
    | @applied book d hs =>
      obtain rfl : book = b := Option.some.inj hb
      obtain rfl : book.applyDiff d = b' := Option.some.inj hb'
      exact lt_of_links (r := ⟨.synced book⟩) hs (.inr hd)
    | refused => simp [book, new] at hb'
  snapshot := by
    rintro b b' S rfl hb hb'
    cases hstep with
    | bridged => simp [book] at hb
    | replaced book S =>
      obtain rfl : MarketBook.new.applySnapshot S = b' := Option.some.inj hb'
      rfl
    | refused => simp [book, new] at hb'

/-- Whatever was before, a diff that is taken in moves the book forward, and a snapshot that finds
a book puts its own id in its place. -/
theorem book_moves_forward (done : List Message) (m : Message)
    (hids : ∀ x ∈ done ++ [m], x.BelowMax) :
    ∃ outs r out r', (∀ pr, new.run pr done = .ok (outs, r)) ∧
      (∀ pr, r.onMessage pr m = .ok (out, r')) ∧ ∀ pr, r.MovesForward pr m r' := by
  obtain ⟨outs, r, hrun, hr⟩ := Runs.exec_invariant InRange Message.BelowMax
    (fun r x hr hx =>
      have ⟨out, r', hx', hr', _⟩ := onMessage_step hr hx
      ⟨out, r', hx', hr'⟩)
    new done inRange_new (fun x hx => hids x (List.mem_append_left _ hx))
  have hm : m.BelowMax := hids m (List.mem_append_right done List.mem_cons_self)
  obtain ⟨out, r', hm', -, hstep⟩ := onMessage_step hr hm
  exact ⟨outs, r, out, r', hrun, hm', fun _ => movesForward (roomFor_of_inRange hr hm) hstep⟩

theorem book_moves_forward_bridged :
    ∃ outs r out r', (∀ pr, new.run pr [.diff diff95to102, .snapshot snapshotAt100] = .ok (outs, r)) ∧
      (∀ pr, r.onMessage pr (.diff diff103to105) = .ok (out, r')) ∧
      (∀ pr, r.MovesForward pr (.diff diff103to105) r') ∧
      r.book.map MarketBook.lastUpdateId = some 102 ∧
      r'.book.map MarketBook.lastUpdateId = some 105 := by
  have hids : ∀ x ∈ [Message.diff diff95to102, .snapshot snapshotAt100] ++ [.diff diff103to105],
      x.BelowMax := by decide
  obtain ⟨outs, r, out, r', hrun, hm, hforward⟩ := book_moves_forward _ _ hids
  have hbefore : Except.map (fun x => x.2.book.map MarketBook.lastUpdateId)
      (new.run .debug [.diff diff95to102, .snapshot snapshotAt100]) = .ok (some 102) := by
    decide +kernel
  have hafter : Except.map (fun x => x.2.book.map MarketBook.lastUpdateId)
      (new.run .debug ([.diff diff95to102, .snapshot snapshotAt100] ++ [.diff diff103to105])) =
        .ok (some 105) := by
    decide +kernel
  rw [hrun] at hbefore
  rw [show new.run .debug (_ ++ _) = _ from
    Runs.exec_append_ok (hrun .debug) (Runs.exec_cons_ok (hm .debug) rfl)] at hafter
  exact ⟨outs, r, out, r', hrun, hm, hforward, Except.ok.inj hbefore, Except.ok.inj hafter⟩

def snapshotAt90 : Snapshot := { lastUpdateId := 90, bids := [], asks := [] }

def diff101to50 : DepthUpdate := { firstUpdateId := 101, finalUpdateId := 50, bids := [], asks := [] }

/-- A snapshot that is late puts the book back, and so does a diff of the live path that ends before
it begins. -/
theorem book_moves_back :
    (∀ m ∈ [Message.snapshot snapshotAt100, .snapshot snapshotAt90, .diff diff101to50],
      m.BelowMax) ∧
    (∀ pr, Except.map (fun x => (x.1, x.2.book.map MarketBook.lastUpdateId))
      (new.run pr [.snapshot snapshotAt100]) = .ok ([.ok ()], some 100)) ∧
    (∀ pr, Except.map (fun x => (x.1, x.2.book.map MarketBook.lastUpdateId))
      (new.run pr [.snapshot snapshotAt100, .snapshot snapshotAt90]) =
        .ok ([.ok (), .ok ()], some 90)) ∧
    ∀ pr, Except.map (fun x => (x.1, x.2.book.map MarketBook.lastUpdateId))
      (new.run pr [.snapshot snapshotAt100, .diff diff101to50]) =
        .ok ([.ok (), .ok ()], some 50) := by
  refine ⟨by decide, ?_, ?_, ?_⟩
  · intro pr
    cases pr <;> decide +kernel
  · intro pr
    cases pr <;> decide +kernel
  · intro pr
    cases pr <;> decide +kernel

end Reconciler

end Ordust
