import Ordust.Code.Reconciler

/-!
# What a call to the reconciler can do

Chains of diffs, the calls on diffs that fit, and then the outcomes of any call for which the ids
leave room for the next one.
-/

namespace Ordust

/-! ## Chains of diffs -/

/-- The diff begins with the event `next`. -/
def DepthUpdate.Starts (d : DepthUpdate) (next : Nat) : Prop := d.firstUpdateId.toNat = next

/-- The event `next` is one of the diff's. -/
def DepthUpdate.Straddles (d : DepthUpdate) (next : Nat) : Prop :=
  d.firstUpdateId.toNat ≤ next ∧ next ≤ d.finalUpdateId.toNat

/-- Each diff is linked to the event after the last one of the diff before it. -/
def Chained (link : DepthUpdate → Nat → Prop) (id : UInt64) : List DepthUpdate → Prop
  | [] => True
  | d :: ds => link d (id.toNat + 1) ∧ Chained link d.finalUpdateId ds

/-- The rule of the live path: no overlap and no gap. -/
abbrev Follows := Chained DepthUpdate.Starts

/-- The rule of the buffered path: no gap. -/
abbrev Bridges := Chained DepthUpdate.Straddles

instance (d : DepthUpdate) (next : Nat) : Decidable (d.Starts next) :=
  inferInstanceAs (Decidable (_ = _))

instance (d : DepthUpdate) (next : Nat) : Decidable (d.Straddles next) :=
  inferInstanceAs (Decidable (_ ∧ _))

/-- What is left from the first diff on that straddles the event `next`. -/
def fromStraddle (next : Nat) (queue : List DepthUpdate) : List DepthUpdate :=
  queue.dropWhile (fun d => ¬ d.Straddles next)

/-- The last event that a chain leads to. -/
def lastId (id : UInt64) : List DepthUpdate → UInt64
  | [] => id
  | d :: ds => lastId d.finalUpdateId ds

variable {link : DepthUpdate → Nat → Prop} {id : UInt64}

theorem chained_append {ds ds' : List DepthUpdate} :
    Chained link id (ds ++ ds') ↔ Chained link id ds ∧ Chained link (lastId id ds) ds' := by
  induction ds generalizing id with
  | nil => simp [Chained, lastId]
  | cons d ds ih =>
    rw [List.cons_append, Chained, Chained, ih, and_assoc]
    rfl

theorem lastId_append (ds ds' : List DepthUpdate) :
    lastId id (ds ++ ds') = lastId (lastId id ds) ds' := by
  induction ds generalizing id with
  | nil => rfl
  | cons d ds ih => exact ih

theorem getLast?_lastId (ds : List DepthUpdate) :
    ∀ dn ∈ ds.getLast?, lastId id ds = dn.finalUpdateId := by
  intro dn hdn
  obtain ⟨init, rfl⟩ := List.getLast?_eq_some_iff.mp hdn
  rw [lastId_append]
  rfl

theorem MarketBook.lastUpdateId_foldl (b : MarketBook) (ds : List DepthUpdate) :
    (ds.foldl applyDiff b).lastUpdateId = lastId b.lastUpdateId ds := by
  induction ds generalizing b with
  | nil => rfl
  | cons d ds ih => exact ih (b.applyDiff d)

theorem Follows.bridges {ds : List DepthUpdate} (h : Follows id ds)
    (hrange : ∀ d ∈ ds, d.firstUpdateId ≤ d.finalUpdateId) : Bridges id ds := by
  induction ds generalizing id with
  | nil => trivial
  | cons d ds ih =>
    obtain ⟨hd, hds⟩ := h
    have hle := UInt64.le_iff_toNat_le.mp (hrange d List.mem_cons_self)
    unfold DepthUpdate.Starts at hd
    refine ⟨⟨by omega, by omega⟩, ?_⟩
    apply ih hds
    intro d' hd'
    exact hrange d' (List.mem_cons_of_mem _ hd')

theorem fromStraddle_cons {d : DepthUpdate} {next : Nat} (h : d.Straddles next)
    (ds : List DepthUpdate) : fromStraddle next (d :: ds) = d :: ds := by
  rw [fromStraddle, List.dropWhile_cons_of_neg]
  simp [h]

theorem fromStraddle_cons_of_not {d : DepthUpdate} {next : Nat} (h : ¬ d.Straddles next)
    (ds : List DepthUpdate) : fromStraddle next (d :: ds) = fromStraddle next ds := by
  rw [fromStraddle, List.dropWhile_cons_of_pos]
  · rfl
  · simp [h]

theorem DepthUpdate.Straddles.fits {d : DepthUpdate} (h : d.Straddles (id.toNat + 1)) :
    id.toNat + 1 < 2 ^ 64 :=
  lt_of_le_of_lt h.2 d.finalUpdateId.toNat_lt

/-- The id that a book takes over is not the largest of `u64`. -/
def Message.BelowMax : Message → Prop
  | .diff d => d.finalUpdateId.toNat < 2 ^ 64 - 1
  | .snapshot S => S.lastUpdateId.toNat < 2 ^ 64 - 1

instance : DecidablePred Message.BelowMax
  | .diff _ => inferInstanceAs (Decidable (_ < _))
  | .snapshot _ => inferInstanceAs (Decidable (_ < _))

/-! ## The calls on diffs that fit -/

namespace Reconciler

theorem starts_iff {d : DepthUpdate} (hfit : id.toNat + 1 < 2 ^ 64) :
    d.Starts (id.toNat + 1) ↔ d.firstUpdateId = id + 1 := by
  rw [← UInt64.toNat_inj, UInt64.toNat_add_one hfit]
  rfl

theorem straddles_iff {d : DepthUpdate} (hfit : id.toNat + 1 < 2 ^ 64) :
    d.Straddles (id.toNat + 1) ↔ d.firstUpdateId ≤ id + 1 ∧ id + 1 ≤ d.finalUpdateId := by
  rw [UInt64.le_iff_toNat_le, UInt64.le_iff_toNat_le, UInt64.toNat_add_one hfit]
  rfl

theorem onDiff_synced (pr : Profile) {b : MarketBook} (hfit : b.lastUpdateId.toNat + 1 < 2 ^ 64)
    (d : DepthUpdate) :
    onDiff pr ⟨.synced b⟩ d =
      if d.Starts (b.lastUpdateId.toNat + 1) then .ok (.ok (), ⟨.synced (b.applyDiff d)⟩)
      else .ok (.error (.gapDetected (b.lastUpdateId + 1) d.firstUpdateId), new) := by
  simp only [onDiff, pr.add_one_ok hfit, Checked.ok_bind, starts_iff hfit]
  rfl

theorem onDiff_starts (pr : Profile) {b : MarketBook} {d : DepthUpdate}
    (h : d.Starts (b.lastUpdateId.toNat + 1)) :
    onDiff pr ⟨.synced b⟩ d = .ok (.ok (), ⟨.synced (b.applyDiff d)⟩) := by
  have hfit : b.lastUpdateId.toNat + 1 < 2 ^ 64 := by
    rw [← h]
    exact d.firstUpdateId.toNat_lt
  rw [onDiff_synced pr hfit, if_pos h]

theorem bridge_cons (pr : Profile) {b : MarketBook} (hfit : b.lastUpdateId.toNat + 1 < 2 ^ 64)
    (d : DepthUpdate) (ds : List DepthUpdate) :
    bridge pr b (d :: ds) =
      if d.Straddles (b.lastUpdateId.toNat + 1) then bridge pr (b.applyDiff d) ds
      else .ok (.error (.gapDetected (b.lastUpdateId + 1) d.firstUpdateId)) := by
  simp only [bridge, pr.add_one_ok hfit, Checked.ok_bind, straddles_iff hfit]
  rfl

theorem bridge_bridges (pr : Profile) {b : MarketBook} {ds : List DepthUpdate}
    (h : Bridges b.lastUpdateId ds) :
    bridge pr b ds = .ok (.ok (ds.foldl MarketBook.applyDiff b)) := by
  induction ds generalizing b with
  | nil => rfl
  | cons d ds ih =>
    obtain ⟨hd, hds⟩ := h
    rw [bridge_cons pr hd.fits, if_pos hd]
    exact ih hds

/-- The index that the code looks for starts the rest of the buffer that it uses. -/
theorem findIdx?_straddle (hfit : id.toNat + 1 < 2 ^ 64) (queue : List DepthUpdate) :
    (queue.findIdx? (fun d => d.firstUpdateId ≤ id + 1 ∧ id + 1 ≤ d.finalUpdateId) = none ∧
      fromStraddle (id.toNat + 1) queue = []) ∨
    ∃ idx, queue.findIdx? (fun d => d.firstUpdateId ≤ id + 1 ∧ id + 1 ≤ d.finalUpdateId) = some idx ∧
      fromStraddle (id.toNat + 1) queue = queue.drop idx ∧ fromStraddle (id.toNat + 1) queue ≠ [] := by
  induction queue with
  | nil => exact Or.inl ⟨rfl, rfl⟩
  | cons d queue ih =>
    rw [List.findIdx?_cons]
    by_cases hd : d.Straddles (id.toNat + 1)
    · rw [if_pos (decide_eq_true ((straddles_iff hfit).mp hd)), fromStraddle_cons hd]
      exact Or.inr ⟨0, rfl, rfl, List.cons_ne_nil d queue⟩
    · rw [if_neg (by rwa [decide_eq_true_eq, ← straddles_iff hfit]), fromStraddle_cons_of_not hd]
      rcases ih with ⟨hnone, hnil⟩ | ⟨idx, hsome, hdrop, hne⟩
      · rw [hnone]
        exact Or.inl ⟨rfl, hnil⟩
      · rw [hsome]
        exact Or.inr ⟨idx + 1, rfl, hdrop, hne⟩

theorem onSnapshot_buffering (pr : Profile) {S : Snapshot} {queue : List DepthUpdate}
    (hfit : S.lastUpdateId.toNat + 1 < 2 ^ 64) (hqueue : queue ≠ []) :
    onSnapshot pr ⟨.buffering queue⟩ S =
      if fromStraddle (S.lastUpdateId.toNat + 1) queue = [] then .ok (.error .snapshotTooOld, new)
      else do
        match ← bridge pr (MarketBook.new.applySnapshot S)
            (fromStraddle (S.lastUpdateId.toNat + 1) queue) with
        | .ok marketbook => return (.ok (), ⟨.synced marketbook⟩)
        | .error err => return (.error err, new) := by
  have hadd : pr.add (MarketBook.new.applySnapshot S).lastUpdateId 1 = .ok (S.lastUpdateId + 1) :=
    pr.add_one_ok hfit
  simp only [onSnapshot, List.isEmpty_iff, if_neg hqueue, hadd, Checked.ok_bind]
  rcases findIdx?_straddle hfit queue with ⟨hnone, hnil⟩ | ⟨idx, hsome, hdrop, hne⟩
  · simp only [hnone]
    exact (if_pos hnil).symm
  · simp only [hsome]
    rw [if_neg hne, hdrop]
    rfl

theorem onSnapshot_tooOld (pr : Profile) {S : Snapshot} {queue : List DepthUpdate}
    (hfit : S.lastUpdateId.toNat + 1 < 2 ^ 64) (hqueue : queue ≠ [])
    (hnil : fromStraddle (S.lastUpdateId.toNat + 1) queue = []) :
    onSnapshot pr ⟨.buffering queue⟩ S = .ok (.error .snapshotTooOld, new) := by
  rw [onSnapshot_buffering pr hfit hqueue, if_pos hnil]

/-- What the call makes of the outcome of the loop. -/
def answer : Except ReconcileError MarketBook → Except ReconcileError Unit × Reconciler
  | .ok marketbook => (.ok (), ⟨.synced marketbook⟩)
  | .error err => (.error err, new)

theorem onSnapshot_used (pr : Profile) {S : Snapshot} {queue : List DepthUpdate}
    (hfit : S.lastUpdateId.toNat + 1 < 2 ^ 64)
    (hne : fromStraddle (S.lastUpdateId.toNat + 1) queue ≠ []) :
    onSnapshot pr ⟨.buffering queue⟩ S =
      (bridge pr (MarketBook.new.applySnapshot S)
        (fromStraddle (S.lastUpdateId.toNat + 1) queue)).map answer := by
  have hqueue : queue ≠ [] := by
    rintro rfl
    exact hne rfl
  rw [onSnapshot_buffering pr hfit hqueue, if_neg hne]
  cases bridge pr (MarketBook.new.applySnapshot S)
      (fromStraddle (S.lastUpdateId.toNat + 1) queue) with
  | error p => rfl
  | ok out =>
    cases out with
    | ok marketbook => rfl
    | error err => rfl

theorem onSnapshot_bridges (pr : Profile) {S : Snapshot} {queue : List DepthUpdate}
    (hne : fromStraddle (S.lastUpdateId.toNat + 1) queue ≠ [])
    (h : Bridges S.lastUpdateId (fromStraddle (S.lastUpdateId.toNat + 1) queue)) :
    onSnapshot pr ⟨.buffering queue⟩ S =
      .ok (.ok (), ⟨.synced ((fromStraddle (S.lastUpdateId.toNat + 1) queue).foldl
        MarketBook.applyDiff (MarketBook.new.applySnapshot S))⟩) := by
  have hfit : S.lastUpdateId.toNat + 1 < 2 ^ 64 := by
    obtain ⟨d, ds, hds⟩ := List.exists_cons_of_ne_nil hne
    rw [hds] at h
    exact h.1.fits
  rw [onSnapshot_used pr hfit hne, bridge_bridges pr (b := MarketBook.new.applySnapshot S) h]
  rfl

/-! ## Room for the next id -/

/-- What holds of the id, the diff and the diffs behind it, whenever a chain comes to a diff. -/
def AtReached (P : UInt64 → DepthUpdate → List DepthUpdate → Prop) (id : UInt64)
    (ds : List DepthUpdate) : Prop :=
  ∀ chained d later, ds = chained ++ d :: later → Bridges id chained → P (lastId id chained) d later

/-- No diff that the chain comes to finds it at the last id of `u64`. -/
abbrev RoomInChain := AtReached (fun id _ _ => id.toNat < 2 ^ 64 - 1)

/-- Neither the book that a diff finds, nor a snapshot that finds a buffer, nor the chain behind it
is at the last id of `u64`. -/
def RoomFor (r : Reconciler) (m : Message) : Prop :=
  match r.state, m with
  | .synced b, .diff _ => b.lastUpdateId.toNat < 2 ^ 64 - 1
  | .buffering queue, .snapshot S => queue ≠ [] → S.lastUpdateId.toNat < 2 ^ 64 - 1 ∧
      RoomInChain S.lastUpdateId (fromStraddle (S.lastUpdateId.toNat + 1) queue)
  | _, _ => True

section AtReached

variable {d : DepthUpdate} {ds : List DepthUpdate}
  {P : UInt64 → DepthUpdate → List DepthUpdate → Prop}

theorem atReached_nil : AtReached P id [] := by
  intro chained d later h
  simp at h

theorem atReached_cons : AtReached P id (d :: ds) ↔
    P id d ds ∧ (d.Straddles (id.toNat + 1) → AtReached P d.finalUpdateId ds) := by
  constructor
  · intro h
    refine ⟨h [] d ds rfl trivial, ?_⟩
    rintro hd chained d' later rfl hbridges
    exact h (d :: chained) d' later rfl ⟨hd, hbridges⟩
  · rintro ⟨hP, htail⟩ chained d' later heq hbridges
    cases chained with
    | nil =>
      obtain ⟨rfl, rfl⟩ := List.cons.inj heq
      exact hP
    | cons c chained =>
      obtain ⟨rfl, rfl⟩ := List.cons.inj heq
      exact htail hbridges.1 chained d' later rfl hbridges.2

instance decidableAtReached [∀ id d later, Decidable (P id d later)] :
    ∀ id ds, Decidable (AtReached P id ds)
  | _, [] => isTrue atReached_nil
  | id, d :: ds =>
    have := decidableAtReached d.finalUpdateId ds
    decidable_of_iff (P id d ds ∧ (d.Straddles (id.toNat + 1) → AtReached P d.finalUpdateId ds))
      atReached_cons.symm

end AtReached

theorem bridge_refused {b : MarketBook} {ds : List DepthUpdate}
    (hroom : RoomInChain b.lastUpdateId ds) (h : ¬ Bridges b.lastUpdateId ds) :
    ∃ err, ∀ pr, bridge pr b ds = .ok (.error err) := by
  induction ds generalizing b with
  | nil => exact absurd trivial h
  | cons d ds ih =>
    obtain ⟨hid, htail⟩ := atReached_cons.mp hroom
    have hfit : b.lastUpdateId.toNat + 1 < 2 ^ 64 := by omega
    simp only [bridge_cons _ hfit]
    by_cases hd : d.Straddles (b.lastUpdateId.toNat + 1)
    · simp only [if_pos hd]
      exact ih (b := b.applyDiff d) (htail hd) (fun hds => h ⟨hd, hds⟩)
    · simp only [if_neg hd]
      exact ⟨_, fun _ => rfl⟩

/-! ## What a call can do -/

inductive Step : Reconciler → Message → Except ReconcileError Unit → Reconciler → Prop
  | buffered (queue : List DepthUpdate) (d : DepthUpdate) :
      Step ⟨.buffering queue⟩ (.diff d) (.ok ()) ⟨.buffering (queue ++ [d])⟩
  | applied {book : MarketBook} {d : DepthUpdate} (h : d.Starts (book.lastUpdateId.toNat + 1)) :
      Step ⟨.synced book⟩ (.diff d) (.ok ()) ⟨.synced (book.applyDiff d)⟩
  | bridged {queue : List DepthUpdate} {S : Snapshot}
      (hne : queue ≠ [] → fromStraddle (S.lastUpdateId.toNat + 1) queue ≠ [])
      (h : Bridges S.lastUpdateId (fromStraddle (S.lastUpdateId.toNat + 1) queue)) :
      Step ⟨.buffering queue⟩ (.snapshot S) (.ok ())
        ⟨.synced ((fromStraddle (S.lastUpdateId.toNat + 1) queue).foldl MarketBook.applyDiff
          (MarketBook.new.applySnapshot S))⟩
  | replaced (book : MarketBook) (S : Snapshot) :
      Step ⟨.synced book⟩ (.snapshot S) (.ok ()) ⟨.synced (MarketBook.new.applySnapshot S)⟩
  | refused (r : Reconciler) (m : Message) (err : ReconcileError) : Step r m (.error err) new

theorem Step.eq_new {r r' : Reconciler} {m : Message} {err : ReconcileError}
    (h : Step r m (.error err) r') : r' = new := by
  cases h with
  | refused => rfl

/-- Where there is room for the next id, both builds do the same. -/
theorem step_of_roomFor {r : Reconciler} {m : Message} (hr : r.RoomFor m) :
    ∃ out r', (∀ pr, r.onMessage pr m = .ok (out, r')) ∧ Step r m out r' := by
  obtain ⟨state⟩ := r
  cases state with
  | synced book =>
    cases m with
    | snapshot S => exact ⟨_, _, fun _ => rfl, .replaced book S⟩
    | diff d =>
      by_cases hs : d.Starts (book.lastUpdateId.toNat + 1)
      · exact ⟨_, _, fun pr => onDiff_starts pr hs, .applied hs⟩
      · have hfit : book.lastUpdateId.toNat + 1 < 2 ^ 64 := by
          have hb : book.lastUpdateId.toNat < 2 ^ 64 - 1 := hr
          omega
        refine ⟨_, _, ?_, .refused _ _ (.gapDetected (book.lastUpdateId + 1) d.firstUpdateId)⟩
        intro pr
        rw [onMessage, onDiff_synced pr hfit, if_neg hs]
  | buffering queue =>
    cases m with
    | diff d => exact ⟨_, _, fun _ => rfl, .buffered queue d⟩
    | snapshot S =>
      by_cases hqueue : queue = []
      · subst hqueue
        exact ⟨_, _, fun _ => rfl, .bridged (absurd rfl) trivial⟩
      · obtain ⟨hS, hroom⟩ := hr hqueue
        have hfit : S.lastUpdateId.toNat + 1 < 2 ^ 64 := by omega
        by_cases hne : fromStraddle (S.lastUpdateId.toNat + 1) queue = []
        · exact ⟨_, _, fun pr => onSnapshot_tooOld pr hfit hqueue hne, .refused _ _ .snapshotTooOld⟩
        · by_cases hbridges : Bridges S.lastUpdateId (fromStraddle (S.lastUpdateId.toNat + 1) queue)
          · exact ⟨_, _, fun pr => onSnapshot_bridges pr hne hbridges, .bridged (fun _ => hne) hbridges⟩
          · obtain ⟨err, herr⟩ :=
              bridge_refused (b := MarketBook.new.applySnapshot S) hroom hbridges
            refine ⟨_, _, ?_, .refused _ _ err⟩
            intro pr
            rw [onMessage, onSnapshot_used pr hfit hne, herr pr]
            rfl

/-! ## Messages below the last id -/

/-- Every id that the state may go on from leaves room for the next one. -/
def InRange (r : Reconciler) : Prop :=
  match r.state with
  | .buffering queue => ∀ d ∈ queue, d.finalUpdateId.toNat < 2 ^ 64 - 1
  | .synced book => book.lastUpdateId.toNat < 2 ^ 64 - 1

theorem inRange_new : InRange new := by
  intro d hd
  simp at hd

theorem inRange_foldl {b : MarketBook} (hb : b.lastUpdateId.toNat < 2 ^ 64 - 1)
    {ds : List DepthUpdate} (hds : ∀ d ∈ ds, d.finalUpdateId.toNat < 2 ^ 64 - 1) :
    InRange ⟨.synced (ds.foldl MarketBook.applyDiff b)⟩ := by
  induction ds generalizing b with
  | nil => exact hb
  | cons d ds ih =>
    apply ih (hds d List.mem_cons_self)
    intro d' hd'
    exact hds d' (List.mem_cons_of_mem _ hd')

theorem roomFor_of_inRange {r : Reconciler} {m : Message} (hr : r.InRange) (hm : m.BelowMax) :
    r.RoomFor m := by
  obtain ⟨state⟩ := r
  cases state with
  | synced b =>
    cases m with
    | diff d => exact hr
    | snapshot S => trivial
  | buffering queue =>
    cases m with
    | diff d => trivial
    | snapshot S =>
      refine fun _ => ⟨hm, ?_⟩
      intro chained d later hused _
      have hchained : ∀ x ∈ chained, x.finalUpdateId.toNat < 2 ^ 64 - 1 := by
        intro x hx
        have hmem : x ∈ fromStraddle (S.lastUpdateId.toNat + 1) queue := by
          rw [hused]
          exact List.mem_append_left _ hx
        exact hr x ((List.dropWhile_sublist _).subset hmem)
      have hlast : (chained.foldl MarketBook.applyDiff
          (MarketBook.new.applySnapshot S)).lastUpdateId.toNat < 2 ^ 64 - 1 :=
        inRange_foldl (b := MarketBook.new.applySnapshot S) hm hchained
      rwa [MarketBook.lastUpdateId_foldl] at hlast

theorem Step.inRange {r r' : Reconciler} {m : Message} {out : Except ReconcileError Unit}
    (h : Step r m out r') (hr : r.InRange) (hm : m.BelowMax) : r'.InRange := by
  cases h with
  | buffered queue d =>
    intro d' hd'
    rcases List.mem_append.mp hd' with hmem | hmem
    · exact hr d' hmem
    · rw [List.mem_singleton.mp hmem]
      exact hm
  | applied => exact hm
  | bridged =>
    exact inRange_foldl (b := MarketBook.new.applySnapshot _) hm
      (fun d hd => hr d ((List.dropWhile_sublist _).subset hd))
  | replaced => exact hm
  | refused => exact inRange_new

theorem onMessage_step {r : Reconciler} (hr : r.InRange) {m : Message} (hm : m.BelowMax) :
    ∃ out r', (∀ pr, r.onMessage pr m = .ok (out, r')) ∧ r'.InRange ∧ Step r m out r' := by
  obtain ⟨out, r', hcall, hstep⟩ := step_of_roomFor (roomFor_of_inRange hr hm)
  exact ⟨out, r', hcall, hstep.inRange hr hm, hstep⟩

end Reconciler

end Ordust
