import Ordust.Resync

/-!
# Where a book comes from

Any messages at all, as long as their ids leave room for the next one. A book that is shown is one
snapshot and the diffs that continue it, all of them later than the last refusal; and a refusal
leaves nothing behind.
-/

namespace Ordust

namespace Reconciler

/-! ## The origin of a book -/

/-- The calls on `dead` end with one that was refused, if there are any; those on `since`, which
come after, were accepted. -/
def LastRefusal (dead since : List Message) (outs : List (Except ReconcileError Unit)) : Prop :=
  ∃ answers, outs = answers ++ List.replicate since.length (.ok ()) ∧
    answers.length = dead.length ∧ ∀ out ∈ answers.getLast?, out ≠ .ok ()

structure Origin where
  dead : List Message
  since : List Message
  snapshot : Snapshot
  /-- The buffered diffs that the snapshot was bridged with. -/
  used : List DepthUpdate
  live : List DepthUpdate

/-- In the state that the snapshot found, it was bridged with these diffs. -/
def Origin.Accepted (o : Origin) (found : Reconciler) : Prop :=
  match found.state with
  | .buffering queue => o.since = queue.map .diff ∧
      o.used = fromStraddle (o.snapshot.lastUpdateId.toNat + 1) queue ∧
      (queue ≠ [] → o.used ≠ [])
  | .synced _ => o.used = []

structure Origin.Explains (o : Origin) (messages : List Message)
    (outs : List (Except ReconcileError Unit)) (b : MarketBook) : Prop where
  messages_eq : messages = o.dead ++ (o.since ++ .snapshot o.snapshot :: o.live.map .diff)
  answers : LastRefusal o.dead (o.since ++ .snapshot o.snapshot :: o.live.map .diff) outs
  accepted : ∃ outs₀ found, (∀ pr, new.run pr (o.dead ++ o.since) = .ok (outs₀, found)) ∧
    o.Accepted found
  bridges : Bridges o.snapshot.lastUpdateId o.used
  follows : Follows (lastId o.snapshot.lastUpdateId o.used) o.live
  book_eq : b = (o.used ++ o.live).foldl MarketBook.applyDiff
    (MarketBook.new.applySnapshot o.snapshot)

def Account (messages : List Message) (outs : List (Except ReconcileError Unit))
    (r : Reconciler) : Prop :=
  match r.state with
  | .buffering queue => ∃ dead, messages = dead ++ queue.map .diff ∧
      LastRefusal dead (queue.map .diff) outs
  | .synced b => ∃ o : Origin, o.Explains messages outs b

theorem LastRefusal.snoc {dead since : List Message} {outs : List (Except ReconcileError Unit)}
    (h : LastRefusal dead since outs) (m : Message) :
    LastRefusal dead (since ++ [m]) (outs ++ [.ok ()]) := by
  obtain ⟨answers, rfl, hlen, hlast⟩ := h
  refine ⟨answers, ?_, hlen, hlast⟩
  rw [List.append_assoc, ← List.replicate_succ', List.length_append]
  rfl

section Account

variable {messages : List Message} {outs : List (Except ReconcileError Unit)} {b : MarketBook}

theorem Origin.Explains.applied {o : Origin} (h : o.Explains messages outs b) {d : DepthUpdate}
    (hd : d.Starts (b.lastUpdateId.toNat + 1)) :
    Origin.Explains { o with live := o.live ++ [d] } (messages ++ [.diff d]) (outs ++ [.ok ()])
      (b.applyDiff d) where
  messages_eq := by
    rw [h.messages_eq]
    simp
  answers := by
    have := h.answers.snoc (.diff d)
    simpa using this
  accepted := h.accepted
  bridges := h.bridges
  follows := by
    rw [h.book_eq, MarketBook.lastUpdateId_foldl, lastId_append] at hd
    exact chained_append.mpr ⟨h.follows, hd, trivial⟩
  book_eq := by
    rw [← List.append_assoc, List.foldl_append, ← h.book_eq]
    rfl

theorem explains_bridged {dead : List Message} {queue : List DepthUpdate} {S : Snapshot}
    (hrun : ∀ pr, new.run pr messages = .ok (outs, ⟨.buffering queue⟩))
    (hmessages : messages = dead ++ queue.map .diff)
    (hanswers : LastRefusal dead (queue.map .diff) outs)
    (hne : queue ≠ [] → fromStraddle (S.lastUpdateId.toNat + 1) queue ≠ [])
    (hbridges : Bridges S.lastUpdateId (fromStraddle (S.lastUpdateId.toNat + 1) queue)) :
    Origin.Explains ⟨dead, queue.map .diff, S, fromStraddle (S.lastUpdateId.toNat + 1) queue, []⟩
      (messages ++ [.snapshot S]) (outs ++ [.ok ()])
      ((fromStraddle (S.lastUpdateId.toNat + 1) queue).foldl MarketBook.applyDiff
        (MarketBook.new.applySnapshot S)) where
  messages_eq := by
    rw [hmessages, List.append_assoc]
    rfl
  answers := hanswers.snoc (.snapshot S)
  accepted := by
    rw [hmessages] at hrun
    exact ⟨outs, _, hrun, rfl, rfl, hne⟩
  bridges := hbridges
  follows := trivial
  book_eq := by rw [List.append_nil]

theorem Origin.Explains.replaced {o : Origin} (h : o.Explains messages outs b) (S : Snapshot)
    (hrun : ∀ pr, new.run pr messages = .ok (outs, ⟨.synced b⟩)) :
    Origin.Explains ⟨o.dead, o.since ++ .snapshot o.snapshot :: o.live.map .diff, S, [], []⟩
      (messages ++ [.snapshot S]) (outs ++ [.ok ()]) (MarketBook.new.applySnapshot S) where
  messages_eq := by
    rw [h.messages_eq, List.append_assoc]
    rfl
  answers := h.answers.snoc (.snapshot S)
  accepted := by
    rw [h.messages_eq] at hrun
    exact ⟨outs, _, hrun, rfl⟩
  bridges := trivial
  follows := trivial
  book_eq := rfl

theorem account_step {r r' : Reconciler} {m : Message} {out : Except ReconcileError Unit}
    (hrun : ∀ pr, new.run pr messages = .ok (outs, r)) (h : Account messages outs r)
    (hstep : Step r m out r') : Account (messages ++ [m]) (outs ++ [out]) r' := by
  cases hstep with
  | buffered queue d =>
    obtain ⟨dead, hmessages, hanswers⟩ := h
    have hsnoc := hanswers.snoc (.diff d)
    refine ⟨dead, ?_, ?_⟩
    · rw [hmessages, List.map_append, List.append_assoc]
      rfl
    · rw [List.map_append]
      exact hsnoc
  | applied hd =>
    obtain ⟨o, ho⟩ := h
    exact ⟨_, ho.applied hd⟩
  | bridged hne hbridges =>
    obtain ⟨dead, hmessages, hanswers⟩ := h
    exact ⟨_, explains_bridged hrun hmessages hanswers hne hbridges⟩
  | replaced book S =>
    obtain ⟨o, ho⟩ := h
    exact ⟨_, ho.replaced S hrun⟩
  | refused _ _ err =>
    have hlen : outs.length = messages.length := Runs.length_exec (hrun .debug)
    refine ⟨messages ++ [m], (List.append_nil _).symm, outs ++ [.error err], ?_, ?_, ?_⟩
    · exact (List.append_nil _).symm
    · rw [List.length_append, List.length_append, hlen]
      rfl
    · simp

end Account

/-! ## After a refusal -/

/-- A call that is refused leaves a reconciler as good as new: what comes after is answered as if
nothing had been before. -/
def FreshAfterErr (messages : List Message) (outs : List (Except ReconcileError Unit))
    (r : Reconciler) : Prop :=
  ∀ k err, outs[k]? = some (.error err) →
    (∀ pr, new.run pr (messages.take (k + 1)) = .ok (outs.take (k + 1), new)) ∧
    ∀ pr, new.run pr (messages.drop (k + 1)) = .ok (outs.drop (k + 1), r)

theorem freshAfterErr_step {messages : List Message} {outs : List (Except ReconcileError Unit)}
    {r r' : Reconciler} {m : Message} {out : Except ReconcileError Unit}
    (hrun : ∀ pr, new.run pr messages = .ok (outs, r)) (h : FreshAfterErr messages outs r)
    (hm : ∀ pr, r.onMessage pr m = .ok (out, r')) (hstep : Step r m out r') :
    FreshAfterErr (messages ++ [m]) (outs ++ [out]) r' := by
  have hlen : outs.length = messages.length := Runs.length_exec (hrun .debug)
  have hlast : ∀ pr, new.run pr (messages ++ [m]) = .ok (outs ++ [out], r') := fun pr =>
    Runs.exec_append_ok (hrun pr) (Runs.exec_cons_ok (hm pr) rfl)
  intro k err hk
  rcases Nat.lt_trichotomy k outs.length with hlt | rfl | hgt
  · rw [List.getElem?_append_left hlt] at hk
    obtain ⟨hbefore, hafter⟩ := h k err hk
    have hle : k + 1 ≤ outs.length := hlt
    have hle' : k + 1 ≤ messages.length := by omega
    rw [List.take_append_of_le_length hle, List.drop_append_of_le_length hle,
      List.take_append_of_le_length hle', List.drop_append_of_le_length hle']
    refine ⟨hbefore, ?_⟩
    intro pr
    exact Runs.exec_append_ok (hafter pr) (Runs.exec_cons_ok (hm pr) rfl)
  · rw [List.getElem?_concat_length] at hk
    rw [Option.some.inj hk] at hstep hlast ⊢
    obtain rfl := hstep.eq_new
    have houts : (outs ++ [Except.error err]).length ≤ outs.length + 1 := by
      rw [List.length_append]
      rfl
    have hmessages : (messages ++ [m]).length ≤ outs.length + 1 := by
      rw [List.length_append, hlen]
      rfl
    rw [List.take_of_length_le houts, List.take_of_length_le hmessages,
      List.drop_of_length_le houts, List.drop_of_length_le hmessages]
    exact ⟨hlast, fun _ => rfl⟩
  · have hnone : (outs ++ [out]).length ≤ k := by
      rw [List.length_append]
      exact hgt
    rw [List.getElem?_eq_none hnone] at hk
    simp at hk

/-- Whatever the messages, a book that is shown has an origin: the last snapshot that was accepted,
the buffered diffs that it was bridged with, and the diffs since, none of them from before the last
refusal. -/
theorem book_provenance (messages : List Message) (hids : ∀ m ∈ messages, m.BelowMax) :
    ∃ outs r, (∀ pr, new.run pr messages = .ok (outs, r)) ∧
      (∀ b, r.book = some b → ∃ o : Origin, o.Explains messages outs b) ∧
      new.book = none ∧ FreshAfterErr messages outs r := by
  have hnew : Account [] [] new := ⟨[], rfl, [], rfl, rfl, by simp⟩
  obtain ⟨outs, r, hrun, -, haccount, hfresh⟩ := Runs.exec_history
    (fun messages outs r => InRange r ∧ Account messages outs r ∧ FreshAfterErr messages outs r)
    Message.BelowMax new
    (by
      rintro messages outs r m hrun ⟨hr, haccount, hfresh⟩ hm
      obtain ⟨out, r', hm, hr', hstep⟩ := onMessage_step hr hm
      exact ⟨out, r', hm, hr', account_step hrun haccount hstep,
        freshAfterErr_step hrun hfresh hm hstep⟩)
    ⟨inRange_new, hnew, by simp [FreshAfterErr]⟩ messages hids
  refine ⟨outs, r, hrun, ?_, rfl, hfresh⟩
  intro b hb
  obtain ⟨state⟩ := r
  cases state with
  | buffering queue => simp [book] at hb
  | synced book =>
    obtain rfl : book = b := Option.some.inj hb
    exact haccount

/-! ## A snapshot that is too old, then one that is not -/

def tooOldMessages : List Message :=
  [.diff diff103to105, .snapshot snapshotAt100, .diff diff95to102, .snapshot snapshotAt100,
    .diff diff103to105]

theorem book_provenance_tooOld :
    ∃ outs r, (∀ pr, new.run pr tooOldMessages = .ok (outs, r)) ∧
      (∃ b, r.book = some b ∧ b.lastUpdateId = 105 ∧
        ∃ o : Origin, o.Explains tooOldMessages outs b) ∧
      ∀ pr, new.run pr (tooOldMessages.drop 2) = .ok ([.ok (), .ok (), .ok ()], r) := by
  have hids : ∀ m ∈ tooOldMessages, m.BelowMax := by decide
  obtain ⟨outs, r, hrun, hbook, -, hfresh⟩ := book_provenance tooOldMessages hids
  have hsum : Except.map (fun x => (x.1, x.2.book.map MarketBook.lastUpdateId))
      (new.run .debug tooOldMessages) =
        .ok ([.ok (), .error .snapshotTooOld, .ok (), .ok (), .ok ()], some 105) := by
    decide +kernel
  rw [hrun] at hsum
  obtain ⟨rfl, hid⟩ := Prod.mk.inj (Except.ok.inj hsum)
  obtain ⟨b, hb, hb105⟩ := Option.map_eq_some_iff.mp hid
  exact ⟨_, r, hrun, ⟨b, hb, hb105, hbook b hb⟩, (hfresh 1 _ rfl).2⟩

end Reconciler

end Ordust
