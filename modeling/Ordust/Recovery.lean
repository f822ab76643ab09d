import Ordust.Reconciler
import Ordust.Resync
import Mathlib.Data.List.Chain

/-!
# How soon the reconciler recovers

A refusal leaves nothing to be refused by, so the next message is taken. Whatever has been buffered
or lost before, two snapshots and the diffs from the second one on give the book of the exchange.
-/

namespace Ordust

namespace Reconciler

variable {r r' : Reconciler} {m : Message} {out : Except ReconcileError Unit}

/-! ## Refusals -/

theorem onMessage_new (pr : Profile) (m : Message) : ∃ r', new.onMessage pr m = .ok (.ok (), r') := by
  cases m <;> exact ⟨_, rfl⟩

/-- Of two answers in a row, at most the first or the second is a refusal. -/
def Apart (outs : List (Except ReconcileError Unit)) : Prop :=
  outs.IsChain (fun out out' => out = .ok () ∨ out' = .ok ())

theorem step_ok_or_new (h : Step r m out r') : out = .ok () ∨ r' = new := by
  cases h <;> simp

theorem apart_run (hr : r.InRange) (messages : List Message) (hm : ∀ m ∈ messages, m.BelowMax) :
    ∃ outs r', (∀ pr, r.run pr messages = .ok (outs, r')) ∧ Apart outs ∧
      (r = new → ∀ out ∈ outs.head?, out = .ok ()) := by
  induction messages generalizing r with
  | nil => exact ⟨[], r, fun _ => rfl, .nil, by simp⟩
  | cons m messages ih =>
    obtain ⟨out, r₁, hcall, hr₁, hstep⟩ := onMessage_step hr (hm m List.mem_cons_self)
    obtain ⟨outs, r', hrun, hapart, hhead⟩ := ih hr₁ (fun m' hm' => hm m' (List.mem_cons_of_mem _ hm'))
    refine ⟨out :: outs, r', fun pr => Runs.exec_cons_ok (hcall pr) (hrun pr), ?_, ?_⟩
    · apply List.isChain_cons.mpr
      refine ⟨?_, hapart⟩
      intro out' hout'
      rcases step_ok_or_new hstep with hok | hnew
      · exact .inl hok
      · exact .inr (hhead hnew out' hout')
    · rintro rfl out' hout'
      obtain ⟨r₂, hnew⟩ := onMessage_new .debug m
      obtain rfl : out = out' := by simpa using hout'
      rw [hcall .debug] at hnew
      exact (Prod.mk.inj (Except.ok.inj hnew)).1

/-- Whatever arrives with ids below the end of `u64`, no two refusals follow one another. -/
theorem refusals_apart (messages : List Message) (hm : ∀ m ∈ messages, m.BelowMax) :
    ∃ outs r, (∀ pr, new.run pr messages = .ok (outs, r)) ∧
      ∀ before after out out', outs = before ++ out :: out' :: after → out = .ok () ∨ out' = .ok () := by
  obtain ⟨outs, r, hrun, hapart, -⟩ := apart_run inRange_new messages hm
  refine ⟨outs, r, hrun, ?_⟩
  rintro before after out out' rfl
  exact (List.isChain_append_cons_cons.mp hapart).2.1

/-- A gap, then a snapshot that is too old for what came in between. -/
theorem refusals_apart_gap :
    ∃ outs r, (∀ pr, new.run pr [.snapshot snapshotAt100, .diff diff95to102, .diff diff103to105,
        .snapshot snapshotAt100] = .ok (outs, r)) ∧
      ∀ before after out out', outs = before ++ out :: out' :: after → out = .ok () ∨ out' = .ok () :=
  refusals_apart _ (by decide)

/-! ## Two snapshots -/

theorem synced_of_two_snapshots (hr : r.InRange) {S₁ : Snapshot}
    (h₁ : S₁.lastUpdateId.toNat < 2 ^ 64 - 1) (S₂ : Snapshot) :
    ∃ out, ∀ pr, r.run pr [.snapshot S₁, .snapshot S₂] =
      .ok ([out, .ok ()], ⟨.synced (MarketBook.new.applySnapshot S₂)⟩) := by
  obtain ⟨out, r₁, hcall, -, hstep⟩ := onMessage_step hr (m := .snapshot S₁) h₁
  refine ⟨out, ?_⟩
  intro pr
  apply Runs.exec_cons_ok (hcall pr)
  -- Taken, the first snapshot is replaced by the second. Refused, it has emptied the buffer.
  cases hstep <;> rfl

/-- Whatever genuine messages came before, after two snapshots the reconciler takes the diffs that
follow, and shows the book that the exchange had after the last of them. -/
theorem catches_up (h : Exchange) (before : List Message) (hbefore : ∀ m ∈ before, h.Genuine m)
    (S₁ S₂ : Snapshot) (ds : List DepthUpdate) (h₁ : h.GenuineSnapshot S₁) (h₂ : h.GenuineSnapshot S₂)
    (hds : ∀ d ∈ ds, h.GenuineDiff d) (hfollows : Follows S₂.lastUpdateId ds) :
    ∃ outs r b,
      (∀ pr, new.run pr (before ++ .snapshot S₁ :: .snapshot S₂ :: ds.map .diff) = .ok (outs, r)) ∧
      outs.drop (before.length + 1) = List.replicate (ds.length + 1) (.ok ()) ∧
      r.book = some b ∧ b.lastUpdateId = lastId S₂.lastUpdateId ds ∧
      ∀ side p, b.level (side, p) = h.state (lastId S₂.lastUpdateId ds).toNat (side, p) := by
  obtain ⟨outs, r, hrun, hr⟩ := Runs.exec_invariant h.Sound h.Genuine
    (fun r m hr hm => onMessage_sound hr hm) new before sound_new hbefore
  obtain ⟨out, htwo⟩ := synced_of_two_snapshots (inRange_of_sound hr) h₁.id S₂
  have hlive := fun pr => run_follows pr (b := MarketBook.new.applySnapshot S₂) hfollows
  have hid := MarketBook.lastUpdateId_foldl (MarketBook.new.applySnapshot S₂) ds
  have hbridges : Bridges (MarketBook.new.applySnapshot S₂).lastUpdateId ds := by
    apply Follows.bridges hfollows
    intro d hd
    exact (hds d hd).range
  have hhad := (h₂.had MarketBook.new).bridges hds hbridges
  refine ⟨outs ++ ([out, .ok ()] ++ List.replicate ds.length (.ok ())),
    ⟨.synced (ds.foldl MarketBook.applyDiff (MarketBook.new.applySnapshot S₂))⟩, _, ?_, ?_, rfl, hid, ?_⟩
  · intro pr
    exact Runs.exec_append_ok (hrun pr) (Runs.exec_append_ok (htwo pr) (hlive pr))
  · have hlen : outs.length = before.length := Runs.length_exec (hrun .debug)
    rw [← hlen, List.drop_append]
    simp [List.replicate_succ]
  · intro side p
    have hlevel := hhad.levels
    rw [hid] at hlevel
    exact congrFun hlevel (side, p)

/-- Diffs in the wrong order, a snapshot that is too old for them, and one that is not. -/
theorem catches_up_onOff :
    ∃ outs r b,
      (∀ pr, new.run pr ([.diff (onOffDiff 6 7), .diff (onOffDiff 2 4)] ++
        .snapshot (onOffSnapshot 7) :: .snapshot (onOffSnapshot 8) ::
          [onOffDiff 9 9, onOffDiff 10 11].map .diff) = .ok (outs, r)) ∧
      outs.drop 3 = List.replicate 3 (.ok ()) ∧ r.book = some b ∧ b.lastUpdateId = 11 ∧
      ∀ side p, b.level (side, p) = onOff.state 11 (side, p) := by
  refine catches_up onOff [.diff (onOffDiff 6 7), .diff (onOffDiff 2 4)] ?_ (onOffSnapshot 7)
    (onOffSnapshot 8) [onOffDiff 9 9, onOffDiff 10 11] (onOffSnapshot_genuine (by decide))
    (onOffSnapshot_genuine (by decide)) ?_ ⟨rfl, rfl, trivial⟩
  · intro m hm
    simp only [List.mem_cons, List.not_mem_nil, or_false] at hm
    rcases hm with rfl | rfl <;> exact onOffDiff_genuine (by decide) (by decide)
  · intro d hd
    simp only [List.mem_cons, List.not_mem_nil, or_false] at hd
    rcases hd with rfl | rfl <;> exact onOffDiff_genuine (by decide) (by decide)

end Reconciler

end Ordust
