import Ordust.MarketBook
import Ordust.ReconcilerSteps

/-!
# The reconciler against an exchange

Whatever becomes of the messages of an exchange on their way, a book that the reconciler shows is
one that the exchange had: the one after the event that the book names.
-/

namespace Ordust

variable {h : Exchange}

/-! ## Genuine messages and the books of the exchange -/

theorem Exchange.GenuineDiff.covers {d : DepthUpdate} (hd : h.GenuineDiff d) :
    h.Covers d.patch d.firstUpdateId.toNat d.finalUpdateId.toNat where
  touched := by
    rintro ⟨s, p⟩ ht
    have hmem := (hd.levels s p _).mpr ⟨ht, rfl⟩
    rw [DepthUpdate.patch, lastFor_of_mem (hd.once s) hmem, Option.map_some]
    -- A level that is not there was listed with zero.
    cases hq : h.state d.finalUpdateId.toNat (s, p) with
    | none => rfl
    | some n => exact congrArg some (if_pos (h.pos _ _ n hq))
  untouched := by
    rintro ⟨s, p⟩ ht
    have hno : ∀ n, (p, n) ∉ d.entries s := fun n hm => ht ((hd.levels s p n).mp hm).1
    rw [DepthUpdate.patch, lastFor_eq_none hno, Option.map_none]

theorem Exchange.GenuineSnapshot.levels_eq {s : Snapshot} (hs : h.GenuineSnapshot s) :
    s.levels = h.state s.lastUpdateId.toNat := by
  funext ⟨side, p⟩
  have hall : (s.entries side).filter (fun e => 0 < e.2.val) = s.entries side := by
    rw [List.filter_eq_self]
    rintro ⟨p, n⟩ hm
    exact decide_eq_true (h.pos _ _ n ((hs.levels side p n).mp hm))
  rw [Snapshot.levels, hall]
  cases hq : h.state s.lastUpdateId.toNat (side, p) with
  | some n => exact lastFor_of_mem (hs.once side) ((hs.levels side p n).mpr hq)
  | none =>
    apply lastFor_eq_none
    intro n hm
    rw [(hs.levels side p n).mp hm] at hq
    simp at hq

/-- The book is the one that the exchange had after the event that it names. -/
structure Exchange.Had (h : Exchange) (b : MarketBook) : Prop where
  id : b.lastUpdateId.toNat < 2 ^ 64 - 1
  levels : b.level = h.state b.lastUpdateId.toNat

theorem Exchange.GenuineSnapshot.had {s : Snapshot} (hs : h.GenuineSnapshot s) (b : MarketBook) :
    h.Had (b.applySnapshot s) where
  id := hs.id
  levels := by
    rw [b.level_applySnapshot]
    exact hs.levels_eq

namespace Exchange.Had

variable {b : MarketBook}

/-- A diff that straddles the next event lands on a later book of the exchange. -/
theorem applyDiff (hb : h.Had b) {d : DepthUpdate} (hd : h.GenuineDiff d)
    (hs : d.Straddles (b.lastUpdateId.toNat + 1)) : h.Had (b.applyDiff d) where
  id := hd.id
  levels := by
    rw [b.level_applyDiff, hb.levels]
    exact hd.covers.apply_state hs.1 hs.2

theorem bridges (hb : h.Had b) {ds : List DepthUpdate} (hds : ∀ d ∈ ds, h.GenuineDiff d)
    (hbridges : Bridges b.lastUpdateId ds) : h.Had (ds.foldl MarketBook.applyDiff b) := by
  induction ds generalizing b with
  | nil => exact hb
  | cons d ds ih =>
    obtain ⟨hs, hrest⟩ := hbridges
    apply ih (hb.applyDiff (hds d List.mem_cons_self) hs) _ hrest
    intro d' hd'
    exact hds d' (List.mem_cons_of_mem _ hd')

end Exchange.Had

/-! ## The reconciler -/

/-- The buffered diffs are genuine, and so is the book. -/
def Exchange.Sound (h : Exchange) (r : Reconciler) : Prop :=
  match r.state with
  | .buffering queue => ∀ d ∈ queue, h.GenuineDiff d
  | .synced book => h.Had book

namespace Reconciler

theorem sound_new : h.Sound new := by
  intro d hd
  simp at hd

theorem inRange_of_sound {r : Reconciler} (hr : h.Sound r) : r.InRange := by
  obtain ⟨state⟩ := r
  cases state with
  | buffering queue => exact fun d hd => (hr d hd).id
  | synced book => exact hr.id

theorem belowMax_of_genuine {m : Message} (hm : h.Genuine m) : m.BelowMax := by
  cases m with
  | diff d => exact hm.id
  | snapshot s => exact hm.id

theorem step_sound {r r' : Reconciler} {m : Message} {out : Except ReconcileError Unit}
    (hr : h.Sound r) (hm : h.Genuine m) (hstep : Step r m out r') : h.Sound r' := by
  cases hstep with
  | buffered queue d =>
    intro d' hd'
    rcases List.mem_append.mp hd' with hmem | hmem
    · exact hr d' hmem
    · rw [List.mem_singleton.mp hmem]
      exact hm
  | @applied book d hs =>
    have hb : h.Had book := hr
    have hd : h.GenuineDiff d := hm
    have hrange := UInt64.le_iff_toNat_le.mp hd.range
    apply hb.applyDiff hd
    rw [← hs]
    exact ⟨le_refl _, hrange⟩
  | @bridged queue S hne hbridges =>
    have hS : h.GenuineSnapshot S := hm
    apply (hS.had MarketBook.new).bridges _ hbridges
    intro d hd
    exact hr d ((List.dropWhile_sublist _).subset hd)
  | replaced book S =>
    have hS : h.GenuineSnapshot S := hm
    exact hS.had MarketBook.new
  | refused => exact sound_new

theorem onMessage_sound {r : Reconciler} (hr : h.Sound r) {m : Message} (hm : h.Genuine m) :
    ∃ out r', (∀ pr, r.onMessage pr m = .ok (out, r')) ∧ h.Sound r' := by
  obtain ⟨out, r', hcall, -, hstep⟩ :=
    onMessage_step (inRange_of_sound hr) (belowMax_of_genuine hm)
  exact ⟨out, r', hcall, step_sound hr hm hstep⟩

/-- The book shown after any genuine messages is the one that the exchange had after the event
that the book names. -/
theorem book_sound (h : Exchange) (messages : List Message) (hm : ∀ m ∈ messages, h.Genuine m) :
    ∃ outs r, (∀ pr, new.run pr messages = .ok (outs, r)) ∧
      ∀ b, r.book = some b → ∀ side p, b.level (side, p) = h.state b.lastUpdateId.toNat (side, p) := by
  obtain ⟨outs, r, hrun, hr⟩ := Runs.exec_invariant h.Sound h.Genuine
    (fun r m hr hm => onMessage_sound hr hm) new messages sound_new hm
  refine ⟨outs, r, hrun, ?_⟩
  intro b hb side p
  obtain ⟨state⟩ := r
  cases state with
  | buffering queue => simp [book] at hb
  | synced book =>
    obtain rfl : book = b := Option.some.inj hb
    exact congrFun (Exchange.Had.levels hr) (side, p)

/-! ## One bid that comes and goes -/

/-- Every event quotes five at 100, or takes it back. -/
def onOff : Exchange where
  state k x := if x = (.buy, ⟨100⟩) ∧ k % 2 = 1 then some ⟨5⟩ else none
  touched _ x := x = (.buy, ⟨100⟩)
  frame := by
    intro k x hx
    simp [hx]
  pos := by
    intro k x n hn
    split at hn
    · rw [← Option.some.inj hn]
      decide
    · simp at hn

def onOffDiff (first last : UInt64) : DepthUpdate :=
  { firstUpdateId := first, finalUpdateId := last,
    bids := [(⟨100⟩, if last.toNat % 2 = 1 then ⟨5⟩ else ⟨0⟩)], asks := [] }

theorem onOffDiff_genuine {first last : UInt64} (hle : first ≤ last)
    (hlast : last.toNat < 2 ^ 64 - 1) : onOff.GenuineDiff (onOffDiff first last) where
  range := hle
  id := hlast
  once side := by cases side <;> simp [DepthUpdate.entries, onOffDiff]
  levels side p n := by
    have ht : onOff.Touches first.toNat last.toNat (side, p) ↔ (side, p) = (.buy, ⟨100⟩) := by
      constructor
      · rintro ⟨k, -, -, hk⟩
        exact hk
      · intro hx
        exact ⟨last.toNat, UInt64.le_iff_toNat_le.mp hle, le_refl _, hx⟩
    show _ ↔ onOff.Touches first.toNat last.toNat (side, p) ∧ n = (onOff.state last.toNat (side, p)).getD ⟨0⟩
    rw [ht]
    cases side with
    | sell => simp [DepthUpdate.entries, onOffDiff]
    | buy =>
      by_cases hp : p = ⟨100⟩
      · subst hp
        by_cases hodd : last.toNat % 2 = 1 <;> simp [DepthUpdate.entries, onOffDiff, onOff, hodd]
      · simp [DepthUpdate.entries, onOffDiff, hp]

def onOffSnapshot (last : UInt64) : Snapshot :=
  { lastUpdateId := last, bids := if last.toNat % 2 = 1 then [(⟨100⟩, ⟨5⟩)] else [], asks := [] }

theorem onOffSnapshot_genuine {last : UInt64} (hlast : last.toNat < 2 ^ 64 - 1) :
    onOff.GenuineSnapshot (onOffSnapshot last) where
  id := hlast
  once side := by
    cases side <;> by_cases hodd : last.toNat % 2 = 1 <;> simp [Snapshot.entries, onOffSnapshot, hodd]
  levels side p n := by
    show _ ↔ onOff.state last.toNat (side, p) = some n
    by_cases hodd : last.toNat % 2 = 1
    · cases side <;> simp [Snapshot.entries, onOffSnapshot, onOff, hodd, eq_comm]
    · cases side <;> simp [Snapshot.entries, onOffSnapshot, onOff, hodd]

/-- A stale diff, a straddling one, a repeated one, a live one. -/
def onOffMessages : List Message :=
  [.diff (onOffDiff 1 1), .diff (onOffDiff 2 4), .snapshot (onOffSnapshot 3),
    .diff (onOffDiff 2 4), .snapshot (onOffSnapshot 4), .diff (onOffDiff 5 5)]

theorem book_sound_onOff :
    ∃ outs r, (∀ pr, new.run pr onOffMessages = .ok (outs, r)) ∧
      ∃ b, r.book = some b ∧ b.lastUpdateId = 5 ∧
        ∀ side p, b.level (side, p) = onOff.state 5 (side, p) := by
  have hgenuine : ∀ m ∈ onOffMessages, onOff.Genuine m := by
    intro m hm
    simp only [onOffMessages, List.mem_cons, List.not_mem_nil, or_false] at hm
    rcases hm with rfl | rfl | rfl | rfl | rfl | rfl
    · exact onOffDiff_genuine (by decide) (by decide)
    · exact onOffDiff_genuine (by decide) (by decide)
    · exact onOffSnapshot_genuine (by decide)
    · exact onOffDiff_genuine (by decide) (by decide)
    · exact onOffSnapshot_genuine (by decide)
    · exact onOffDiff_genuine (by decide) (by decide)
  obtain ⟨outs, r, hrun, hsound⟩ := book_sound onOff onOffMessages hgenuine
  have hid : Except.map (fun x => x.2.book.map MarketBook.lastUpdateId)
      (new.run .debug onOffMessages) = .ok (some 5) := by decide +kernel
  rw [hrun] at hid
  obtain ⟨b, hb, hb5⟩ := Option.map_eq_some_iff.mp (Except.ok.inj hid)
  refine ⟨outs, r, hrun, b, hb, hb5, ?_⟩
  intro side p
  have := hsound b hb side p
  rwa [hb5] at this

end Reconciler

end Ordust
