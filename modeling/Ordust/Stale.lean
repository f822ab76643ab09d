import Ordust.UpdateIds

/-!
# Buffered diffs from before the snapshot

A buffered diff that ends at or before the snapshot says nothing new. Here is when it makes no
difference whether such diffs are in the buffer.
-/

namespace Ordust

/-- The snapshot of the id `id` already has all events of the diff. -/
def DepthUpdate.Stale (id : UInt64) (d : DepthUpdate) : Prop := d.finalUpdateId ≤ id

instance (id : UInt64) (d : DepthUpdate) : Decidable (d.Stale id) :=
  inferInstanceAs (Decidable (_ ≤ _))

def dropStale (id : UInt64) (queue : List DepthUpdate) : List DepthUpdate :=
  queue.filter (fun d => ¬ d.Stale id)

variable {pr : Profile} {id : UInt64} {S : Snapshot} {d : DepthUpdate}
  {queue ds : List DepthUpdate} {b : MarketBook}

/-! ## The buffer without the stale diffs -/

theorem dropStale_cons_stale (hd : d.Stale id) (ds : List DepthUpdate) :
    dropStale id (d :: ds) = dropStale id ds := by
  rw [dropStale, List.filter_cons_of_neg]
  · rfl
  · simp [hd]

theorem dropStale_cons_fresh (hd : ¬ d.Stale id) (ds : List DepthUpdate) :
    dropStale id (d :: ds) = d :: dropStale id ds := by
  rw [dropStale, List.filter_cons_of_pos]
  · rfl
  · simp [hd]

theorem dropStale_eq_nil_iff : dropStale id queue = [] ↔ ∀ d ∈ queue, d.Stale id := by
  simp [dropStale]

theorem DepthUpdate.Straddles.fresh (h : d.Straddles (id.toNat + 1)) : ¬ d.Stale id := by
  unfold DepthUpdate.Stale
  rw [UInt64.not_le, UInt64.lt_iff_toNat_lt]
  exact h.2

theorem fromStraddle_dropStale (queue : List DepthUpdate) :
    fromStraddle (id.toNat + 1) (dropStale id queue) =
      dropStale id (fromStraddle (id.toNat + 1) queue) := by
  induction queue with
  | nil => rfl
  | cons d queue ih =>
    by_cases hd : d.Straddles (id.toNat + 1)
    · rw [fromStraddle_cons hd, dropStale_cons_fresh hd.fresh, fromStraddle_cons hd]
    · rw [fromStraddle_cons_of_not hd]
      by_cases hstale : d.Stale id
      · rw [dropStale_cons_stale hstale, ih]
      · rw [dropStale_cons_fresh hstale, fromStraddle_cons_of_not hd, ih]

theorem straddles_of_fromStraddle {next : Nat} (h : fromStraddle next queue = d :: ds) :
    d.Straddles next := by
  have hhead := List.head?_dropWhile_not (fun d => decide (¬ DepthUpdate.Straddles d next)) queue
  rw [← fromStraddle, h] at hhead
  simpa using hhead

theorem fromStraddle_dropStale_ne_nil (h : fromStraddle (id.toNat + 1) queue ≠ []) :
    fromStraddle (id.toNat + 1) (dropStale id queue) ≠ [] := by
  obtain ⟨d, ds, hused⟩ := List.exists_cons_of_ne_nil h
  have hd := straddles_of_fromStraddle hused
  rw [fromStraddle_dropStale, hused, dropStale_cons_fresh hd.fresh]
  exact List.cons_ne_nil d _

namespace Reconciler

/-! ## What is asked of the stale diffs -/

/-- The call returns on both buffers, with the same answer, and leaves the same book. -/
def SameAnswer (S : Snapshot) (queue queue' : List DepthUpdate) : Prop :=
  ∀ pr, ∃ out r r', onSnapshot pr ⟨.buffering queue⟩ S = .ok (out, r) ∧
    onSnapshot pr ⟨.buffering queue'⟩ S = .ok (out, r') ∧ r.book = r'.book

/-- A stale diff is a gap wherever the chain comes to it. Without it the next one that is not stale
would be the same gap. -/
def SameGapBehind (snapshotId id : UInt64) (d : DepthUpdate) (later : List DepthUpdate) : Prop :=
  d.Stale snapshotId → ∃ x ∈ (dropStale snapshotId later).head?,
    x.firstUpdateId = d.firstUpdateId ∧ ¬ x.Straddles (id.toNat + 1)

instance (snapshotId id : UInt64) (d : DepthUpdate) (later : List DepthUpdate) :
    Decidable (SameGapBehind snapshotId id d later) :=
  inferInstanceAs (Decidable (_ → ∃ x ∈ (dropStale snapshotId later).head?, _ ∧ _))

structure StaleHarmless (id : UInt64) (queue : List DepthUpdate) : Prop where
  fresh : queue ≠ [] → ∃ d ∈ queue, ¬ d.Stale id
  room : RoomInChain id (fromStraddle (id.toNat + 1) queue)
  behind : AtReached (SameGapBehind id) id (fromStraddle (id.toNat + 1) queue)

/-! ## The loop with and without the stale diffs -/

theorem not_straddles_of_stale (hid : id ≤ b.lastUpdateId) (hd : d.Stale id) :
    ¬ d.Straddles (b.lastUpdateId.toNat + 1) := by
  intro hs
  have hle := UInt64.le_iff_toNat_le.mp hid
  have hfinal := UInt64.le_iff_toNat_le.mp hd
  have hreach := hs.2
  omega

theorem le_of_fresh (hd : ¬ d.Stale id) : id ≤ (b.applyDiff d).lastUpdateId := by
  unfold DepthUpdate.Stale at hd
  rw [UInt64.not_le] at hd
  exact UInt64.le_of_lt hd

theorem bridge_dropStale (pr : Profile) (hid : id ≤ b.lastUpdateId)
    (hroom : RoomInChain b.lastUpdateId ds) (hbehind : AtReached (SameGapBehind id) b.lastUpdateId ds) :
    bridge pr b (dropStale id ds) = bridge pr b ds := by
  induction ds generalizing b with
  | nil => rfl
  | cons d ds ih =>
    obtain ⟨hlast, hroom⟩ := atReached_cons.mp hroom
    obtain ⟨hgap, hbehind⟩ := atReached_cons.mp hbehind
    have hfit : b.lastUpdateId.toNat + 1 < 2 ^ 64 := by omega
    by_cases hd : d.Stale id
    · obtain ⟨x, hx, hfirst, hxs⟩ := hgap hd
      obtain ⟨later, hlater⟩ := List.head?_eq_some_iff.mp hx
      rw [dropStale_cons_stale hd, hlater, bridge_cons pr hfit, bridge_cons pr hfit, if_neg hxs,
        if_neg (not_straddles_of_stale hid hd), hfirst]
    · rw [dropStale_cons_fresh hd, bridge_cons pr hfit, bridge_cons pr hfit]
      by_cases hs : d.Straddles (b.lastUpdateId.toNat + 1)
      · rw [if_pos hs, if_pos hs]
        exact ih (b := b.applyDiff d) (le_of_fresh hd) (hroom hs) (hbehind hs)
      · rw [if_neg hs, if_neg hs]

theorem lt_of_gap {expected got : UInt64}
    (h : bridge .debug b ds = .ok (.error (.gapDetected expected got))) :
    b.lastUpdateId < expected := by
  rw [UInt64.lt_iff_toNat_lt]
  induction ds generalizing b with
  | nil => exact absurd (Except.ok.inj h) (by simp)
  | cons d ds ih =>
    have hfit := fits_of_bridge h
    rw [bridge_cons _ hfit] at h
    by_cases hs : d.Straddles (b.lastUpdateId.toNat + 1)
    · rw [if_pos hs] at h
      have hlt : d.finalUpdateId.toNat < expected.toNat := ih (b := b.applyDiff d) h
      have hreach := hs.2
      omega
    · rw [if_neg hs] at h
      obtain ⟨rfl, -⟩ := ReconcileError.gapDetected.inj (Except.error.inj (Except.ok.inj h))
      rw [UInt64.toNat_add_one hfit]
      omega

/-- A debug build that returns the same with and without the stale diffs had room for the ids, and
the stale diffs that it came to had the same gap behind them. -/
theorem atReached_of_bridge {out : Except ReconcileError MarketBook} (hid : id ≤ b.lastUpdateId)
    (h : bridge .debug b ds = .ok out) (h' : bridge .debug b (dropStale id ds) = .ok out) :
    RoomInChain b.lastUpdateId ds ∧ AtReached (SameGapBehind id) b.lastUpdateId ds := by
  induction ds generalizing b with
  | nil => exact ⟨atReached_nil, atReached_nil⟩
  | cons d ds ih =>
    have hfit := fits_of_bridge h
    have hlast : b.lastUpdateId.toNat < 2 ^ 64 - 1 := by omega
    rw [bridge_cons _ hfit] at h
    by_cases hd : d.Stale id
    · have hs := not_straddles_of_stale hid hd
      rw [if_neg hs] at h
      obtain rfl := Except.ok.inj h
      rw [dropStale_cons_stale hd] at h'
      refine ⟨atReached_cons.mpr ⟨hlast, fun hc => absurd hc hs⟩,
        atReached_cons.mpr ⟨?_, fun hc => absurd hc hs⟩⟩
      intro _
      cases hlater : dropStale id ds with
      | nil =>
        rw [hlater] at h'
        exact absurd (Except.ok.inj h') (by simp)
      | cons x later =>
        rw [hlater, bridge_cons _ hfit] at h'
        by_cases hx : x.Straddles (b.lastUpdateId.toNat + 1)
        · rw [if_pos hx] at h'
          -- Had `x` been taken in, a gap behind it would be at a later id.
          have hlt : x.finalUpdateId.toNat < (b.lastUpdateId + 1).toNat :=
            UInt64.lt_iff_toNat_lt.mp (lt_of_gap (b := b.applyDiff x) h')
          have hreach := hx.2
          rw [UInt64.toNat_add_one hfit] at hlt
          omega
        · rw [if_neg hx] at h'
          obtain ⟨-, hfirst⟩ :=
            ReconcileError.gapDetected.inj (Except.error.inj (Except.ok.inj h'))
          exact ⟨x, rfl, hfirst, hx⟩
    · rw [dropStale_cons_fresh hd, bridge_cons _ hfit] at h'
      have htail : d.Straddles (b.lastUpdateId.toNat + 1) →
          RoomInChain d.finalUpdateId ds ∧ AtReached (SameGapBehind id) d.finalUpdateId ds := by
        intro hs
        rw [if_pos hs] at h h'
        exact ih (b := b.applyDiff d) (le_of_fresh hd) h h'
      exact ⟨atReached_cons.mpr ⟨hlast, fun hs => (htail hs).1⟩,
        atReached_cons.mpr ⟨fun hc => absurd hc hd, fun hs => (htail hs).2⟩⟩

/-! ## The call with and without the stale diffs -/

theorem answer_inj {out out' : Except ReconcileError MarketBook}
    (h : (answer out).1 = (answer out').1) (hbook : (answer out).2.book = (answer out').2.book) :
    out = out' := by
  cases out with
  | ok marketbook =>
    cases out' with
    | ok marketbook' => exact congrArg _ (Option.some.inj hbook)
    | error err' => simp [answer] at h
  | error err =>
    cases out' with
    | ok marketbook' => simp [answer] at h
    | error err' => exact congrArg _ (Except.error.inj h)

theorem sameAnswer_of_harmless (hfit : S.lastUpdateId.toNat + 1 < 2 ^ 64)
    (h : StaleHarmless S.lastUpdateId queue) :
    SameAnswer S queue (dropStale S.lastUpdateId queue) := by
  intro pr
  by_cases hqueue : queue = []
  · subst hqueue
    exact ⟨_, _, _, rfl, rfl, rfl⟩
  · have hfresh : dropStale S.lastUpdateId queue ≠ [] := by
      obtain ⟨d, hd, hd'⟩ := h.fresh hqueue
      intro hnil
      exact hd' (dropStale_eq_nil_iff.mp hnil d hd)
    by_cases hnil : fromStraddle (S.lastUpdateId.toNat + 1) queue = []
    · have hnil' : fromStraddle (S.lastUpdateId.toNat + 1) (dropStale S.lastUpdateId queue) = [] := by
        rw [fromStraddle_dropStale, hnil]
        rfl
      exact ⟨_, _, _, onSnapshot_tooOld pr hfit hqueue hnil, onSnapshot_tooOld pr hfit hfresh hnil',
        rfl⟩
    · have hloop := bridge_dropStale (b := MarketBook.new.applySnapshot S) pr
        (UInt64.le_refl S.lastUpdateId) h.room h.behind
      obtain ⟨out, hout⟩ := bridge_returns (b := MarketBook.new.applySnapshot S) pr h.room
      refine ⟨(answer out).1, (answer out).2, (answer out).2, ?_, ?_, rfl⟩
      · rw [onSnapshot_used pr hfit hnil, hout]
        rfl
      · rw [onSnapshot_used pr hfit (fromStraddle_dropStale_ne_nil hnil), fromStraddle_dropStale,
          hloop, hout]
        rfl

theorem fresh_of_sameAnswer (hfit : S.lastUpdateId.toNat + 1 < 2 ^ 64) (hqueue : queue ≠ [])
    (h : SameAnswer S queue (dropStale S.lastUpdateId queue)) :
    ∃ d ∈ queue, ¬ d.Stale S.lastUpdateId := by
  by_contra hall
  have hdrop : dropStale S.lastUpdateId queue = [] := by
    rw [dropStale_eq_nil_iff]
    intro d hd
    by_contra hd'
    exact hall ⟨d, hd, hd'⟩
  have hnil : fromStraddle (S.lastUpdateId.toNat + 1) queue = [] := by
    by_contra hne
    apply fromStraddle_dropStale_ne_nil hne
    rw [hdrop]
    rfl
  obtain ⟨out, r, r', hbuffer, hempty, -⟩ := h .debug
  rw [onSnapshot_tooOld .debug hfit hqueue hnil] at hbuffer
  rw [hdrop] at hempty
  obtain ⟨rfl, -⟩ := Prod.mk.inj (Except.ok.inj hbuffer)
  obtain ⟨hout, -⟩ := Prod.mk.inj (Except.ok.inj hempty)
  simp at hout

theorem atReached_of_sameAnswer (hfit : S.lastUpdateId.toNat + 1 < 2 ^ 64)
    (h : SameAnswer S queue (dropStale S.lastUpdateId queue)) :
    RoomInChain S.lastUpdateId (fromStraddle (S.lastUpdateId.toNat + 1) queue) ∧
      AtReached (SameGapBehind S.lastUpdateId) S.lastUpdateId
        (fromStraddle (S.lastUpdateId.toNat + 1) queue) := by
  by_cases hnil : fromStraddle (S.lastUpdateId.toNat + 1) queue = []
  · rw [hnil]
    exact ⟨atReached_nil, atReached_nil⟩
  · obtain ⟨out, r, r', hall, hfresh, hbook⟩ := h .debug
    rw [onSnapshot_used .debug hfit hnil, Checked.map_eq_ok] at hall
    rw [onSnapshot_used .debug hfit (fromStraddle_dropStale_ne_nil hnil), fromStraddle_dropStale,
      Checked.map_eq_ok] at hfresh
    obtain ⟨loop, hloop, hanswer⟩ := hall
    obtain ⟨loop', hloop', hanswer'⟩ := hfresh
    have hsame : loop = loop' := by
      apply answer_inj
      · rw [hanswer, hanswer']
      · rw [hanswer, hanswer']
        exact hbook
    rw [← hsame] at hloop'
    exact atReached_of_bridge (b := MarketBook.new.applySnapshot S)
      (UInt64.le_refl S.lastUpdateId) hloop hloop'

/-- The stale diffs of a buffer make no difference if and only if they are not all of it, and where
the loop comes to one, the gap is there without it. -/
theorem stale_irrelevant_iff (hfit : S.lastUpdateId.toNat + 1 < 2 ^ 64) :
    SameAnswer S queue (dropStale S.lastUpdateId queue) ↔ StaleHarmless S.lastUpdateId queue := by
  constructor
  · intro h
    obtain ⟨hroom, hbehind⟩ := atReached_of_sameAnswer hfit h
    exact {
      fresh := fun hqueue => fresh_of_sameAnswer hfit hqueue h
      room := hroom
      behind := hbehind }
  · exact sameAnswer_of_harmless hfit

def diff90to95 : DepthUpdate :=
  { firstUpdateId := 90, finalUpdateId := 95, bids := [(⟨99⟩, ⟨7⟩)], asks := [] }

theorem stale_irrelevant_in_front :
    SameAnswer snapshotAt100 [diff90to95, diff95to102, diff103to105] [diff95to102, diff103to105] ∧
      ¬ SameAnswer snapshotAt100 [diff95to102, diff90to95] [diff95to102] := by
  have hfit : snapshotAt100.lastUpdateId.toNat + 1 < 2 ^ 64 := by decide
  have hiff : ∀ queue, SameAnswer snapshotAt100 queue (dropStale 100 queue) ↔
      StaleHarmless 100 queue := fun _ => stale_irrelevant_iff hfit
  constructor
  · apply (hiff [diff90to95, diff95to102, diff103to105]).mpr
    exact {
      fresh := fun _ => by decide
      room := by decide
      behind := by decide }
  · intro h
    have hharmless := (hiff [diff95to102, diff90to95]).mp h
    exact absurd hharmless.behind (by decide)

/-- A buffer that is all stale is refused, where an empty one is not; and a stale diff that came
late is a gap. -/
theorem stale_relevant :
    (∀ d ∈ [diff90to95, diff95to102], d.firstUpdateId ≤ d.finalUpdateId) ∧
    (∀ pr, Except.map (fun x => (x.1, x.2.book.map MarketBook.lastUpdateId))
        (onSnapshot pr ⟨.buffering [diff90to95]⟩ snapshotAt100) =
      .ok (.error .snapshotTooOld, none)) ∧
    (∀ pr, Except.map (fun x => (x.1, x.2.book.map MarketBook.lastUpdateId))
        (onSnapshot pr ⟨.buffering (dropStale 100 [diff90to95])⟩ snapshotAt100) =
      .ok (.ok (), some 100)) ∧
    (∀ pr, Except.map (fun x => (x.1, x.2.book.map MarketBook.lastUpdateId))
        (onSnapshot pr ⟨.buffering [diff95to102, diff90to95]⟩ snapshotAt100) =
      .ok (.error (.gapDetected 103 90), none)) ∧
    ∀ pr, Except.map (fun x => (x.1, x.2.book.map MarketBook.lastUpdateId))
        (onSnapshot pr ⟨.buffering (dropStale 100 [diff95to102, diff90to95])⟩ snapshotAt100) =
      .ok (.ok (), some 102) := by
  refine ⟨by decide, ?_, ?_, ?_, ?_⟩
  all_goals
    intro pr
    cases pr <;> decide +kernel

end Reconciler

end Ordust
