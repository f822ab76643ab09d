import Ordust.Code.HyperliquidAdapter
import Ordust.ReconcilerSteps
import Ordust.Screen

/-!
# The ids that the Hyperliquid adapter makes

An id is a time in nanoseconds, made of one in milliseconds. Ids on the screen go forward as the
times do; and no id comes right after another one, so that the reconciler can use the depth
messages as snapshots only.
-/

namespace Ordust

variable {φ : Type}

/-! ## Ids on the screen -/

/-- The id that is shown, zero before the first depth message. -/
def shownId (last : Option DepthUpdate) : Nat := last.elim 0 (fun d => d.finalUpdateId.toNat)

theorem OrderBookView.Shows.id {f : F64 φ} {symbol : String} {view : OrderBookView φ}
    {last : Option DepthUpdate} (h : view.Shows f symbol last) :
    view.lastUpdateId.toNat = shownId last := by
  cases last with
  | none =>
    rw [show view = .default symbol from h]
    rfl
  | some d =>
    rw [h.2.2.1]
    rfl

theorem OrderBookView.Shows.synced {f : F64 φ} {symbol : String} {view : OrderBookView φ}
    {last : Option DepthUpdate} (h : view.Shows f symbol last) : view.isSynced = last.isSome := by
  cases last with
  | none =>
    rw [show view = .default symbol from h]
    rfl
  | some d => exact h.2.1

def depths (msgs : List RawMessage) : List DepthUpdate := msgs.filterMap RawMessage.depth?

theorem lastDepth_forward {part part' : List RawMessage} (h : part <+: part')
    (hids : (depths part').Pairwise (fun d d' => d.finalUpdateId ≤ d'.finalUpdateId)) :
    shownId (lastDepth part) ≤ shownId (lastDepth part') ∧
      ((lastDepth part).isSome → (lastDepth part').isSome) := by
  obtain ⟨rest, rfl⟩ := h
  unfold depths at hids
  rw [List.filterMap_append, List.pairwise_append] at hids
  unfold lastDepth
  rw [List.filterMap_append, List.getLast?_append]
  cases hlast : (rest.filterMap RawMessage.depth?).getLast? with
  | none => simp
  | some d =>
    refine ⟨?_, fun _ => rfl⟩
    cases hfirst : (part.filterMap RawMessage.depth?).getLast? with
    | none => exact Nat.zero_le _
    | some d' =>
      exact hids.2.2 d' (List.mem_of_getLast? hfirst) d (List.mem_of_getLast? hlast)

namespace HyperliquidAdapter

variable {f : F64 φ} {fromStr : String → Except String HyperliquidWsMsg}

/-- The exchange's time of the depth message that is read in this step. -/
def bookTime? (fromStr : String → Except String HyperliquidWsMsg) : Action → Option UInt64
  | .client (.received (.text text)) =>
    match fromStr text with
    | .ok (.l2Book data) => some data.time
    | _ => none
  | _ => none

/-- The times of the depth messages of a run, over all its connections. -/
def bookTimes (fromStr : String → Except String HyperliquidWsMsg) (actions : List Action) :
    List UInt64 :=
  actions.filterMap (bookTime? fromStr)

theorem depth_message {client : WsClient φ} {a : HyperliquidAdapter}
    (hclient : client.adapter = a.exchangeAdapter f fromStr) (action : Action) :
    ((action.message client).bind RawMessage.depth?).map DepthUpdate.finalUpdateId =
      (bookTime? fromStr action).map (fun t => t.saturatingMul 1000000) := by
  cases action with
  | client event =>
    cases event with
    | received incoming =>
      cases incoming with
      | text text =>
        simp only [Action.message, bookTime?, hclient, exchangeAdapter, parseMessage]
        cases fromStr text with
        | error err => rfl
        | ok msg =>
          cases msg with
          | l2Book data => rfl
          | noise => rfl
          | trades data =>
            cases data with
            | nil => rfl
            | cons trade rest =>
              cases htick : tradeTick f trade <;>
                simp [Except.mapError, bind, Except.bind, htick, pure, Except.pure, RawMessage.depth?]
      | _ => rfl
    | _ => rfl
  | _ => rfl

theorem ids_eq {client : WsClient φ} {a : HyperliquidAdapter}
    (hclient : client.adapter = a.exchangeAdapter f fromStr) (actions : List Action) :
    (depths (messages client actions)).map DepthUpdate.finalUpdateId =
      (bookTimes fromStr actions).map (fun t => t.saturatingMul 1000000) := by
  unfold depths messages bookTimes
  rw [List.filterMap_filterMap, List.map_filterMap, List.map_filterMap]
  apply List.filterMap_congr
  intro action _
  exact depth_message hclient action

theorem saturatingMul_mono {t t' : UInt64} (h : t ≤ t') :
    t.saturatingMul 1000000 ≤ t'.saturatingMul 1000000 := by
  rw [UInt64.le_iff_toNat_le] at h ⊢
  rw [UInt64.toNat_saturatingMul, UInt64.toNat_saturatingMul]
  have := Nat.mul_le_mul_right (1000000 : UInt64).toNat h
  omega

theorem ids_forward {client : WsClient φ} {a : HyperliquidAdapter}
    (hclient : client.adapter = a.exchangeAdapter f fromStr) {actions : List Action}
    (htimes : (bookTimes fromStr actions).Pairwise (· ≤ ·)) :
    (depths (messages client actions)).Pairwise (fun d d' => d.finalUpdateId ≤ d'.finalUpdateId) := by
  have h := htimes.map (fun t => t.saturatingMul 1000000) (S := (· ≤ ·))
    (fun _ _ ht => saturatingMul_mono ht)
  rw [← ids_eq hclient, List.pairwise_map] at h
  exact h

end HyperliquidAdapter

namespace Terminal

variable {C W : Type} [Channel C RawMessage] [Watch W (OrderBookView φ)] {pr : Profile} {f : F64 φ}
  {client : WsClient φ} {symbol : String} {s₀ s : Terminal C W} {actions : List Action}
  {answers : List (Option (OrderBookView φ))}
  {fromStr : String → Except String HyperliquidWsMsg} {a : HyperliquidAdapter}

theorem exists_part {R : OrderBookView φ → List RawMessage → Prop} {frames : List (OrderBookView φ)}
    {parts : List (List RawMessage)} (h : List.Forall₂ R frames parts) {view : OrderBookView φ}
    (hview : view ∈ frames) : ∃ part ∈ parts, R view part := by
  induction h with
  | nil => simp at hview
  | @cons first part frames parts hfirst hrest ih =>
    rcases List.mem_cons.mp hview with rfl | hview
    · exact ⟨part, List.mem_cons_self, hfirst⟩
    · obtain ⟨part', hpart', hR⟩ := ih hview
      exact ⟨part', List.mem_cons_of_mem _ hpart', hR⟩

theorem pairwise_of_shows {frames : List (OrderBookView φ)} {parts : List (List RawMessage)}
    {msgs : List RawMessage} {T : OrderBookView φ → OrderBookView φ → Prop}
    (hshows : List.Forall₂ (fun view part => view.Shows f symbol (lastDepth part)) frames parts)
    (hforward : parts.Pairwise (· <+: ·)) (hparts : ∀ part ∈ parts, part <+: msgs)
    (hT : ∀ view view' part part', view.Shows f symbol (lastDepth part) →
      view'.Shows f symbol (lastDepth part') → part <+: part' → part' <+: msgs → T view view') :
    frames.Pairwise T := by
  induction hshows with
  | nil => exact .nil
  | @cons view part frames parts hview hrest ih =>
    rw [List.pairwise_cons] at hforward ⊢
    refine ⟨?_, ih hforward.2 (fun p hp => hparts p (List.mem_cons_of_mem _ hp))⟩
    intro view' hview'
    obtain ⟨part', hpart', hshown⟩ := exists_part hrest hview'
    exact hT view view' part part' hview hshown (hforward.1 part' hpart')
      (hparts part' (List.mem_cons_of_mem _ hpart'))

/-- While the times of the exchange do not go back, neither do the ids on the screen, whatever is
lost between two frames and however often the client connects again. Once a frame says that the
book is synced, all later ones do, also while there is no connection. -/
theorem seq_ids_forward (hclient : client.adapter = a.exchangeAdapter f fromStr)
    (hstart : start client symbol = .ok s₀)
    (hfit : pr = .debug → (messages client actions).length < 2 ^ 64)
    (htimes : (HyperliquidAdapter.bookTimes fromStr actions).Pairwise (· ≤ ·))
    (hrun : s₀.run pr f client symbol actions = .ok (answers, s)) :
    (answers.filterMap id).Pairwise (fun view later =>
      view.lastUpdateId ≤ later.lastUpdateId ∧ (view.isSynced = true → later.isSynced = true)) := by
  obtain ⟨done, parts, -, htrails, -⟩ := run_carries (f := f) hstart hfit hrun
  have hids := HyperliquidAdapter.ids_forward hclient htimes
  apply pairwise_of_shows htrails.shows htrails.forward htrails.prefixes
  intro view view' part part' hview hview' hle hpart
  have hids' : (depths part').Pairwise (fun d d' => d.finalUpdateId ≤ d'.finalUpdateId) :=
    hids.sublist (hpart.sublist.filterMap RawMessage.depth?)
  obtain ⟨hid, hsome⟩ := lastDepth_forward hle hids'
  rw [hview.synced, hview'.synced, UInt64.le_iff_toNat_le, hview.id, hview'.id]
  exact ⟨hid, hsome⟩

/-- Every text is the same depth message. -/
def oneBook (_ : String) : Except String HyperliquidWsMsg :=
  .ok (.l2Book { time := 1700000000000, levels := ([{ px := "100", sz := "2" }], []) })

def hyperliquidClient : WsClient Nat :=
  { bookClient with adapter := (⟨"BTC"⟩ : HyperliquidAdapter).exchangeAdapter decimals oneBook }

theorem seq_ids_forward_twoConnections : ∃ answers s,
    bookTerminal.run .release decimals hyperliquidClient "BTC" twoConnections = .ok (answers, s) ∧
      (answers.filterMap id).Pairwise (fun view later =>
        view.lastUpdateId ≤ later.lastUpdateId ∧ (view.isSynced = true → later.isSynced = true)) := by
  obtain ⟨answers, s, hrun⟩ : ∃ answers s,
      bookTerminal.run .release decimals hyperliquidClient "BTC" twoConnections = .ok (answers, s) :=
    exists_of_isOk (by decide +kernel)
  have hadapter : hyperliquidClient.adapter =
      (⟨"BTC"⟩ : HyperliquidAdapter).exchangeAdapter decimals oneBook := rfl
  have hstart : start hyperliquidClient "BTC" = .ok bookTerminal := rfl
  exact ⟨answers, s, hrun, seq_ids_forward hadapter hstart (fun hpr => by simp at hpr) (by decide) hrun⟩

end Terminal

/-! ## The depth messages as diffs -/

namespace Reconciler

variable {f : F64 φ}

/-- A whole number of milliseconds, in nanoseconds, with room for the next id. -/
def Millis (id : UInt64) : Prop := ∃ t, id.toNat = 1000000 * t ∧ id.toNat < 2 ^ 64 - 1

/-- A depth message of the adapter, passed on as the diff that it is or as a snapshot. -/
def passedOn (f : F64 φ) (asDiff : Bool) (data : L2BookData) : Message :=
  let depth := HyperliquidAdapter.depthUpdate f data
  if asDiff then .diff depth else .snapshot depth.toSnapshot

/-- The two ids of the message are one whole number of milliseconds. -/
def Stamped (d : DepthUpdate) : Prop :=
  d.firstUpdateId = d.finalUpdateId ∧ Millis d.finalUpdateId

theorem stamped_depthUpdate {data : L2BookData} (hfit : data.time.toNat * 1000000 < 2 ^ 64 - 1) :
    Stamped (HyperliquidAdapter.depthUpdate f data) := by
  refine ⟨rfl, data.time.toNat, ?_⟩
  have hid : (data.time.saturatingMul 1000000).toNat = data.time.toNat * 1000000 := by
    rw [UInt64.toNat_saturatingMul]
    exact Nat.min_eq_left (Nat.le_of_lt hfit)
  show (data.time.saturatingMul 1000000).toNat = _ ∧ (data.time.saturatingMul 1000000).toNat < _
  omega

theorem Stamped.not_straddles {d : DepthUpdate} (h : Stamped d) {id : UInt64}
    (hid : Millis id) : ¬ d.Straddles (id.toNat + 1) := by
  obtain ⟨hsame, t, ht, -⟩ := h
  obtain ⟨t', ht', -⟩ := hid
  unfold DepthUpdate.Straddles
  rw [hsame]
  omega

theorem Stamped.not_starts {d : DepthUpdate} (h : Stamped d) {id : UInt64}
    (hid : Millis id) : ¬ d.Starts (id.toNat + 1) := by
  obtain ⟨hsame, t, ht, -⟩ := h
  obtain ⟨t', ht', -⟩ := hid
  unfold DepthUpdate.Starts
  rw [hsame]
  omega

/-- The state after some depth messages: a book is the one of the last message. -/
def LastOnly (ms : List Message) (r : Reconciler) : Prop :=
  match r.state with
  | .buffering queue => ∀ d ∈ queue, Stamped d
  | .synced b => ∃ before S, ms = before ++ [.snapshot S] ∧ b = MarketBook.new.applySnapshot S ∧
      Millis S.lastUpdateId

theorem LastOnly.onMessage {ms : List Message} {r : Reconciler} (h : LastOnly ms r) {d : DepthUpdate}
    (hd : Stamped d) {m : Message} (hm : m = .diff d ∨ m = .snapshot d.toSnapshot) :
    ∃ out r', (∀ pr, r.onMessage pr m = .ok (out, r')) ∧ LastOnly (ms ++ [m]) r' := by
  have hmillis := hd.2
  have hnew : LastOnly (ms ++ [m]) new := by
    intro d' hd'
    simp at hd'
  obtain ⟨state⟩ := r
  cases state with
  | buffering queue =>
    rcases hm with rfl | rfl
    · refine ⟨_, _, fun _ => rfl, ?_⟩
      intro d' hd'
      rcases List.mem_append.mp hd' with hq | hq
      · exact h d' hq
      · exact List.mem_singleton.mp hq ▸ hd
    · by_cases hqueue : queue = []
      · subst hqueue
        exact ⟨_, _, fun _ => rfl, ms, _, rfl, rfl, hmillis⟩
      · have hnil : fromStraddle (d.finalUpdateId.toNat + 1) queue = [] := by
          unfold fromStraddle
          rw [List.dropWhile_eq_nil_iff]
          intro d' hd'
          simpa using (h d' hd').not_straddles hmillis
        have hfit : d.finalUpdateId.toNat + 1 < 2 ^ 64 := by
          obtain ⟨t, -, hlt⟩ := hmillis
          omega
        exact ⟨_, _, fun pr => onSnapshot_tooOld pr hfit hqueue hnil, hnew⟩
  | synced b =>
    obtain ⟨before, S, -, rfl, hS⟩ := h
    rcases hm with rfl | rfl
    · have hfit : S.lastUpdateId.toNat + 1 < 2 ^ 64 := by
        obtain ⟨t, -, hlt⟩ := hS
        omega
      refine ⟨.error (.gapDetected (S.lastUpdateId + 1) d.firstUpdateId), new, fun pr => ?_, hnew⟩
      exact (onDiff_synced pr (b := MarketBook.new.applySnapshot S) hfit d).trans
        (if_neg (hd.not_starts hS))
    · exact ⟨_, _, fun _ => rfl, ms, _, rfl, rfl, hmillis⟩

/-- While their times in nanoseconds stay below the end of `u64`, the adapter's messages never keep a
book as diffs: whichever of them come as diffs and whichever as snapshots, there is a book only right
after a snapshot, and it is the book of that snapshot alone. -/
theorem diffs_never_apply (passed : List (Bool × L2BookData))
    (hfit : ∀ x ∈ passed, x.2.time.toNat * 1000000 < 2 ^ 64 - 1) :
    ∃ outs r, (∀ pr, new.run pr (passed.map fun x => passedOn f x.1 x.2) = .ok (outs, r)) ∧
      ∀ b, r.book = some b →
        ∃ before S, (passed.map fun x => passedOn f x.1 x.2) = before ++ [.snapshot S] ∧
          b = MarketBook.new.applySnapshot S := by
  have hnew : LastOnly [] new := by
    intro d hd
    simp at hd
  have hpassed : ∀ m ∈ passed.map (fun x => passedOn f x.1 x.2),
      ∃ d, Stamped d ∧ (m = .diff d ∨ m = .snapshot d.toSnapshot) := by
    intro m hm
    obtain ⟨x, hx, rfl⟩ := List.mem_map.mp hm
    refine ⟨_, stamped_depthUpdate (f := f) (hfit x hx), ?_⟩
    cases hdiff : x.1 with
    | true => exact Or.inl rfl
    | false => exact Or.inr rfl
  obtain ⟨outs, r, hrun, hlast⟩ := Runs.exec_history (fun ms _ r => LastOnly ms r) _ new
    (fun ms outs r m _ hlast ⟨d, hd, hm⟩ => hlast.onMessage hd hm) hnew _ hpassed
  refine ⟨outs, r, hrun, ?_⟩
  intro b hb
  obtain ⟨state⟩ := r
  cases state with
  | buffering queue => simp [Reconciler.book] at hb
  | synced b' =>
    obtain rfl : b' = b := Option.some.inj hb
    obtain ⟨before, S, hms, hbook, -⟩ := hlast
    exact ⟨before, S, hms, hbook⟩

/-- A snapshot, the next message as a diff, and the one after it as a snapshot again. -/
def mixedMessages : List (Bool × L2BookData) :=
  [(false, { time := 1700000000000, levels := ([], []) }),
   (true, { time := 1700000000001, levels := ([], []) }),
   (false, { time := 1700000000002, levels := ([], []) })]

theorem diffs_never_apply_mixedMessages : ∃ outs r b,
    (∀ pr, new.run pr (mixedMessages.map fun x => passedOn Terminal.decimals x.1 x.2) =
      .ok (outs, r)) ∧
      r.book = some b ∧ b.lastUpdateId = 1700000000002000000 ∧
        ∃ before S, (mixedMessages.map fun x => passedOn Terminal.decimals x.1 x.2) =
          before ++ [.snapshot S] ∧ b = MarketBook.new.applySnapshot S := by
  obtain ⟨outs, r, hrun, hlast⟩ :=
    diffs_never_apply (f := Terminal.decimals) mixedMessages (by decide)
  have hid : Except.map (fun x => x.2.book.map MarketBook.lastUpdateId) (new.run .debug
      (mixedMessages.map fun x => passedOn Terminal.decimals x.1 x.2)) =
      .ok (some 1700000000002000000) := by decide +kernel
  rw [hrun] at hid
  obtain ⟨b, hb, hlastId⟩ := Option.map_eq_some_iff.mp (Except.ok.inj hid)
  exact ⟨outs, r, b, hrun, hb, hlastId, hlast b hb⟩

end Reconciler

end Ordust
