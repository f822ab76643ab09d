import Ordust.TerminalSteps
import Ordust.LastMention

/-!
# The feed, from the socket to the screen

However the three tasks take turns: each message that the client makes of a text reaches the
background task once and in order, and the screen shows the last depth message of those that
have arrived.
-/

namespace Ordust

variable {φ : Type}

/-! ## What was sent, and what it should look like -/

/-- The message that the client makes of the text that it reads in this step, if it does. -/
def Action.message (client : WsClient φ) : Action → Option RawMessage
  | .client (.received (.text text)) =>
    match client.adapter.parseMessage text with
    | .ok rawMsg => rawMsg
    | .error _ => none
  | _ => none

/-- The messages of a run, over all its connections. -/
def messages (client : WsClient φ) (actions : List Action) : List RawMessage :=
  actions.filterMap (Action.message client)

def RawMessage.depth? : RawMessage → Option DepthUpdate
  | .diff depth => some depth
  | .trade _ => none

def lastDepth (msgs : List RawMessage) : Option DepthUpdate :=
  (msgs.filterMap RawMessage.depth?).getLast?

/-- The last of the entries for this price with a quantity has this quantity. -/
def DepthUpdate.Quotes (d : DepthUpdate) (s : Side) (p : Price) (n : Qty) : Prop :=
  lastFor p ((d.entries s).filter (fun e => 0 < e.2.val)) = some n

/-- The view shows this depth message and nothing else: at most twenty levels a side, the best of
those that it quotes. Before the first one it is empty. -/
def OrderBookView.Shows (f : F64 φ) (symbol : String) (view : OrderBookView φ) :
    Option DepthUpdate → Prop
  | none => view = .default symbol
  | some d => view.symbol = symbol ∧ view.isSynced = true ∧ view.lastUpdateId = d.finalUpdateId ∧
      ∃ bids asks, ListsBest .buy 20 (d.Quotes .buy) bids ∧
        ListsBest .sell 20 (d.Quotes .sell) asks ∧
        view.bids = Background.toFloats f bids ∧ view.asks = Background.toFloats f asks

/-- The message that waits for room in the channel. -/
def ClientTask.inFlight (task : ClientTask) : List RawMessage :=
  match task.phase with
  | .sending rawMsg => [rawMsg]
  | _ => []

namespace BackgroundTask

/-- The message that was received and not yet published. -/
def inHand : BackgroundTask → List RawMessage
  | .receiving _ => []
  | .handling _ msg => [msg]
  | .done => []

def state : BackgroundTask → Option Background
  | .receiving b => some b
  | .handling b _ => some b
  | .done => none

end BackgroundTask

@[simp] theorem messages_snoc (client : WsClient φ) (actions : List Action) (action : Action) :
    messages client (actions ++ [action]) =
      messages client actions ++ (action.message client).toList := by
  unfold messages
  rw [List.filterMap_append]
  cases h : action.message client <;> simp [h]

@[simp] theorem lastDepth_diff (msgs : List RawMessage) (d : DepthUpdate) :
    lastDepth (msgs ++ [.diff d]) = some d := by
  simp [lastDepth, RawMessage.depth?]

@[simp] theorem lastDepth_trade (msgs : List RawMessage) (t : TradeTick) :
    lastDepth (msgs ++ [.trade t]) = lastDepth msgs := by
  simp [lastDepth, RawMessage.depth?]

/-! ## The background task -/

def DepthUpdate.toSnapshot (d : DepthUpdate) : Snapshot :=
  { lastUpdateId := d.finalUpdateId, bids := d.bids, asks := d.asks }

namespace Background

/-- The reconciler after the last depth message. -/
def reconcilerAfter : Option DepthUpdate → Reconciler
  | none => Reconciler.new
  | some d => ⟨.synced (MarketBook.new.applySnapshot d.toSnapshot)⟩

theorem onSnapshot_after (pr : Profile) (last : Option DepthUpdate) (d : DepthUpdate) :
    (reconcilerAfter last).onSnapshot pr d.toSnapshot = .ok (.ok (), reconcilerAfter (some d)) := by
  cases last with
  | none => rfl
  | some d' => rfl

theorem level_after (d : DepthUpdate) (s : Side) (p : Price) (n : Qty) :
    (MarketBook.new.applySnapshot d.toSnapshot).level (s, p) = some n ↔ d.Quotes s p n := by
  rw [MarketBook.level_applySnapshot]
  cases s <;> exact Iff.rfl

theorem depth_after (d : DepthUpdate) (s : Side) :
    ListsBest s 20 (d.Quotes s) ((MarketBook.new.applySnapshot d.toSnapshot).depth s 20) := by
  rw [MarketBook.depth_eq]
  apply (ListsBest.take (MarketBook.listing_sorted _ s) 20).congr
  intro p n
  rw [MarketBook.mem_listing, level_after]

theorem shows_view (f : F64 φ) (symbol : String) (d : DepthUpdate) :
    (view f symbol (reconcilerAfter (some d))).Shows f symbol (some d) :=
  ⟨rfl, rfl, rfl, _, _, depth_after d .buy, depth_after d .sell, rfl, rfl⟩

/-- What the task is like after these messages, the counter of the log lines included. -/
structure After (done : List RawMessage) (b : Background) : Prop where
  reconciler : b.reconciler = reconcilerAfter (lastDepth done)
  counter : b.msgCounter.toNat = done.length % 2 ^ 64

theorem After.new : After [] Background.new := ⟨rfl, rfl⟩

/-- A message never fails, unless a debug build has counted up to the end of `u64`. -/
theorem After.onMessage {done : List RawMessage} {self : Background} (h : After done self)
    {pr : Profile} (f : F64 φ) (symbol : String) (msg : RawMessage)
    (hfit : pr = .debug → done.length + 1 < 2 ^ 64) :
    ∃ shown self', self.onMessage pr f symbol msg = .ok (shown, self') ∧
      After (done ++ [msg]) self' ∧
      ∀ before : OrderBookView φ, before.Shows f symbol (lastDepth done) →
        (shown.getD before).Shows f symbol (lastDepth (done ++ [msg])) := by
  have hadd : pr.add self.msgCounter 1 = .ok (self.msgCounter + 1) := by
    cases pr with
    | release => rfl
    | debug =>
      apply Profile.add_one_ok
      rw [h.counter, Nat.mod_eq_of_lt] <;> have := hfit rfl <;> omega
  have hcount : (self.msgCounter + 1).toNat = (done ++ [msg]).length % 2 ^ 64 := by
    rw [UInt64.toNat_add, h.counter, List.length_append, UInt64.toNat_one, Nat.mod_add_mod]
    rfl
  cases msg with
  | diff d =>
    have hsnap := onSnapshot_after pr (lastDepth done) d
    rw [← h.reconciler] at hsnap
    refine ⟨some (view f symbol (reconcilerAfter (some d))),
      ⟨reconcilerAfter (some d), self.msgCounter + 1⟩, ?_, ⟨?_, hcount⟩, ?_⟩
    · simp only [Background.onMessage, hadd, Checked.ok_bind]
      change (self.reconciler.onSnapshot pr d.toSnapshot >>= _) = _
      rw [hsnap]
      rfl
    · rw [lastDepth_diff]
    · intro before _
      rw [lastDepth_diff]
      exact shows_view f symbol d
  | trade t =>
    refine ⟨none, { self with msgCounter := self.msgCounter + 1 }, ?_, ⟨?_, hcount⟩, ?_⟩
    · simp only [Background.onMessage, hadd, Checked.ok_bind]
      rfl
    · rw [lastDepth_trade]
      exact h.reconciler
    · intro before hbefore
      rw [lastDepth_trade]
      exact hbefore

end Background

/-! ## The client and the channel -/

namespace WsClient

variable {f : F64 φ} {client : WsClient φ} {task task' : ClientTask} {event : ClientEvent}

theorem Goes.not_done (h : client.Goes f task event task') : task.phase ≠ .done := by
  cases h <;> simp

theorem Goes.inFlight (h : client.Goes f task event task') (hfree : Terminal.Free event) :
    task.inFlight = [] ∧
      task'.inFlight = ((Action.client event).message client).toList := by
  cases h with
  | sent rawMsg b ok => exact absurd rfl (hfree ok)
  | received b incoming =>
    refine ⟨rfl, ?_⟩
    cases incoming with
    | text text =>
      simp only [onIncoming, Action.message]
      cases client.adapter.parseMessage text with
      | error err => rfl
      | ok rawMsg => cases rawMsg <;> rfl
    | _ => rfl
  | _ => exact ⟨rfl, rfl⟩

end WsClient

namespace Terminal

open Channel Watch

variable {C W : Type} [Channel C RawMessage]

@[simp] theorem clientGoes_client (s : Terminal C W) (task : ClientTask) (c : C) :
    (s.clientGoes task c).client = task := rfl

@[simp] theorem clientGoes_background (s : Terminal C W) (task : ClientTask) (c : C) :
    (s.clientGoes task c).background = s.background := rfl

@[simp] theorem clientGoes_shown (s : Terminal C W) (task : ClientTask) (c : C) :
    (s.clientGoes task c).shown = s.shown := rfl

@[simp] theorem clientGoes_queue (s : Terminal C W) (task : ClientTask) (c : C) :
    queue (s.clientGoes task c).channel = queue c := by
  unfold clientGoes
  dsimp only
  split <;> simp

@[simp] theorem clientGoes_capacity (s : Terminal C W) (task : ClientTask) (c : C) :
    capacity (s.clientGoes task c).channel = capacity c := by
  unfold clientGoes
  dsimp only
  split <;> simp

@[simp] theorem clientGoes_receiverGone (s : Terminal C W) (task : ClientTask) (c : C) :
    receiverGone (s.clientGoes task c).channel = receiverGone c := by
  unfold clientGoes
  dsimp only
  split <;> simp

theorem clientGoes_senderGone (s : Terminal C W) (task : ClientTask) (c : C)
    (hc : senderGone c = false) (h : senderGone (s.clientGoes task c).channel = true) :
    task.phase = .done := by
  unfold clientGoes at h
  dsimp only at h
  split at h
  · assumption
  · rw [hc] at h
    simp at h

/-! ## The invariant -/

variable [Watch W (OrderBookView φ)]

/-- After a run the background task has got through `done`. -/
structure Carries (f : F64 φ) (client : WsClient φ) (symbol : String) (actions : List Action)
    (s : Terminal C W) (done : List RawMessage) : Prop where
  delivered : messages client actions =
    done ++ s.background.inHand ++ queue s.channel ++ s.client.inFlight
  capacity : capacity s.channel = client.channelCapacity
  shown : (value s.shown).Shows f symbol (lastDepth done)
  state : ∀ b ∈ s.background.state, b.After done
  /-- It ends when there is nothing left to come, and for no other reason. -/
  ends : s.background = .done → s.client.phase = .done ∧ queue s.channel = []
  receiver : receiverGone s.channel = true → s.background = .done
  sender : senderGone s.channel = true → s.client.phase = .done

section Step

variable {pr : Profile} {f : F64 φ} {client : WsClient φ} {symbol : String} {s s' : Terminal C W}
  {actions : List Action} {done : List RawMessage}

theorem Carries.senderGone (h : Carries f client symbol actions s done)
    (hphase : s.client.phase ≠ .done) : senderGone s.channel = false := by
  rw [← Bool.not_eq_true]
  exact fun hc => hphase (h.sender hc)

theorem Carries.alive (h : Carries f client symbol actions s done)
    (hphase : s.client.phase ≠ .done) : s.background ≠ .done :=
  fun hover => hphase (h.ends hover).1

theorem Carries.receiverGone (h : Carries f client symbol actions s done)
    (hat : s.background ≠ .done) : receiverGone s.channel = false := by
  rw [← Bool.not_eq_true]
  exact fun hc => hat (h.receiver hc)

theorem Carries.quiet (h : Carries f client symbol actions s done) {action : Action}
    (hnone : action.message client = none) :
    messages client (actions ++ [action]) =
      done ++ s.background.inHand ++ queue s.channel ++ s.client.inFlight := by
  rw [messages_snoc, hnone, h.delivered]
  exact List.append_nil _

theorem Carries.goes (h : Carries f client symbol actions s done) {event : ClientEvent}
    {task : ClientTask} (hfree : Free event) (hgoes : client.Goes f s.client event task) :
    Carries f client symbol (actions ++ [.client event]) (s.clientGoes task s.channel) done where
  delivered := by
    obtain ⟨hbefore, hafter⟩ := hgoes.inFlight hfree
    rw [messages_snoc, h.delivered, hbefore, List.append_nil, clientGoes_queue, clientGoes_client,
      hafter, clientGoes_background]
  capacity := by rw [clientGoes_capacity, h.capacity]
  shown := h.shown
  state := h.state
  ends hover := absurd hover (h.alive hgoes.not_done)
  receiver hc := h.receiver (by rwa [clientGoes_receiverGone] at hc)
  sender := clientGoes_senderGone _ _ _ (h.senderGone hgoes.not_done)

theorem Carries.sent (h : Carries f client symbol actions s done) {rawMsg : RawMessage}
    {b : Duration} {channel : C} (hat : s.client = ⟨.sending rawMsg, b⟩)
    (hsend : Channel.send s.channel rawMsg = some (true, channel)) :
    Carries f client symbol (actions ++ [.client (.sent true)])
      (s.clientGoes ⟨.reading, b⟩ channel) done := by
  obtain ⟨-, hqueue, hcap, hsender, hreceiver⟩ := send_taken _ _ _ hsend
  have hphase : s.client.phase ≠ .done := by rw [hat]; simp
  refine ⟨?_, ?_, h.shown, h.state, ?_, ?_, ?_⟩
  · rw [h.quiet rfl, clientGoes_background, clientGoes_queue, hqueue, hat]
    simp [ClientTask.inFlight]
  · rw [clientGoes_capacity, hcap, h.capacity]
  · exact fun hover => absurd hover (h.alive hphase)
  · intro hc
    rw [clientGoes_receiverGone, hreceiver] at hc
    exact h.receiver hc
  · exact clientGoes_senderGone _ _ _ (hsender.trans (h.senderGone hphase))

theorem Carries.received (h : Carries f client symbol actions s done) {b : Background}
    {msg : RawMessage} {channel : C} (hat : s.background = .receiving b)
    (hrecv : Channel.recv s.channel = some (some msg, channel)) :
    Carries f client symbol (actions ++ [.recv])
      { s with background := .handling b msg, channel := channel } done := by
  obtain ⟨hqueue, hcap, hsender, hreceiver⟩ := recv_some _ _ _ hrecv
  refine ⟨?_, hcap.trans h.capacity, h.shown, ?_, ?_, ?_, ?_⟩
  · rw [h.quiet rfl, hqueue, hat]
    simp [BackgroundTask.inHand]
  · intro b' hb'
    refine h.state b' ?_
    rw [hat]
    exact hb'
  · intro hover
    simp at hover
  · intro hc
    have := h.receiver (hreceiver.symm.trans hc)
    rw [hat] at this
    simp at this
  · exact fun hc => h.sender (hsender.symm.trans hc)

/-- What the background task has in hand never makes it panic. -/
theorem Carries.published (h : Carries f client symbol actions s done) {b : Background}
    {msg : RawMessage} (hfit : pr = .debug → (messages client actions).length < 2 ^ 64)
    (hat : s.background = .handling b msg) :
    ∃ (view : Option (OrderBookView φ)) (b' : Background),
      b.onMessage pr f symbol msg = .ok (view, b') ∧
      Carries f client symbol (actions ++ [.publish])
        { s with background := .receiving b', shown := view.elim s.shown (Watch.send s.shown) }
        (done ++ [msg]) := by
  have hb : b.After done := h.state b (by rw [hat]; rfl)
  have hroom : pr = .debug → done.length + 1 < 2 ^ 64 := by
    intro hpr
    have hlen := hfit hpr
    rw [h.delivered, hat] at hlen
    simp only [List.length_append, BackgroundTask.inHand, List.length_singleton] at hlen
    omega
  obtain ⟨view, b', hmsg, hafter, hshown⟩ := hb.onMessage f symbol msg hroom
  refine ⟨view, b', hmsg, ?_, h.capacity, ?_, ?_, ?_, ?_, h.sender⟩
  · rw [h.quiet rfl, hat]
    simp [BackgroundTask.inHand]
  · have := hshown _ h.shown
    cases view with
    | none => exact this
    | some view =>
      show (value (Watch.send s.shown view)).Shows f symbol _
      rw [value_send]
      exact this
  · intro b₁ hb₁
    obtain rfl : b' = b₁ := Option.some.inj hb₁
    exact hafter
  · intro hover
    simp at hover
  · intro hc
    have := h.receiver hc
    rw [hat] at this
    simp at this

theorem Carries.step (h : Carries f client symbol actions s done) {action : Action}
    {frame : Option (OrderBookView φ)}
    (hfit : pr = .debug → (messages client actions).length < 2 ^ 64)
    (hmoves : Moves pr f client symbol s action frame s') :
    ∃ done', Carries f client symbol (actions ++ [action]) s' done' ∧ done <+: done' ∧
      ∀ view ∈ frame, view.Shows f symbol (lastDepth done) := by
  cases hmoves with
  | client hfree hgoes =>
    exact ⟨done, h.goes hfree hgoes, List.prefix_refl _, by simp⟩
  | @sent rawMsg b channel ok hat hsend =>
    cases ok with
    | true => exact ⟨done, h.sent hat hsend, List.prefix_refl _, by simp⟩
    | false =>
      -- Nobody to receive, but then the client would be over too.
      have hgone := h.receiver (send_refused _ _ _ hsend)
      exact absurd hgone (h.alive (by rw [hat]; simp))
  | received hat hrecv =>
    exact ⟨done, h.received hat hrecv, List.prefix_refl _, by simp⟩
  | @ended b channel hat hrecv =>
    obtain ⟨hqueue, hgone, hqueue', hcap, hsender⟩ := recv_none _ _ hrecv
    have hover := h.sender hgone
    have hnil := queue_dropReceiver_nil hqueue'
    refine ⟨done, ⟨?_, ?_, ?_, ?_, ?_, fun _ => rfl, fun _ => hover⟩, List.prefix_refl _, by simp⟩
    · rw [h.quiet rfl, hqueue, hat]
      simp [BackgroundTask.inHand, backgroundEnds, hnil]
    · exact (capacity_dropReceiver channel).trans (hcap.trans h.capacity)
    · show (value (Watch.dropSender s.shown)).Shows f symbol _
      rw [value_dropSender]
      exact h.shown
    · simp [backgroundEnds, BackgroundTask.state]
    · exact fun _ => ⟨hover, hnil⟩
  | @published b b' msg view hat hmsg =>
    obtain ⟨view', b₁, hmsg', hnext⟩ := h.published hfit hat
    rw [hmsg] at hmsg'
    obtain ⟨rfl, rfl⟩ := Prod.mk.inj (Except.ok.inj hmsg')
    exact ⟨done ++ [msg], hnext, List.prefix_append _ _, by simp⟩
  | @panicked b msg p hat hmsg =>
    obtain ⟨view', b₁, hmsg', -⟩ := h.published hfit hat
    rw [hmsg] at hmsg'
    simp at hmsg'
  | tick =>
    refine ⟨done, ⟨h.quiet rfl, h.capacity, ?_, h.state, h.ends, h.receiver, h.sender⟩,
      List.prefix_refl _, ?_⟩
    · show (value (Watch.borrowAndUpdate s.shown).2).Shows f symbol _
      rw [value_borrowAndUpdate]
      exact h.shown
    · intro view hview
      obtain rfl := Option.some.inj hview
      rw [borrowAndUpdate_fst]
      exact h.shown
  | key quit =>
    exact ⟨done, ⟨h.quiet rfl, h.capacity, h.shown, h.state, h.ends, h.receiver, h.sender⟩,
      List.prefix_refl _, by simp⟩

end Step

end Terminal

end Ordust
