import Ordust.Feed

/-!
# What the screen shows over a whole run

The frames go through the depth messages in order, with some left out, and are never more behind
than the channel is long, with one message on each side of it.
-/

namespace Ordust

variable {φ : Type}

/-- How many messages had been read at each frame. -/
def readAt (client : WsClient φ) (n : Nat) : List Action → List Nat
  | [] => []
  | action :: actions =>
    (if action = .tick then [n] else []) ++
      readAt client (n + (action.message client).toList.length) actions

theorem messages_cons (client : WsClient φ) (action : Action) (actions : List Action) :
    messages client (action :: actions) =
      (action.message client).toList ++ messages client actions := by
  unfold messages
  rw [List.filterMap_cons]
  cases action.message client <;> rfl

theorem readAt_snoc (client : WsClient φ) (n : Nat) (actions : List Action) (action : Action) :
    readAt client n (actions ++ [action]) = readAt client n actions ++
      if action = .tick then [n + (messages client actions).length] else [] := by
  induction actions generalizing n with
  | nil => simp [readAt, messages]
  | cons first actions ih =>
    rw [List.cons_append, readAt, readAt, ih, messages_cons, List.length_append, List.append_assoc,
      Nat.add_assoc]

namespace Terminal

open Channel Watch

variable {C W : Type} [Channel C RawMessage] [Watch W (OrderBookView φ)] {pr : Profile} {f : F64 φ}
  {client : WsClient φ} {symbol : String} {s₀ s s' : Terminal C W}
  {actions : List Action} {answers : List (Option (OrderBookView φ))}

/-- Each frame shows the last depth message of a first part of the messages. The parts get no
shorter, and end at most `slack` messages before what had been read. -/
structure Trails (f : F64 φ) (client : WsClient φ) (symbol : String) (slack : Nat)
    (actions : List Action) (frames : List (OrderBookView φ)) (parts : List (List RawMessage)) :
    Prop where
  shows : List.Forall₂ (fun view part => view.Shows f symbol (lastDepth part)) frames parts
  prefixes : ∀ part ∈ parts, part <+: messages client actions
  forward : parts.Pairwise (· <+: ·)
  timely : List.Forall₂ (fun part n => part.length ≤ n ∧ n ≤ part.length + slack) parts
    (readAt client 0 actions)

theorem carries_start (hstart : start client symbol = .ok s₀) :
    Carries f client symbol [] s₀ [] ∧ 0 < client.channelCapacity ∧ s₀.running = true ∧
      s₀.client = ⟨.connecting, client.backoff.minBackoff⟩ := by
  unfold start WsClient.connectAndSpawn at hstart
  split at hstart
  · simp at hstart
  · next hpos =>
    obtain rfl := Except.ok.inj hstart
    refine ⟨⟨?_, capacity_new _, ?_, ?_, ?_, ?_, ?_⟩, Nat.pos_of_ne_zero hpos, rfl, rfl⟩
    · simp [messages, BackgroundTask.inHand, ClientTask.inFlight]
    · exact value_channel _
    · intro b hb
      obtain rfl := Option.some.inj hb
      exact .new
    · intro hover
      simp at hover
    · simp
    · simp

/-- A frame is no more behind than what is on its way. -/
theorem Carries.behind {done : List RawMessage} (h : Carries f client symbol actions s done) :
    done.length ≤ (messages client actions).length ∧
      (messages client actions).length ≤ done.length + (client.channelCapacity + 2) := by
  have hhand : s.background.inHand.length ≤ 1 := by
    unfold BackgroundTask.inHand
    split <;> simp
  have hwait : s.client.inFlight.length ≤ 1 := by
    unfold ClientTask.inFlight
    split <;> simp
  have hbound := bounded s.channel
  rw [h.capacity] at hbound
  rw [h.delivered]
  simp only [List.length_append]
  omega

section Trails

variable {slack : Nat} {frames : List (OrderBookView φ)} {parts : List (List RawMessage)}

theorem Trails.nil : Trails f client symbol slack [] [] [] :=
  ⟨.nil, by simp, .nil, .nil⟩

theorem Trails.quiet (h : Trails f client symbol slack actions frames parts) {action : Action}
    (hne : action ≠ .tick) : Trails f client symbol slack (actions ++ [action]) frames parts where
  shows := h.shows
  prefixes := by
    intro part hpart
    rw [messages_snoc]
    exact (h.prefixes part hpart).trans (List.prefix_append _ _)
  forward := h.forward
  timely := by
    rw [readAt_snoc, if_neg hne, List.append_nil]
    exact h.timely

theorem Trails.tick (h : Trails f client symbol slack actions frames parts)
    {done : List RawMessage} {view : OrderBookView φ} (hparts : ∀ part ∈ parts, part <+: done)
    (hdone : done <+: messages client actions)
    (hslack : (messages client actions).length ≤ done.length + slack)
    (hview : view.Shows f symbol (lastDepth done)) :
    Trails f client symbol slack (actions ++ [.tick]) (frames ++ [view]) (parts ++ [done]) where
  shows := List.rel_append h.shows (.cons hview .nil)
  prefixes := by
    intro part hpart
    have hsame : messages client (actions ++ [.tick]) = messages client actions := by
      rw [messages_snoc]
      exact List.append_nil _
    rw [hsame]
    rcases List.mem_append.mp hpart with hpart | hpart
    · exact h.prefixes part hpart
    · exact List.mem_singleton.mp hpart ▸ hdone
  forward := by
    rw [List.pairwise_append]
    refine ⟨h.forward, List.pairwise_singleton _ _, ?_⟩
    intro part hpart part' hpart'
    exact List.mem_singleton.mp hpart' ▸ hparts part hpart
  timely := by
    rw [readAt_snoc, if_pos rfl, Nat.zero_add]
    exact List.rel_append h.timely (.cons ⟨hdone.length_le, hslack⟩ .nil)

end Trails

/-- The invariant, for every way the tasks can take turns. -/
theorem run_carries (hstart : start client symbol = .ok s₀)
    (hfit : pr = .debug → (messages client actions).length < 2 ^ 64)
    (hrun : s₀.run pr f client symbol actions = .ok (answers, s)) :
    ∃ done parts, Carries f client symbol actions s done ∧
      Trails f client symbol (client.channelCapacity + 2) actions (answers.filterMap id) parts ∧
      ∀ part ∈ parts, part <+: done := by
  obtain ⟨hcarries, -⟩ := carries_start (f := f) hstart
  refine Runs.exec_keeps (fun actions answers s =>
    (pr = .debug → (messages client actions).length < 2 ^ 64) →
    ∃ done parts, Carries f client symbol actions s done ∧
      Trails f client symbol (client.channelCapacity + 2) actions (answers.filterMap id) parts ∧
      ∀ part ∈ parts, part <+: done) ?_ ?_ hrun hfit
  · intro _
    exact ⟨[], [], hcarries, .nil, by simp⟩
  · intro actions answers s action frame s' _ ih hstep hfit
    have hlen : (messages client actions).length ≤
        (messages client (actions ++ [action])).length := by
      rw [messages_snoc, List.length_append]
      exact Nat.le_add_right _ _
    obtain ⟨done, parts, hcarries, htrails, hparts⟩ := ih (fun hpr => by have := hfit hpr; omega)
    have hmoves := step_moves hstep
    obtain ⟨done', hcarries', hprefix, hframe⟩ :=
      hcarries.step (fun hpr => by have := hfit hpr; omega) hmoves
    by_cases htick : action = .tick
    · subst htick
      cases hmoves with
      | tick =>
        refine ⟨done', parts ++ [done], hcarries', ?_, ?_⟩
        · rw [List.filterMap_append]
          refine htrails.tick hparts ?_ hcarries.behind.2 (hframe _ rfl)
          rw [hcarries.delivered, List.append_assoc, List.append_assoc]
          exact List.prefix_append _ _
        · intro part hpart
          rcases List.mem_append.mp hpart with hpart | hpart
          · exact (hparts part hpart).trans hprefix
          · exact List.mem_singleton.mp hpart ▸ hprefix
    · have hnone : frame = none := by
        cases hmoves with
        | tick => exact absurd rfl htick
        | _ => rfl
      refine ⟨done', parts, hcarries', ?_, fun part hpart => (hparts part hpart).trans hprefix⟩
      rw [List.filterMap_append, hnone]
      simpa using htrails.quiet htick

/-- In whatever order the tasks take their steps, and over any number of connections: the messages
made of the texts that were read are those that the background task is done with, the one that it
has in hand, those in the channel and the one that waits for room, in this order. No more than fit
are in the channel, the screen shows the last depth message that is done, and the background task
ends only when the client is over and everything is done. -/
theorem feed_delivers (hstart : start client symbol = .ok s₀)
    (hfit : pr = .debug → (messages client actions).length < 2 ^ 64)
    (hrun : s₀.run pr f client symbol actions = .ok (answers, s)) :
    ∃ done, messages client actions =
        done ++ s.background.inHand ++ queue s.channel ++ s.client.inFlight ∧
      (queue s.channel).length ≤ client.channelCapacity ∧
      (value s.shown).Shows f symbol (lastDepth done) ∧
      (∀ b ∈ s.background.state, b.After done) ∧
      (s.background = .done → s.client.phase = .done ∧ done = messages client actions) := by
  obtain ⟨done, parts, hcarries, -⟩ := run_carries (f := f) hstart hfit hrun
  refine ⟨done, hcarries.delivered, ?_, hcarries.shown, hcarries.state, ?_⟩
  · rw [← hcarries.capacity]
    exact bounded s.channel
  · intro hover
    obtain ⟨hphase, hqueue⟩ := hcarries.ends hover
    refine ⟨hphase, ?_⟩
    rw [hcarries.delivered, hover, hqueue, ClientTask.inFlight, hphase]
    simp [BackgroundTask.inHand]

/-- The frames go through the messages in order: each one shows the last depth message of a first
part of them, the parts get no shorter, and each ends at most the capacity of the channel and two
messages before what had been read when the view of the frame was taken. -/
theorem frames_trail (hstart : start client symbol = .ok s₀)
    (hfit : pr = .debug → (messages client actions).length < 2 ^ 64)
    (hrun : s₀.run pr f client symbol actions = .ok (answers, s)) :
    ∃ parts, Trails f client symbol (client.channelCapacity + 2) actions (answers.filterMap id)
      parts := by
  obtain ⟨done, parts, -, htrails, -⟩ := run_carries (f := f) hstart hfit hrun
  exact ⟨parts, htrails⟩

/-! ## Catching up -/

theorem step_received (hrunning : s.running = true) {b : Background} {msg : RawMessage} {channel : C}
    (hat : s.background = .receiving b) (hrecv : Channel.recv s.channel = some (some msg, channel)) :
    s.step pr f client symbol .recv =
      .ok (none, { s with background := .handling b msg, channel := channel }) := by
  simp [step, stepRecv, quietly, hrunning, hat, hrecv]

theorem step_published (hrunning : s.running = true) {b b' : Background} {msg : RawMessage}
    {view : Option (OrderBookView φ)} (hat : s.background = .handling b msg)
    (hmsg : b.onMessage pr f symbol msg = .ok (view, b')) :
    s.step pr f client symbol .publish = .ok (none, { s with
      background := .receiving b', shown := view.elim s.shown (Watch.send s.shown) }) := by
  simp [step, stepPublish, quietly, hrunning, hat, hmsg]

theorem step_sent (hrunning : s.running = true) {rawMsg : RawMessage} {d : Duration}
    {channel : C} (hat : s.client = ⟨.sending rawMsg, d⟩)
    (hsend : Channel.send s.channel rawMsg = some (true, channel)) :
    s.step pr f client symbol (.client (.sent true)) =
      .ok (none, s.clientGoes ⟨.reading, d⟩ channel) := by
  simp [step, stepClient, quietly, WsClient.advance, hrunning, hat, hsend]

theorem messages_append_quiet {more : List Action} (h : ∀ a ∈ more, a.message client = none) :
    messages client (actions ++ more) = messages client actions := by
  unfold messages
  rw [List.filterMap_append, List.filterMap_eq_nil_iff.mpr h, List.append_nil]

/-- Some steps after a run, each of which moves a message on and draws nothing, and where they
lead. -/
structure Settles (pr : Profile) (f : F64 φ) (client : WsClient φ) (symbol : String)
    (actions : List Action) (s : Terminal C W) (more : List Action) (s' : Terminal C W)
    (done : List RawMessage) : Prop where
  moves : ∀ a ∈ more, a = .recv ∨ a = .publish ∨ a = .client (.sent true)
  run : s.run pr f client symbol more = .ok (List.replicate more.length none, s')
  carries : Carries f client symbol (actions ++ more) s' done
  running : s'.running = true

section Settles

variable {done done' : List RawMessage} {more more' : List Action} {s'' : Terminal C W}

theorem Settles.nil (h : Carries f client symbol actions s done) (hrunning : s.running = true) :
    Settles pr f client symbol actions s [] s done :=
  ⟨by simp, rfl, by simpa using h, hrunning⟩

theorem Settles.messages (h : Settles pr f client symbol actions s more s' done) :
    messages client (actions ++ more) = messages client actions := by
  apply messages_append_quiet
  intro a ha
  rcases h.moves a ha with rfl | rfl | rfl <;> rfl

theorem Settles.append (h : Settles pr f client symbol actions s more s' done)
    (h' : Settles pr f client symbol (actions ++ more) s' more' s'' done') :
    Settles pr f client symbol actions s (more ++ more') s'' done' where
  moves a ha := (List.mem_append.mp ha).elim (h.moves a) (h'.moves a)
  run := by
    rw [List.length_append, List.replicate_add]
    exact Runs.exec_append_ok h.run h'.run
  carries := by
    rw [← List.append_assoc]
    exact h'.carries
  running := h'.running

theorem Settles.step {action : Action}
    (hmoves : action = .recv ∨ action = .publish ∨ action = .client (.sent true))
    (hstep : s.step pr f client symbol action = .ok (none, s'))
    (hcarries : Carries f client symbol (actions ++ [action]) s' done) (hrunning : s'.running = true) :
    Settles pr f client symbol actions s [action] s' done :=
  ⟨by simpa using hmoves, Runs.exec_cons_ok hstep rfl, hcarries, hrunning⟩

theorem Carries.publish (h : Carries f client symbol actions s done)
    (hfit : pr = .debug → (messages client actions).length < 2 ^ 64) (hrunning : s.running = true)
    {b : Background} {msg : RawMessage} (hat : s.background = .handling b msg) :
    ∃ s' b', Settles pr f client symbol actions s [.publish] s' (done ++ [msg]) ∧
      s'.background = .receiving b' ∧ s'.channel = s.channel ∧ s'.client = s.client := by
  obtain ⟨view, b', hmsg, hnext⟩ := h.published hfit hat
  exact ⟨_, b', .step (by simp) (step_published hrunning hat hmsg) hnext hrunning, rfl, rfl, rfl⟩

/-- While nothing new is read, the background task empties the channel, with two steps for each
message. -/
theorem Carries.drain (h : Carries f client symbol actions s done)
    (hfit : pr = .debug → (messages client actions).length < 2 ^ 64) (hrunning : s.running = true)
    {b : Background} (hat : s.background = .receiving b) {n : Nat}
    (hn : (queue s.channel).length = n) :
    ∃ more s' b', Settles pr f client symbol actions s more s' (done ++ queue s.channel) ∧
      more.count .recv = n ∧ more.count .publish = n ∧ more.count (.client (.sent true)) = 0 ∧
      queue s'.channel = [] ∧ s'.client = s.client ∧ s'.background = .receiving b' := by
  induction n generalizing s done actions b with
  | zero =>
    have hqueue := List.eq_nil_of_length_eq_zero hn
    rw [hqueue, List.append_nil]
    exact ⟨[], s, b, .nil h hrunning, rfl, rfl, rfl, hqueue, rfl, hat⟩
  | succ n ih =>
    obtain ⟨msg, rest, hqueue⟩ := List.exists_cons_of_length_eq_add_one hn
    obtain ⟨channel, hrecv⟩ := recv_cons _ _ _ hqueue
    have hrest := (recv_some _ _ _ hrecv).1
    have hreceived : Settles pr f client symbol actions s [.recv]
        { s with background := .handling b msg, channel := channel } done :=
      .step (by simp) (step_received hrunning hat hrecv) (h.received hat hrecv) hrunning
    obtain ⟨s₁, b₁, hpublished, hat₁, hchannel₁, hclient₁⟩ :=
      hreceived.carries.publish (by rw [hreceived.messages]; exact hfit) hrunning rfl
    have hboth := hreceived.append hpublished
    have hn₁ : (queue s₁.channel).length = n := by
      rw [hchannel₁]
      rw [hrest, List.length_cons] at hn
      exact Nat.succ_injective hn
    obtain ⟨more, s', b', hmore, hrecvs, hpublishes, hsends, hend, hclient, hat'⟩ :=
      ih hboth.carries (by rw [hboth.messages]; exact hfit) hboth.running hat₁ hn₁
    have hqueue₁ : done ++ [msg] ++ queue s₁.channel = done ++ queue s.channel := by
      rw [hchannel₁, hrest]
      simp
    have hall := hboth.append hmore
    rw [hqueue₁] at hall
    refine ⟨_, s', b', hall, ?_, ?_, ?_, hend, hclient.trans hclient₁, hat'⟩
    · simp [hrecvs]
    · simp [hpublishes]
    · simp [hsends]

theorem Carries.settle (h : Carries f client symbol actions s done)
    (hfit : pr = .debug → (messages client actions).length < 2 ^ 64) (hrunning : s.running = true)
    (hcap : 0 < client.channelCapacity) :
    ∃ more s', Settles pr f client symbol actions s more s' (messages client actions) ∧
      more.count .recv ≤ client.channelCapacity + 1 ∧
      more.count .publish ≤ client.channelCapacity + 2 ∧
      more.count (.client (.sent true)) ≤ 1 := by
  -- What is in hand goes first.
  obtain ⟨more₁, s₁, done₁, h₁, hrecvs₁, hpublishes₁, hsends₁, hfree⟩ :
      ∃ more₁ s₁ done₁, Settles pr f client symbol actions s more₁ s₁ done₁ ∧
        more₁.count .recv = 0 ∧ more₁.count .publish ≤ 1 ∧
        more₁.count (.client (.sent true)) = 0 ∧ s₁.background.inHand = [] := by
    cases hat : s.background with
    | handling b msg =>
      obtain ⟨s₁, b₁, h₁, hat₁, -⟩ := h.publish hfit hrunning hat
      exact ⟨_, s₁, _, h₁, rfl, Nat.le_refl 1, rfl, by rw [hat₁]; rfl⟩
    | receiving b => exact ⟨[], s, done, .nil h hrunning, rfl, Nat.zero_le 1, rfl, by rw [hat]; rfl⟩
    | done => exact ⟨[], s, done, .nil h hrunning, rfl, Nat.zero_le 1, rfl, by rw [hat]; rfl⟩
  have hall₁ := h₁.carries.delivered
  rw [h₁.messages, hfree, List.append_nil] at hall₁
  cases hat₁ : s₁.background with
  | handling b msg =>
    rw [hat₁] at hfree
    simp [BackgroundTask.inHand] at hfree
  | done =>
    -- The client is over and the channel is empty.
    obtain ⟨hphase, hqueue⟩ := h₁.carries.ends hat₁
    rw [hqueue, ClientTask.inFlight, hphase, List.append_nil, List.append_nil] at hall₁
    refine ⟨more₁, s₁, hall₁ ▸ h₁, ?_, ?_, ?_⟩ <;> omega
  | receiving b =>
    have hbound := bounded s₁.channel
    rw [h₁.carries.capacity] at hbound
    obtain ⟨more₂, s₂, b₂, h₂, hrecvs₂, hpublishes₂, hsends₂, hqueue₂, hclient₂, hat₂⟩ :=
      h₁.carries.drain (by rw [h₁.messages]; exact hfit) h₁.running hat₁ rfl
    have h₁₂ := h₁.append h₂
    cases hphase : s₁.client.phase with
    | sending rawMsg =>
      -- There is room for the message that waits.
      have hclient : s₂.client = ⟨.sending rawMsg, s₂.client.currentBackoff⟩ := by
        rw [← hphase, hclient₂]
      obtain ⟨channel, hsend⟩ := send_room s₂.channel rawMsg
        (h₁₂.carries.receiverGone (by rw [hat₂]; simp))
        (by rw [hqueue₂, h₁₂.carries.capacity]; exact hcap)
      have h₃ := h₁₂.append (.step (by simp) (step_sent h₁₂.running hclient hsend)
        (h₁₂.carries.sent hclient hsend) h₁₂.running)
      have hqueue₃ : queue (s₂.clientGoes ⟨.reading, s₂.client.currentBackoff⟩ channel).channel =
          [rawMsg] := by
        rw [clientGoes_queue, (send_taken _ _ _ hsend).2.1, hqueue₂]
        rfl
      obtain ⟨more₄, s₄, b₄, h₄, hrecvs₄, hpublishes₄, hsends₄, -⟩ :=
        h₃.carries.drain (by rw [h₃.messages]; exact hfit) h₃.running hat₂ (n := 1)
          (by rw [hqueue₃]; rfl)
      rw [ClientTask.inFlight, hphase] at hall₁
      rw [hqueue₃, ← hall₁] at h₄
      refine ⟨_, s₄, h₃.append h₄, ?_, ?_, ?_⟩
      · simp [hrecvs₁, hrecvs₂, hrecvs₄]
        exact hbound
      · simp [hpublishes₂, hpublishes₄]
        omega
      · simp [hsends₁, hsends₂, hsends₄]
    | _ =>
      rw [ClientTask.inFlight, hphase, List.append_nil] at hall₁
      refine ⟨_, s₂, hall₁ ▸ h₁₂, ?_, ?_, ?_⟩ <;> rw [List.count_append] <;> omega

end Settles

/-- However far the screen is behind: one send, and for the rest only steps with which the background
task receives and publishes what is in hand, what is in the channel and what waited for room, bring
it up to what has been read. No task has to wait for a new text. -/
theorem screen_catches_up (hstart : start client symbol = .ok s₀)
    (hfit : pr = .debug → (messages client actions).length < 2 ^ 64)
    (hrun : s₀.run pr f client symbol actions = .ok (answers, s)) (hrunning : s.running = true) :
    ∃ more view s', (∀ a ∈ more, a = .recv ∨ a = .publish ∨ a = .client (.sent true)) ∧
      more.count .recv ≤ client.channelCapacity + 1 ∧
      more.count .publish ≤ client.channelCapacity + 2 ∧
      more.count (.client (.sent true)) ≤ 1 ∧
      s.run pr f client symbol (more ++ [.tick]) =
        .ok (List.replicate more.length none ++ [some view], s') ∧
      view.Shows f symbol (lastDepth (messages client actions)) := by
  obtain ⟨-, hcap, -⟩ := carries_start (f := f) hstart
  obtain ⟨done, parts, hcarries, -⟩ := run_carries (f := f) hstart hfit hrun
  obtain ⟨more, s', hsettles, hrecvs, hpublishes, hsends⟩ := hcarries.settle hfit hrunning hcap
  refine ⟨more, value s'.shown, { s' with shown := (borrowAndUpdate s'.shown).2 }, hsettles.moves,
    hrecvs, hpublishes, hsends, ?_, hsettles.carries.shown⟩
  have htick : s'.step pr f client symbol .tick =
      .ok (some (value s'.shown), { s' with shown := (borrowAndUpdate s'.shown).2 }) := by
    simp [step, hsettles.running]
  exact Runs.exec_append_ok hsettles.run (Runs.exec_cons_ok htick rfl)

/-! ## A run over two connections -/

/-- Numbers in steps of `1e-10`, without rounding. -/
def decimals : F64 Nat where
  parse text := (text.toNat?.map (· * 10 ^ 10)).elim (.error "invalid float literal") .ok
  toTicks n := UInt64.ofNat (min n (2 ^ 64 - 1))
  ofTicks n := n.toNat
  scale d m := some (d * m / 10 ^ 10)

/-- Every text is the same depth message, and one message fits into the channel. -/
def bookClient : WsClient Nat :=
  { url := "wss://api.hyperliquid.xyz/ws"
    adapter :=
      { subscriptionPayload := some "subscribe"
        parseMessage := fun _ => .ok (some (.diff MarketBook.repeatedBids)) }
    channelCapacity := 1
    backoff := { minBackoff := 200000000, maxBackoff := 5000000000, multiplier := 2 * 10 ^ 10 } }

def bookTerminal : Terminal (BoundedQueue RawMessage) (WatchCell (OrderBookView Nat)) :=
  { client := ⟨.connecting, 200000000⟩
    channel := .new 1
    background := .receiving Background.new
    shown := Watch.channel (.default "BTC")
    running := true }

/-- A connection that fails, one that is closed, and frames before and after a message is published.
At the first frame three messages are read: one is in hand, one in the channel, one waits for room. -/
def twoConnections : List Action :=
  [.client (.connected false), .client .slept, .client (.connected true),
   .client (.subscribed true), .client (.received (.text "book")), .client (.sent true), .recv,
   .client (.received (.text "book")), .client (.sent true), .client (.received (.text "book")),
   .tick, .publish, .recv, .client (.sent true), .tick, .publish, .client (.received .close),
   .client .slept, .client (.connected true), .tick]

theorem exists_of_isOk {C W : Type} {x : Except Blocked (List (Option (OrderBookView φ)) × Terminal C W)}
    (hok : x.isOk = true) : ∃ answers s, x = .ok (answers, s) := by
  cases x with
  | error e => simp [Except.isOk, Except.toBool] at hok
  | ok out => exact ⟨out.1, out.2, rfl⟩

theorem bookTerminal_start : start bookClient "BTC" = .ok bookTerminal := rfl

theorem twoConnections_run : ∃ answers s,
    bookTerminal.run .debug decimals bookClient "BTC" twoConnections = .ok (answers, s) ∧
      s.running = true := by
  have hok : (match bookTerminal.run .debug decimals bookClient "BTC" twoConnections with
      | .ok (_, s) => s.running
      | .error _ => false) = true := by decide +kernel
  cases hrun : bookTerminal.run .debug decimals bookClient "BTC" twoConnections with
  | error e =>
    rw [hrun] at hok
    simp at hok
  | ok out =>
    rw [hrun] at hok
    exact ⟨out.1, out.2, rfl, hok⟩

theorem twoConnections_fit :
    Profile.debug = .debug → (messages bookClient twoConnections).length < 2 ^ 64 :=
  fun _ => by decide

theorem feed_delivers_twoConnections : ∃ answers s done,
    bookTerminal.run .debug decimals bookClient "BTC" twoConnections = .ok (answers, s) ∧
      messages bookClient twoConnections =
        done ++ s.background.inHand ++ queue s.channel ++ s.client.inFlight := by
  obtain ⟨answers, s, hrun, -⟩ := twoConnections_run
  obtain ⟨done, hdelivered, -⟩ := feed_delivers bookTerminal_start twoConnections_fit hrun
  exact ⟨answers, s, done, hrun, hdelivered⟩

theorem frames_trail_twoConnections : ∃ answers s parts,
    bookTerminal.run .debug decimals bookClient "BTC" twoConnections = .ok (answers, s) ∧
      Trails decimals bookClient "BTC" 3 twoConnections (answers.filterMap id) parts := by
  obtain ⟨answers, s, hrun, -⟩ := twoConnections_run
  obtain ⟨parts, htrails⟩ := frames_trail bookTerminal_start twoConnections_fit hrun
  exact ⟨answers, s, parts, hrun, htrails⟩

theorem screen_catches_up_twoConnections : ∃ answers s more,
    bookTerminal.run .debug decimals bookClient "BTC" twoConnections = .ok (answers, s) ∧
      more.count .publish ≤ 3 ∧
      (s.run .debug decimals bookClient "BTC" (more ++ [.tick])).isOk = true := by
  obtain ⟨answers, s, hrun, hrunning⟩ := twoConnections_run
  obtain ⟨more, view, s', -, -, hpublishes, -, hmore, -⟩ :=
    screen_catches_up bookTerminal_start twoConnections_fit hrun hrunning
  exact ⟨answers, s, more, hrun, hpublishes, by rw [hmore]; rfl⟩

end Terminal

end Ordust
