import Ordust.Code.Terminal

/-!
# The steps of the terminal

What one action can do, said once for the client and once for the whole program.
-/

namespace Ordust

variable {φ : Type}

/-! ## The client -/

namespace WsClient

/-- A subscription is in place, and the failures before it are forgotten. -/
def ready (self : WsClient φ) : ClientTask :=
  { phase := .reading, currentBackoff := self.backoff.minBackoff }

inductive Goes (f : F64 φ) (self : WsClient φ) : ClientTask → ClientEvent → ClientTask → Prop
  | noConnection (b : Duration) :
      Goes f self ⟨.connecting, b⟩ (.connected false) ⟨.sleeping, b⟩
  | connected (b : Duration) (payload : String) (h : self.adapter.subscriptionPayload = some payload) :
      Goes f self ⟨.connecting, b⟩ (.connected true) ⟨.subscribing payload, b⟩
  | needsNone (b : Duration) (h : self.adapter.subscriptionPayload = none) :
      Goes f self ⟨.connecting, b⟩ (.connected true) self.ready
  | subscribed (payload : String) (b : Duration) :
      Goes f self ⟨.subscribing payload, b⟩ (.subscribed true) self.ready
  | noSubscription (payload : String) (b : Duration) :
      Goes f self ⟨.subscribing payload, b⟩ (.subscribed false) ⟨.sleeping, b⟩
  | received (b : Duration) (incoming : Incoming) :
      Goes f self ⟨.reading, b⟩ (.received incoming) ⟨self.onIncoming incoming, b⟩
  | sent (rawMsg : RawMessage) (b : Duration) (ok : Bool) :
      Goes f self ⟨.sending rawMsg, b⟩ (.sent ok) ⟨if ok then .reading else .done, b⟩
  | slept (b next : Duration) (h : calculateNextBackoff f b self.backoff = some next) :
      Goes f self ⟨.sleeping, b⟩ .slept ⟨.connecting, next⟩
  | crashed (b : Duration) (h : calculateNextBackoff f b self.backoff = none) :
      Goes f self ⟨.sleeping, b⟩ .slept ⟨.done, b⟩

variable {f : F64 φ} {self : WsClient φ}

theorem advance_goes {task task' : ClientTask} {event : ClientEvent}
    (h : self.advance f task event = some task') : self.Goes f task event task' := by
  obtain ⟨phase, b⟩ := task
  cases event with
  | connected ok =>
    cases phase <;> simp only [advance, reduceCtorEq] at h
    case connecting =>
      cases ok with
      | false =>
        obtain rfl := Option.some.inj h
        exact .noConnection b
      | true =>
        cases hp : self.adapter.subscriptionPayload with
        | some payload =>
          simp only [hp, if_true, Option.some.injEq] at h
          exact h ▸ .connected b payload hp
        | none =>
          simp only [hp, if_true, Option.some.injEq] at h
          exact h ▸ .needsNone b hp
  | subscribed ok =>
    cases phase <;> simp only [advance, reduceCtorEq] at h
    case subscribing payload =>
      cases ok with
      | false =>
        obtain rfl := Option.some.inj h
        exact .noSubscription payload b
      | true =>
        obtain rfl := Option.some.inj h
        exact .subscribed payload b
  | received incoming =>
    cases phase <;> simp only [advance, reduceCtorEq] at h
    case reading =>
      obtain rfl := Option.some.inj h
      exact .received b incoming
  | sent ok =>
    cases phase <;> simp only [advance, reduceCtorEq] at h
    case sending rawMsg =>
      obtain rfl := Option.some.inj h
      exact .sent rawMsg b ok
  | slept =>
    cases phase <;> simp only [advance, reduceCtorEq] at h
    case sleeping =>
      cases hb : calculateNextBackoff f b self.backoff with
      | some next =>
        simp only [hb, Option.some.injEq] at h
        exact h ▸ .slept b next hb
      | none =>
        simp only [hb, Option.some.injEq] at h
        exact h ▸ .crashed b hb

end WsClient

/-! ## The program -/

namespace Terminal

/-- The event is not about a message that waits for the channel. -/
def Free (event : ClientEvent) : Prop := ∀ ok, event ≠ .sent ok

variable {C W : Type} [Channel C RawMessage] [Watch W (OrderBookView φ)]

inductive Moves (pr : Profile) (f : F64 φ) (client : WsClient φ) (symbol : String) :
    Terminal C W → Action → Option (OrderBookView φ) → Terminal C W → Prop
  | client {s : Terminal C W} {event : ClientEvent} {task : ClientTask} (hfree : Free event)
      (h : client.Goes f s.client event task) :
      Moves pr f client symbol s (.client event) none (s.clientGoes task s.channel)
  | sent {s : Terminal C W} {rawMsg : RawMessage} {b : Duration} {channel : C}
      {ok : Bool} (hat : s.client = ⟨.sending rawMsg, b⟩)
      (h : Channel.send s.channel rawMsg = some (ok, channel)) :
      Moves pr f client symbol s (.client (.sent ok)) none
        (s.clientGoes ⟨if ok then .reading else .done, b⟩ channel)
  | received {s : Terminal C W} {background : Background} {msg : RawMessage} {channel : C}
      (hat : s.background = .receiving background)
      (h : Channel.recv s.channel = some (some msg, channel)) :
      Moves pr f client symbol s .recv none
        { s with background := .handling background msg, channel := channel }
  | ended {s : Terminal C W} {background : Background} {channel : C}
      (hat : s.background = .receiving background)
      (h : Channel.recv s.channel = some (none, channel)) :
      Moves pr f client symbol s .recv none (s.backgroundEnds channel)
  | published {s : Terminal C W} {background background' : Background} {msg : RawMessage}
      {view : Option (OrderBookView φ)} (hat : s.background = .handling background msg)
      (h : background.onMessage pr f symbol msg = .ok (view, background')) :
      Moves pr f client symbol s .publish none { s with
        background := .receiving background'
        shown := view.elim s.shown (Watch.send s.shown) }
  | panicked {s : Terminal C W} {background : Background} {msg : RawMessage} {p : Panic}
      (hat : s.background = .handling background msg)
      (h : background.onMessage pr f symbol msg = .error p) :
      Moves pr f client symbol s .publish none (s.backgroundEnds s.channel)
  | tick (s : Terminal C W) :
      Moves pr f client symbol s .tick (some (Watch.borrowAndUpdate s.shown).1)
        { s with shown := (Watch.borrowAndUpdate s.shown).2 }
  | key (s : Terminal C W) (quit : Bool) :
      Moves pr f client symbol s (.key quit) none { s with running := !quit }

variable {pr : Profile} {f : F64 φ} {client : WsClient φ} {symbol : String} {s s' : Terminal C W}

theorem stepClient_moves {event : ClientEvent} (h : s.stepClient f client event = some s') :
    Moves pr f client symbol s (.client event) none s' := by
  unfold stepClient at h
  obtain ⟨task, hadv, h⟩ := Option.bind_eq_some_iff.mp h
  have hgoes := WsClient.advance_goes hadv
  cases event with
  | sent ok =>
    generalize hc : s.client = c at h hgoes
    cases hgoes with
    | sent rawMsg b =>
      obtain ⟨⟨taken, channel⟩, hsend, h⟩ := Option.bind_eq_some_iff.mp h
      by_cases hok : ok = taken
      · subst hok
        simp only [if_true, Option.some.injEq] at h
        exact h ▸ .sent hc hsend
      · simp [hok] at h
  | connected ok => exact Option.some.inj h ▸ .client (fun _ => by simp) hgoes
  | subscribed ok => exact Option.some.inj h ▸ .client (fun _ => by simp) hgoes
  | received incoming => exact Option.some.inj h ▸ .client (fun _ => by simp) hgoes
  | slept => exact Option.some.inj h ▸ .client (fun _ => by simp) hgoes

theorem stepRecv_moves (h : s.stepRecv = some s') : Moves pr f client symbol s .recv none s' := by
  unfold stepRecv at h
  split at h
  · next background hat =>
    obtain ⟨⟨received, channel⟩, hrecv, h⟩ := Option.bind_eq_some_iff.mp h
    cases received with
    | some msg => exact Option.some.inj h ▸ .received hat hrecv
    | none => exact Option.some.inj h ▸ .ended hat hrecv
  · simp at h

theorem stepPublish_moves (h : s.stepPublish pr f symbol = some s') :
    Moves pr f client symbol s .publish none s' := by
  unfold stepPublish at h
  split at h
  · next background msg hat =>
    cases hmsg : background.onMessage pr f symbol msg with
    | error p =>
      simp only [hmsg, Option.some.injEq] at h
      exact h ▸ .panicked hat hmsg
    | ok out =>
      obtain ⟨view, background'⟩ := out
      simp only [hmsg, Option.some.injEq] at h
      exact h ▸ .published hat hmsg
  · simp at h

omit [Channel C RawMessage] [Watch W (OrderBookView φ)] in
theorem quietly_ok {next : Option (Terminal C W)} {frame : Option (OrderBookView φ)}
    (h : quietly next = .ok (frame, s')) : next = some s' ∧ frame = none := by
  cases next with
  | none => simp [quietly] at h
  | some next =>
    obtain ⟨rfl, rfl⟩ := Prod.mk.inj (Except.ok.inj h)
    exact ⟨rfl, rfl⟩

theorem step_moves {action : Action} {frame : Option (OrderBookView φ)}
    (h : s.step pr f client symbol action = .ok (frame, s')) :
    Moves pr f client symbol s action frame s' := by
  unfold step at h
  split at h
  · cases action with
    | client event =>
      obtain ⟨hs, rfl⟩ := quietly_ok h
      exact stepClient_moves hs
    | recv =>
      obtain ⟨hs, rfl⟩ := quietly_ok h
      exact stepRecv_moves hs
    | publish =>
      obtain ⟨hs, rfl⟩ := quietly_ok h
      exact stepPublish_moves hs
    | tick =>
      obtain ⟨rfl, rfl⟩ := Prod.mk.inj (Except.ok.inj h)
      exact .tick s
    | key quit =>
      obtain ⟨rfl, rfl⟩ := Prod.mk.inj (Except.ok.inj h)
      exact .key s quit
  · simp at h

end Terminal

end Ordust
