import Ordust.Screen
import Mathlib.Tactic.Ring

/-!
# The client across failures

The client never ends of its own accord, and what it waits before the next attempt grows up to the
configured maximum and starts again when a subscription is in place.
-/

namespace Ordust

variable {φ : Type}

/-- The action puts a subscription in place, or a connection that needs none. -/
def Action.readies (client : WsClient φ) : Action → Bool
  | .client (.subscribed true) => true
  | .client (.connected true) => client.adapter.subscriptionPayload.isNone
  | _ => false

/-- How many waits are over since then. -/
def retries (client : WsClient φ) (actions : List Action) : Nat :=
  actions.foldl (fun n action =>
    if action.readies client then 0 else if action = .client .slept then n + 1 else n) 0

theorem retries_snoc (client : WsClient φ) (actions : List Action) (action : Action) :
    retries client (actions ++ [action]) =
      if action.readies client then 0
      else if action = .client .slept then retries client actions + 1
      else retries client actions := by
  unfold retries
  rw [List.foldl_append]
  rfl

/-- On the durations that occur, the multiplier multiplies by `k` exactly. -/
def BackoffConfig.Multiplies (f : F64 φ) (config : BackoffConfig φ) (k : Nat) : Prop :=
  ∀ d, d ≤ config.maxBackoff → f.scale d config.multiplier = some (k * d)

namespace BackoffConfig

/-- The wait after `n` failures in a row. -/
def wait (config : BackoffConfig φ) (k n : Nat) : Duration :=
  min (config.minBackoff * k ^ n) config.maxBackoff

variable {f : F64 φ} {config : BackoffConfig φ} {k : Nat}

theorem wait_zero (hle : config.minBackoff ≤ config.maxBackoff) :
    config.wait k 0 = config.minBackoff := by
  unfold wait
  rw [pow_zero, Nat.mul_one, Nat.min_eq_left hle]

theorem wait_succ (hk : 1 ≤ k) (n : Nat) :
    min (k * config.wait k n) config.maxBackoff = config.wait k (n + 1) := by
  unfold wait
  have hcap : config.maxBackoff ≤ k * config.maxBackoff := Nat.le_mul_of_pos_left _ hk
  rw [← Nat.mul_min_mul_left, pow_succ, show config.minBackoff * (k ^ n * k) =
    k * (config.minBackoff * k ^ n) by ring, Nat.min_assoc, Nat.min_eq_right hcap]

theorem Multiplies.next (h : config.Multiplies f k) (hk : 1 ≤ k) (n : Nat) :
    calculateNextBackoff f (config.wait k n) config = some (config.wait k (n + 1)) := by
  unfold calculateNextBackoff
  rw [h (config.wait k n) (Nat.min_le_right _ _), ← wait_succ hk]
  rfl

end BackoffConfig

namespace WsClient

variable {f : F64 φ} {client : WsClient φ} {task task' : ClientTask} {event : ClientEvent} {k : Nat}

theorem Goes.wait (h : client.Goes f task event task') (hfree : Terminal.Free event)
    (hmul : client.backoff.Multiplies f k) (hk : 1 ≤ k)
    (hle : client.backoff.minBackoff ≤ client.backoff.maxBackoff) {actions : List Action}
    (hwait : task.currentBackoff = client.backoff.wait k (retries client actions)) :
    task'.phase ≠ .done ∧ task'.currentBackoff =
      client.backoff.wait k (retries client (actions ++ [.client event])) := by
  rw [retries_snoc]
  cases h with
  | sent rawMsg b ok => exact absurd rfl (hfree ok)
  | noConnection b => exact ⟨by simp, hwait⟩
  | connected b payload hp => exact ⟨by simp, by simpa [Action.readies, hp] using hwait⟩
  | needsNone b hp =>
    refine ⟨by simp [ready], ?_⟩
    simp only [Action.readies, hp, Option.isNone_none, if_true, ready]
    exact (BackoffConfig.wait_zero hle).symm
  | subscribed payload b => exact ⟨by simp [ready], (BackoffConfig.wait_zero hle).symm⟩
  | noSubscription payload b => exact ⟨by simp, hwait⟩
  | received b incoming =>
    refine ⟨?_, hwait⟩
    cases incoming with
    | text text =>
      simp only [onIncoming]
      split <;> simp
    | _ => simp [onIncoming]
  | slept b next hnext =>
    refine ⟨by simp, ?_⟩
    rw [show b = client.backoff.wait k (retries client actions) from hwait, hmul.next hk] at hnext
    exact (Option.some.inj hnext).symm
  | crashed b hnone =>
    rw [show b = client.backoff.wait k (retries client actions) from hwait, hmul.next hk] at hnone
    simp at hnone

end WsClient

namespace Terminal

variable {C W : Type} [Channel C RawMessage] [Watch W (OrderBookView φ)] {pr : Profile} {f : F64 φ}
  {client : WsClient φ} {symbol : String} {s₀ s s' : Terminal C W} {actions : List Action}
  {answers : List (Option (OrderBookView φ))} {k : Nat}

/-- The client goes on, and waits as long as it should. -/
structure OnSchedule (client : WsClient φ) (k : Nat) (actions : List Action) (s : Terminal C W) :
    Prop where
  phase : s.client.phase ≠ .done
  wait : s.client.currentBackoff = client.backoff.wait k (retries client actions)

theorem OnSchedule.step (h : OnSchedule client k actions s) {done : List RawMessage}
    (hcarries : Carries f client symbol actions s done) (hmul : client.backoff.Multiplies f k)
    (hk : 1 ≤ k) (hle : client.backoff.minBackoff ≤ client.backoff.maxBackoff) {action : Action}
    {frame : Option (OrderBookView φ)} (hmoves : Moves pr f client symbol s action frame s') :
    OnSchedule client k (actions ++ [action]) s' := by
  have hsame : ∀ a : Action, a.readies client = false → a ≠ .client .slept →
      s.client.currentBackoff = client.backoff.wait k (retries client (actions ++ [a])) := by
    intro a hready hslept
    rw [retries_snoc, hready, if_neg hslept]
    exact h.wait
  cases hmoves with
  | client hfree hgoes =>
    obtain ⟨hphase, hwait⟩ := hgoes.wait hfree hmul hk hle h.wait
    exact ⟨hphase, hwait⟩
  | @sent rawMsg b channel ok hat hsend =>
    cases ok with
    | true =>
      refine ⟨by simp, ?_⟩
      have := hsame (.client (.sent true)) rfl (by simp)
      rw [hat] at this
      exact this
    | false =>
      -- The background task is there to receive.
      have hgone := hcarries.receiver (Channel.send_refused _ _ _ hsend)
      exact absurd hgone (hcarries.alive h.phase)
  | received => exact ⟨h.phase, hsame .recv rfl (by simp)⟩
  | ended => exact ⟨h.phase, hsame .recv rfl (by simp)⟩
  | published => exact ⟨h.phase, hsame .publish rfl (by simp)⟩
  | panicked => exact ⟨h.phase, hsame .publish rfl (by simp)⟩
  | tick => exact ⟨h.phase, hsame .tick rfl (by simp)⟩
  | key quit => exact ⟨h.phase, hsame (.key quit) rfl (by simp)⟩

end Terminal

end Ordust
