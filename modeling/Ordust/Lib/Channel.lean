import Mathlib.Data.List.Basic

/-!
# Channels between tasks

A bounded channel with one sender and one receiver, and one that keeps only the last value, as
`tokio::sync::mpsc` and `tokio::sync::watch` document them. `BoundedQueue` and `WatchCell` are
channels that work so.
-/

/-- The operations of a bounded channel `C` of values `α`, and what its users may rely on. -/
class Channel (C : Type) (α : outParam Type) where
  new : Nat → C
  /-- Whether the value was taken, or nothing while the sender has to wait. -/
  send : C → α → Option (Bool × C)
  /-- The oldest value, or that there is none to come, or nothing while the receiver has to wait. -/
  recv : C → Option (Option α × C)
  dropSender : C → C
  dropReceiver : C → C
  /-- The values that were taken and not yet received, the oldest first. -/
  queue : C → List α
  capacity : C → Nat
  senderGone : C → Bool
  receiverGone : C → Bool
  bounded : ∀ c, (queue c).length ≤ capacity c
  queue_new : ∀ n, queue (new n) = []
  capacity_new : ∀ n, capacity (new n) = n
  senderGone_new : ∀ n, senderGone (new n) = false
  receiverGone_new : ∀ n, receiverGone (new n) = false
  /-- A value that is taken goes to the end of the queue. -/
  send_taken : ∀ c c' a, send c a = some (true, c') → receiverGone c = false ∧
    queue c' = queue c ++ [a] ∧ capacity c' = capacity c ∧ senderGone c' = senderGone c ∧
    receiverGone c' = receiverGone c
  /-- A value is refused only when nobody receives any more. -/
  send_refused : ∀ c c' a, send c a = some (false, c') → receiverGone c = true
  /-- A value is taken while somebody receives and there is room. -/
  send_room : ∀ c a, receiverGone c = false → (queue c).length < capacity c →
    ∃ c', send c a = some (true, c')
  recv_some : ∀ c c' a, recv c = some (some a, c') → queue c = a :: queue c' ∧
    capacity c' = capacity c ∧ senderGone c' = senderGone c ∧ receiverGone c' = receiverGone c
  recv_none : ∀ c c', recv c = some (none, c') → queue c = [] ∧ senderGone c = true ∧
    queue c' = [] ∧ capacity c' = capacity c ∧ senderGone c' = senderGone c
  recv_cons : ∀ c a rest, queue c = a :: rest → ∃ c', recv c = some (some a, c')
  queue_dropSender : ∀ c, queue (dropSender c) = queue c
  capacity_dropSender : ∀ c, capacity (dropSender c) = capacity c
  senderGone_dropSender : ∀ c, senderGone (dropSender c) = true
  receiverGone_dropSender : ∀ c, receiverGone (dropSender c) = receiverGone c
  /-- Values that nobody received may be dropped. -/
  queue_dropReceiver : ∀ c, (queue (dropReceiver c)).Sublist (queue c)
  capacity_dropReceiver : ∀ c, capacity (dropReceiver c) = capacity c
  senderGone_dropReceiver : ∀ c, senderGone (dropReceiver c) = senderGone c
  receiverGone_dropReceiver : ∀ c, receiverGone (dropReceiver c) = true

namespace Channel

attribute [simp] queue_new capacity_new senderGone_new receiverGone_new queue_dropSender
  capacity_dropSender senderGone_dropSender receiverGone_dropSender capacity_dropReceiver
  senderGone_dropReceiver receiverGone_dropReceiver

variable {C α : Type} [Channel C α]

theorem queue_dropReceiver_nil {c : C} (h : queue c = []) : queue (dropReceiver c) = [] := by
  have hsub := queue_dropReceiver c
  rw [h] at hsub
  exact List.sublist_nil.mp hsub

end Channel

/-- The operations of a channel `W` that keeps the last value `α`, while its receiver is there. -/
class Watch (W : Type) (α : outParam Type) where
  channel : α → W
  send : W → α → W
  borrowAndUpdate : W → α × W
  dropSender : W → W
  value : W → α
  value_channel : ∀ a, value (channel a) = a
  value_send : ∀ w a, value (send w a) = a
  borrowAndUpdate_fst : ∀ w, (borrowAndUpdate w).1 = value w
  value_borrowAndUpdate : ∀ w, value (borrowAndUpdate w).2 = value w
  value_dropSender : ∀ w, value (dropSender w) = value w

attribute [simp] Watch.value_channel Watch.value_send Watch.borrowAndUpdate_fst
  Watch.value_borrowAndUpdate Watch.value_dropSender

/-! ## A channel that is a queue -/

structure BoundedQueue (α : Type) where
  capacity : Nat
  queue : List α
  senderGone : Bool
  receiverGone : Bool
  bounded : queue.length ≤ capacity

namespace BoundedQueue

variable {α : Type}

def new (capacity : Nat) : BoundedQueue α :=
  { capacity := capacity, queue := [], senderGone := false, receiverGone := false,
    bounded := Nat.zero_le capacity }

def send (c : BoundedQueue α) (a : α) : Option (Bool × BoundedQueue α) :=
  if c.receiverGone then some (false, c)
  else if h : c.queue.length < c.capacity then
    some (true, { c with queue := c.queue ++ [a], bounded := by rw [List.length_append]; exact h })
  else none

def recv (c : BoundedQueue α) : Option (Option α × BoundedQueue α) :=
  match h : c.queue with
  | [] => if c.senderGone then some (none, c) else none
  | a :: queue =>
    some (some a, { c with
      queue := queue
      bounded := by
        have hle := c.bounded
        rw [h, List.length_cons] at hle
        omega })

def dropSender (c : BoundedQueue α) : BoundedQueue α := { c with senderGone := true }

def dropReceiver (c : BoundedQueue α) : BoundedQueue α :=
  { c with queue := [], receiverGone := true, bounded := Nat.zero_le c.capacity }

section Send

variable {c c' : BoundedQueue α} {a : α}

theorem send_taken (h : c.send a = some (true, c')) :
    c.receiverGone = false ∧ c'.queue = c.queue ++ [a] ∧ c'.capacity = c.capacity ∧
      c'.senderGone = c.senderGone ∧ c'.receiverGone = c.receiverGone := by
  unfold send at h
  by_cases hgone : c.receiverGone = true
  · simp [hgone] at h
  · by_cases hroom : c.queue.length < c.capacity
    · rw [if_neg hgone, dif_pos hroom] at h
      obtain ⟨-, rfl⟩ := Prod.mk.inj (Option.some.inj h)
      exact ⟨Bool.eq_false_iff.mpr hgone, rfl, rfl, rfl, rfl⟩
    · simp [hgone, hroom] at h

theorem send_refused (h : c.send a = some (false, c')) : c.receiverGone = true := by
  unfold send at h
  by_cases hgone : c.receiverGone = true
  · exact hgone
  · by_cases hroom : c.queue.length < c.capacity <;> simp [hgone, hroom] at h

theorem send_room (hrecv : c.receiverGone = false) (hroom : c.queue.length < c.capacity) :
    ∃ c', c.send a = some (true, c') := by
  simp [send, hrecv, hroom]

end Send

section Recv

variable {c c' : BoundedQueue α} {a : α}

theorem recv_some (h : c.recv = some (some a, c')) :
    c.queue = a :: c'.queue ∧ c'.capacity = c.capacity ∧ c'.senderGone = c.senderGone ∧
      c'.receiverGone = c.receiverGone := by
  unfold recv at h
  split at h
  · split at h <;> simp at h
  · next b queue hq =>
    obtain ⟨rfl, rfl⟩ : b = a ∧ _ = c' := by simpa using h
    exact ⟨hq, rfl, rfl, rfl⟩

theorem recv_none (h : c.recv = some (none, c')) :
    c.queue = [] ∧ c.senderGone = true ∧ c'.queue = [] ∧ c'.capacity = c.capacity ∧
      c'.senderGone = c.senderGone := by
  unfold recv at h
  split at h
  · next hq =>
    split at h
    · next hgone =>
      obtain rfl : c = c' := by simpa using h
      exact ⟨hq, hgone, hq, rfl, rfl⟩
    · simp at h
  · simp at h

theorem recv_cons {queue : List α} (h : c.queue = a :: queue) :
    ∃ c', c.recv = some (some a, c') := by
  unfold recv
  split
  · next hq =>
    rw [h] at hq
    simp at hq
  · next b queue' hq =>
    obtain ⟨rfl, -⟩ := List.cons.inj (h.symm.trans hq)
    exact ⟨_, rfl⟩

end Recv

instance : Channel (BoundedQueue α) α where
  new := new
  send := send
  recv := recv
  dropSender := dropSender
  dropReceiver := dropReceiver
  queue := queue
  capacity := capacity
  senderGone := senderGone
  receiverGone := receiverGone
  bounded := bounded
  queue_new _ := rfl
  capacity_new _ := rfl
  senderGone_new _ := rfl
  receiverGone_new _ := rfl
  send_taken _ _ _ := send_taken
  send_refused _ _ _ := send_refused
  send_room _ _ := send_room
  recv_some _ _ _ := recv_some
  recv_none _ _ := recv_none
  recv_cons _ _ _ := recv_cons
  queue_dropSender _ := rfl
  capacity_dropSender _ := rfl
  senderGone_dropSender _ := rfl
  receiverGone_dropSender _ := rfl
  queue_dropReceiver c := List.nil_sublist c.queue
  capacity_dropReceiver _ := rfl
  senderGone_dropReceiver _ := rfl
  receiverGone_dropReceiver _ := rfl

end BoundedQueue

/-! ## A cell with the last value -/

structure WatchCell (α : Type) where
  value : α
  seen : Bool
  senderGone : Bool

instance {α : Type} : Watch (WatchCell α) α where
  channel a := { value := a, seen := true, senderGone := false }
  send w a := { w with value := a, seen := false }
  borrowAndUpdate w := (w.value, { w with seen := true })
  dropSender w := { w with senderGone := true }
  value := WatchCell.value
  value_channel _ := rfl
  value_send _ _ := rfl
  borrowAndUpdate_fst _ := rfl
  value_borrowAndUpdate _ := rfl
  value_dropSender _ := rfl
