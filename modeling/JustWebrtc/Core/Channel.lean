import Mathlib.Data.Nat.Basic
import Mathlib.Tactic

/-!
# Bounded channels with one receiver

A first-in first-out queue of at most `capacity` messages. Sending never blocks: it
fails on a full queue, and once the receiver is gone. What the receiver has taken is
kept beside the queue, so that taken and queued messages together are the sequence of
all accepted ones.
-/

namespace JustWebrtc

/-- Why a message is handed back to its sender. -/
inductive TrySendError
  | full
  | disconnected
  deriving DecidableEq, Repr

/-- A bounded queue, what its receiver has taken so far, and whether that still lives. -/
structure Channel (α : Type*) where
  /-- The number of messages the queue may hold. -/
  capacity : Nat
  /-- The messages waiting for the receiver. -/
  queue : List α
  /-- The messages already taken by the receiver. -/
  yielded : List α
  /-- Whether the receiver still exists. -/
  receiverAlive : Bool
  bounded : queue.length ≤ capacity

namespace Channel

variable {α : Type*}

/-- A new empty channel. -/
def empty (capacity : Nat) : Channel α where
  capacity := capacity
  queue := []
  yielded := []
  receiverAlive := true
  bounded := Nat.zero_le _

/-- Everything accepted so far: the taken messages, then the queued ones. -/
def items (c : Channel α) : List α := c.yielded ++ c.queue

/-- Queue a message unless the receiver is gone or the queue is full. -/
def trySend (c : Channel α) (m : α) : Except TrySendError (Channel α) :=
  if c.receiverAlive then
    if h : c.queue.length < c.capacity then
      .ok { c with
        queue := c.queue ++ [m]
        bounded := by rw [List.length_append, List.length_singleton]; exact h }
    else .error .full
  else .error .disconnected

/-- The receiver takes the oldest queued message. -/
def next (c : Channel α) : Option (Channel α) :=
  match h : c.queue with
  | [] => none
  | m :: rest =>
    if c.receiverAlive then
      some { c with
        queue := rest
        yielded := c.yielded ++ [m]
        bounded := by
          have hb := c.bounded
          rw [h, List.length_cons] at hb
          omega }
    else none

/-- The receiver is dropped. -/
def dropReceiver (c : Channel α) : Channel α := { c with receiverAlive := false }

@[simp] theorem items_open (capacity : Nat) : (empty capacity : Channel α).items = [] := rfl

@[simp] theorem items_dropReceiver (c : Channel α) : c.dropReceiver.items = c.items := rfl

/-- A send is accepted exactly by a live receiver with room, and appends its message. -/
theorem trySend_ok {c d : Channel α} {m : α} (h : c.trySend m = .ok d) :
    c.receiverAlive = true ∧ d.items = c.items ++ [m] ∧ d.yielded = c.yielded ∧
      d.receiverAlive = true := by
  unfold trySend at h
  split at h
  · rename_i halive
    split at h
    · simp only [Except.ok.injEq] at h
      subst h
      exact ⟨halive, by simp [items], rfl, halive⟩
    · simp only [reduceCtorEq] at h
  · simp only [reduceCtorEq] at h

/-- A refused send says whether the receiver is gone or the queue is full. -/
theorem trySend_error {c : Channel α} {m : α} {e : TrySendError} (h : c.trySend m = .error e) :
    (e = .disconnected ∧ c.receiverAlive = false) ∨
      (e = .full ∧ c.receiverAlive = true ∧ c.queue.length = c.capacity) := by
  unfold trySend at h
  split at h
  · rename_i halive
    split at h
    · simp only [reduceCtorEq] at h
    · rename_i hroom
      have hb := c.bounded
      exact Or.inr ⟨(Except.error.inj h).symm, halive, by omega⟩
  · rename_i halive
    exact Or.inl ⟨(Except.error.inj h).symm, by simpa using halive⟩

@[simp] theorem capacity_dropReceiver (c : Channel α) : c.dropReceiver.capacity = c.capacity := rfl

/-- A send leaves the capacity alone. -/
theorem capacity_trySend {c d : Channel α} {m : α} (h : c.trySend m = .ok d) :
    d.capacity = c.capacity := by
  unfold trySend at h
  split at h
  · split at h
    · rw [← Except.ok.inj h]
    · simp only [reduceCtorEq] at h
  · simp only [reduceCtorEq] at h

/-- Taking a message leaves the capacity alone. -/
theorem capacity_next {c d : Channel α} (h : c.next = some d) : d.capacity = c.capacity := by
  unfold next at h
  split at h
  · simp only [reduceCtorEq] at h
  · split at h
    · rw [← Option.some.inj h]
    · simp only [reduceCtorEq] at h

/-- A full channel has accepted at least as many messages as it holds. -/
theorem capacity_le_items {c : Channel α} {m : α} (h : c.trySend m = .error .full) :
    c.capacity ≤ c.items.length := by
  rcases trySend_error h with ⟨hfull, _⟩ | ⟨_, _, hlen⟩
  · simp only [reduceCtorEq] at hfull
  · rw [items, List.length_append]
    omega

/-- A fresh channel of positive capacity takes its first message. -/
theorem trySend_open {capacity : Nat} (h : 0 < capacity) (m : α) :
    ∃ d, (empty capacity : Channel α).trySend m = .ok d ∧ d.items = [m] ∧ d.yielded = [] ∧
      d.receiverAlive = true := by
  refine ⟨{ (empty capacity : Channel α) with queue := [m], bounded := h }, ?_, rfl, rfl, rfl⟩
  simp only [trySend, empty, if_true, List.length_nil, List.nil_append]
  exact dif_pos h

/-- Taking a message moves it and leaves the sequence of accepted messages alone. -/
theorem next_some {c d : Channel α} (h : c.next = some d) :
    d.items = c.items ∧ d.receiverAlive = c.receiverAlive ∧ ∃ m, d.yielded = c.yielded ++ [m] := by
  unfold next at h
  split at h
  · simp only [reduceCtorEq] at h
  · rename_i m rest hq
    split at h
    · simp only [Option.some.injEq] at h
      subst h
      refine ⟨?_, rfl, m, rfl⟩
      simp [items, hq]
    · simp only [reduceCtorEq] at h

/-- What is taken is the head of the queue. -/
theorem next_head {c d : Channel α} (h : c.next = some d) :
    ∃ m, c.queue.head? = some m ∧ d.yielded = c.yielded ++ [m] := by
  unfold next at h
  split at h
  · simp only [reduceCtorEq] at h
  · rename_i m rest hq
    split at h
    · simp only [Option.some.injEq] at h
      subst h
      exact ⟨m, by rw [hq]; rfl, rfl⟩
    · simp only [reduceCtorEq] at h

/-- A live receiver that finds nothing has an empty queue. -/
theorem queue_of_next_none {c : Channel α} (h : c.next = none) (halive : c.receiverAlive = true) :
    c.queue = [] := by
  unfold next at h
  split at h
  · assumption
  · simp [halive] at h

end Channel

end JustWebrtc
