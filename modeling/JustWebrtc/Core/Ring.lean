import Mathlib.Data.Nat.Basic
import Mathlib.Tactic

/-!
# An overflowing broadcast ring

A ring retains at most `capacity` messages. Each receiver has a position of its own in
the sequence of all messages ever pushed; a message that every receiver has passed is
released, and in overflow mode a push to a full ring drops the oldest message. The
abstract side is the plain log of all pushed messages: as long as one receiver stays
idle, the ring retains exactly the last `capacity` messages of the log, and what a
receiver is handed is a walk along the log that skips only what it lagged behind.
-/

namespace JustWebrtc

/-- Why a push can be refused. -/
inductive RingError
  | full
  | closed
  | inactive
  deriving DecidableEq, Repr

/-- What one attempt to receive finds. -/
inductive Received (α : Type*)
  | message (m : α)
  | overflowed (missed : Nat)
  | closed
  | empty
  deriving DecidableEq, Repr

/-- The shared part of a broadcast channel. A dropped receiver leaves `none` behind. -/
structure Ring (α : Type*) where
  /-- The number of messages the ring may retain. -/
  capacity : Nat
  /-- Whether a push to a full ring drops the oldest message. -/
  overflow : Bool
  /-- The position of the oldest retained message in the sequence of all messages. -/
  headPos : Nat
  /-- The retained messages, oldest first. -/
  queue : List α
  /-- The position of each receiver. -/
  receivers : List (Option Nat)
  /-- Whether the channel has been closed. -/
  isClosed : Bool
  positive : 0 < capacity
  bounded : queue.length ≤ capacity

namespace Ring

variable {α : Type*}

/-- A new channel with its first receiver. -/
def broadcast (capacity : Nat) (positive : 0 < capacity) : Ring α where
  capacity := capacity
  overflow := false
  headPos := 0
  queue := []
  receivers := [some 0]
  isClosed := false
  positive := positive
  bounded := Nat.zero_le _

/-- Switch overflow mode. -/
def setOverflow (r : Ring α) (overflow : Bool) : Ring α := { r with overflow := overflow }

/-- Some live receiver has still to read the message at a position. -/
def awaited (receivers : List (Option Nat)) (pos : Nat) : Bool :=
  receivers.any fun p => p.any (· ≤ pos)

/-- Release messages from the front as long as no receiver awaits them. -/
def release (receivers : List (Option Nat)) : Nat → List α → Nat × List α
  | head, [] => (head, [])
  | head, m :: rest =>
    if awaited receivers head then (head, m :: rest) else release receivers (head + 1) rest

theorem length_release (receivers : List (Option Nat)) (head : Nat) (q : List α) :
    (release receivers head q).2.length ≤ q.length := by
  induction q generalizing head with
  | nil => exact le_rfl
  | cons m rest ih =>
    rw [release]
    split
    · exact le_rfl
    · exact (ih (head + 1)).trans (Nat.le_succ _)

/-- Store new receiver positions and release what all of them have passed. -/
def settle (r : Ring α) (receivers : List (Option Nat)) : Ring α :=
  { r with
    receivers := receivers
    headPos := (release receivers r.headPos r.queue).1
    queue := (release receivers r.headPos r.queue).2
    bounded := (length_release _ _ _).trans r.bounded }

/-- Push one message, dropping the oldest one of a full ring in overflow mode. -/
def tryBroadcast (r : Ring α) (m : α) : Except RingError (Ring α) :=
  if r.isClosed then .error .closed
  else if r.receivers.all Option.isNone then .error .inactive
  else if h : r.queue.length = r.capacity then
    if r.overflow then
      .ok { r with
        headPos := r.headPos + 1
        queue := r.queue.tail ++ [m]
        bounded := by
          have := r.positive
          rw [List.length_append, List.length_tail, List.length_singleton]
          omega }
    else .error .full
  else .ok { r with
    queue := r.queue ++ [m]
    bounded := by
      have := r.bounded
      rw [List.length_append, List.length_singleton]
      omega }

/-- Register a receiver that has no message to read yet; its handle is the old count. -/
def newReceiver (r : Ring α) : Ring α :=
  { r with receivers := r.receivers ++ [some (r.headPos + r.queue.length)] }

/-- One attempt of receiver `i` to read. A receiver that fell behind the oldest retained
message is told so once and moved up to it. -/
def tryRecv (r : Ring α) (i : Nat) : Option (Received α × Ring α) :=
  match r.receivers[i]? with
  | some (some pos) =>
    if pos < r.headPos then
      some (.overflowed (r.headPos - pos), r.settle (r.receivers.set i (some r.headPos)))
    else
      match r.queue[pos - r.headPos]? with
      | some m => some (.message m, r.settle (r.receivers.set i (some (pos + 1))))
      | none => some (if r.isClosed then .closed else .empty, r)
  | _ => none

/-- Drop receiver `i`; the channel closes with its last receiver. -/
def dropReceiver (r : Ring α) (i : Nat) : Ring α :=
  let s := r.settle (r.receivers.set i none)
  { s with isClosed := r.isClosed || s.receivers.all Option.isNone }

/-! ## The log behind the ring -/

/-- An idle receiver holds every message back. -/
theorem release_of_idle {receivers : List (Option Nat)} {idle : Nat}
    (h : receivers[idle]? = some (some 0)) (head : Nat) (q : List α) :
    release receivers head q = (head, q) := by
  have ha : awaited receivers head = true := by
    rw [awaited, List.any_eq_true]
    exact ⟨some 0, List.mem_of_getElem? h, by simp⟩
  cases q with
  | nil => rfl
  | cons m rest => rw [release, if_pos ha]

/-- The ring is open, in overflow mode, has the never-reading receiver `idle`, and
retains exactly the last `capacity` messages of `log`. -/
structure Records (r : Ring α) (idle : Nat) (log : List α) : Prop where
  overflow : r.overflow = true
  opened : r.isClosed = false
  idle : r.receivers[idle]? = some (some 0)
  head : r.headPos = log.length - r.capacity
  queue : r.queue = log.drop r.headPos

namespace Records

variable {r : Ring α} {idle : Nat} {log : List α}

/-- A new overflowing channel records the empty log, its first receiver being idle. -/
theorem broadcast {capacity : Nat} (positive : 0 < capacity) :
    ((Ring.broadcast (α := α) capacity positive).setOverflow true).Records 0 [] where
  overflow := rfl
  opened := rfl
  idle := rfl
  head := by simp [Ring.broadcast, setOverflow]
  queue := rfl

/-- Positions end where the log ends. -/
theorem headPos_add (h : r.Records idle log) : r.headPos + r.queue.length = log.length := by
  rw [h.queue, List.length_drop, h.head]
  omega

/-- Every push succeeds and appends to the log, whatever the receivers have read. -/
theorem tryBroadcast (h : r.Records idle log) (m : α) :
    ∃ r', r.tryBroadcast m = .ok r' ∧ r'.Records idle (log ++ [m]) ∧
      r'.receivers = r.receivers ∧ r'.capacity = r.capacity := by
  have hactive : r.receivers.all Option.isNone = false := by
    rw [List.all_eq_false]
    exact ⟨some 0, List.mem_of_getElem? h.idle, by simp⟩
  have hpos := h.headPos_add
  have hhead := h.head
  have hcap := r.positive
  unfold Ring.tryBroadcast
  rw [h.opened, hactive]
  simp only [Bool.false_eq_true, if_false, h.overflow, if_true]
  by_cases hfull : r.queue.length = r.capacity
  · rw [dif_pos hfull]
    refine ⟨_, rfl, ⟨rfl, rfl, h.idle, ?_, ?_⟩, rfl, rfl⟩
    · change r.headPos + 1 = _
      rw [List.length_append, List.length_singleton]
      change r.headPos + 1 = log.length + 1 - r.capacity
      omega
    · change r.queue.tail ++ [m] = (log ++ [m]).drop (r.headPos + 1)
      rw [List.drop_append_of_le_length (by omega), h.queue, List.tail_drop]
  · rw [dif_neg hfull]
    have hle := r.bounded
    refine ⟨_, rfl, ⟨rfl, rfl, h.idle, ?_, ?_⟩, rfl, rfl⟩
    · rw [List.length_append, List.length_singleton]
      change r.headPos = log.length + 1 - r.capacity
      omega
    · change r.queue ++ [m] = (log ++ [m]).drop r.headPos
      rw [List.drop_append_of_le_length (by omega), ← h.queue]

/-- Moving receivers other than the idle one leaves the retained messages alone. -/
theorem settle (h : r.Records idle log) {receivers : List (Option Nat)}
    (hidle : receivers[idle]? = some (some 0)) : (r.settle receivers).Records idle log := by
  have hrel := release_of_idle hidle r.headPos r.queue
  refine ⟨h.overflow, h.opened, hidle, ?_, ?_⟩
  · simp only [Ring.settle, hrel]
    exact h.head
  · simp only [Ring.settle, hrel]
    exact h.queue

/-- A new receiver starts at the end of the log. -/
theorem newReceiver (h : r.Records idle log) :
    r.newReceiver.Records idle log ∧
      r.newReceiver.receivers = r.receivers ++ [some log.length] := by
  constructor
  · refine ⟨h.overflow, h.opened, ?_, h.head, h.queue⟩
    have hlt := (List.getElem?_eq_some_iff.mp h.idle).1
    rw [Ring.newReceiver, List.getElem?_append_left hlt]
    exact h.idle
  · rw [Ring.newReceiver, h.headPos_add]

/-- What a receive attempt of another receiver finds, read off the log. -/
theorem tryRecv (h : r.Records idle log) {i pos : Nat} (hi : i ≠ idle)
    (hpos : r.receivers[i]? = some (some pos)) (hle : pos ≤ log.length) :
    (pos + r.capacity < log.length ∧ ∃ n r', r.tryRecv i = some (.overflowed n, r') ∧
        r'.Records idle log ∧ r'.capacity = r.capacity ∧
        r'.receivers = r.receivers.set i (some (log.length - r.capacity))) ∨
      (∃ m r', log[pos]? = some m ∧ r.tryRecv i = some (.message m, r') ∧
        r'.Records idle log ∧ r'.capacity = r.capacity ∧
        r'.receivers = r.receivers.set i (some (pos + 1))) ∨
      (pos = log.length ∧ r.tryRecv i = some (.empty, r)) := by
  have hhead := h.head
  have hset (p : Nat) : (r.receivers.set i (some p))[idle]? = some (some 0) := by
    rw [List.getElem?_set_ne hi]
    exact h.idle
  by_cases hlag : pos < r.headPos
  · refine Or.inl ⟨by omega, r.headPos - pos, _, ?_, h.settle (hset r.headPos), rfl, ?_⟩
    · rw [Ring.tryRecv, hpos]
      simp only [hlag, if_true]
    · rw [← hhead]
      rfl
  · have hget : r.queue[pos - r.headPos]? = log[pos]? := by
      rw [h.queue, List.getElem?_drop]
      congr 1
      omega
    rcases hle.lt_or_eq with hlt | heq
    · refine Or.inr (Or.inl ⟨log[pos], _, List.getElem?_eq_getElem hlt, ?_,
        h.settle (hset (pos + 1)), rfl, rfl⟩)
      rw [Ring.tryRecv, hpos]
      simp only [hlag, if_false, hget, List.getElem?_eq_getElem hlt]
    · refine Or.inr (Or.inr ⟨heq, ?_⟩)
      have hnone : log[pos]? = none := List.getElem?_eq_none (by omega)
      rw [Ring.tryRecv, hpos]
      simp only [hlag, if_false, hget, hnone, h.opened, Bool.false_eq_true]

/-- A receiver with only the last message unread receives it and then finds the ring empty. -/
theorem tryRecv_last {m : α} (h : r.Records idle (log ++ [m])) {i : Nat} (hi : i ≠ idle)
    (hpos : r.receivers[i]? = some (some log.length)) :
    ∃ r', r.tryRecv i = some (.message m, r') ∧ r'.tryRecv i = some (.empty, r') := by
  have hlength : (log ++ [m]).length = log.length + 1 := List.length_append
  have hcap := r.positive
  obtain ⟨hlag, _⟩ | ⟨m', r', hm, hrecv, h', _, hread⟩ | ⟨hend, _⟩ := h.tryRecv hi hpos (by omega)
  · omega
  · obtain rfl : m = m' := by simpa using hm
    have hpos' : r'.receivers[i]? = some (some (log.length + 1)) := by
      rw [hread, List.getElem?_set_self (List.getElem?_eq_some_iff.mp hpos).1]
    refine ⟨r', hrecv, ?_⟩
    -- a second attempt stands at the end of the log
    obtain ⟨hlag, _⟩ | ⟨m', _, hm, _⟩ | ⟨_, hempty⟩ := h'.tryRecv hi hpos' (by omega)
    · omega
    · simp at hm
    · exact hempty
  · omega

/-- Dropping another receiver neither releases a message nor closes the channel. -/
theorem dropReceiver (h : r.Records idle log) {i : Nat} (hi : i ≠ idle) :
    (r.dropReceiver i).Records idle log := by
  have hidle : (r.receivers.set i none)[idle]? = some (some 0) := by
    rw [List.getElem?_set_ne hi]
    exact h.idle
  have hs := h.settle hidle
  have hactive : (r.settle (r.receivers.set i none)).receivers.all Option.isNone = false := by
    rw [List.all_eq_false]
    exact ⟨some 0, List.mem_of_getElem? hidle, by simp⟩
  refine ⟨hs.overflow, ?_, hidle, hs.head, hs.queue⟩
  simp only [Ring.dropReceiver, hactive, h.opened, Bool.or_self]

end Records

/-! ## Walks along the log -/

/-- The items handed to a subscriber that joined when the log had `start` entries, and the
position after them, while the log grows. An item is the next log entry. A mark of loss is
handed out only when more than `capacity` entries are unread, and skips to the oldest of
the last `capacity` ones. -/
inductive Follows (capacity start : Nat) : List α → List (Option α) → Nat → Prop
  | nil {log} : log.length = start → Follows capacity start log [] start
  | grow {log xs p} (m : α) : Follows capacity start log xs p →
      Follows capacity start (log ++ [m]) xs p
  | item {log xs p m} : Follows capacity start log xs p → log[p]? = some m →
      Follows capacity start log (xs ++ [some m]) (p + 1)
  | loss {log xs p} : Follows capacity start log xs p → p + capacity < log.length →
      Follows capacity start log (xs ++ [none]) (log.length - capacity)

namespace Follows

variable {capacity start : Nat} {log : List α} {xs : List (Option α)} {p : Nat}

/-- A walk goes forward and does not pass the end of the log. -/
theorem bounds (h : Follows capacity start log xs p) : start ≤ p ∧ p ≤ log.length := by
  induction h with
  | nil hl => exact ⟨le_rfl, hl.ge⟩
  | grow m _ ih => rw [List.length_append, List.length_singleton]; omega
  | item _ hm ih =>
    have hlt := (List.getElem?_eq_some_iff.mp hm).1
    omega
  | loss _ hlt ih => omega

/-- A walk hands out no more items than it goes forward. -/
theorem length_le (h : Follows capacity start log xs p) : xs.length + start ≤ p := by
  induction h with
  | nil => simp
  | grow _ _ ih => exact ih
  | item _ _ ih => rw [List.length_append, List.length_singleton]; omega
  | loss h hlt ih =>
    have hb := h.bounds
    rw [List.length_append, List.length_singleton]
    omega

/-- A walk without a mark of loss is the stretch of the log it covers. -/
theorem lossless (h : Follows capacity start log xs p) (hx : none ∉ xs) :
    xs = ((log.take p).drop start).map some := by
  induction h with
  | nil => simp
  | grow m h ih =>
    rw [List.take_append_of_le_length h.bounds.2]
    exact ih hx
  | @item log xs p m h hm ih =>
    have hb := h.bounds
    obtain ⟨hlt, hget⟩ := List.getElem?_eq_some_iff.mp hm
    have hxs := ih fun hn => hx (List.mem_append_left _ hn)
    rw [List.take_succ_eq_append_getElem hlt, List.drop_append_of_le_length (by simp; omega),
      List.map_append, ← hxs, hget, List.map_singleton]
  | loss => exact absurd (List.mem_append_right _ List.mem_cons_self) hx

/-- A walk that has no more than `capacity` entries to cover has no mark of loss. -/
theorem no_loss (h : Follows capacity start log xs p) (hl : log.length ≤ start + capacity) :
    none ∉ xs := by
  induction h with
  | nil => exact List.not_mem_nil
  | grow m _ ih =>
    rw [List.length_append, List.length_singleton] at hl
    exact ih (by omega)
  | item _ _ ih =>
    rw [List.mem_append, not_or]
    exact ⟨ih hl, by simp⟩
  | loss h hlt _ =>
    have hb := h.bounds
    omega

/-- A walk hands out entries of the log from where it starts. -/
theorem mem (h : Follows capacity start log xs p) {m : α} (hm : some m ∈ xs) :
    m ∈ log.drop start := by
  induction h with
  | nil => simp at hm
  | @grow log xs p m' h ih =>
    rw [List.drop_append_of_le_length (h.bounds.1.trans h.bounds.2)]
    exact List.mem_append_left _ (ih hm)
  | @item log xs p m' h hget ih =>
    rcases List.mem_append.mp hm with hm | hm
    · exact ih hm
    · rw [List.mem_singleton, Option.some.injEq] at hm
      subst hm
      refine List.mem_of_getElem? (i := p - start) ?_
      rw [List.getElem?_drop, Nat.add_sub_cancel' h.bounds.1]
      exact hget
  | loss _ _ ih =>
    rcases List.mem_append.mp hm with hm | hm
    · exact ih hm
    · simp at hm

end Follows

end Ring

end JustWebrtc
