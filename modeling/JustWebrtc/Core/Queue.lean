import Mathlib.Data.List.Basic
import JustWebrtc.Core.Machine

/-!
# Unbounded channels with any number of receivers

A first-in first-out queue that always has room. A receiver that finds it empty waits, or is told
that the channel is disconnected once no sender is left; a message that nobody can receive any
more is handed back to its sender. This is the documented behaviour of `flume::unbounded`, which
is assumed here. So the messages that were accepted are, in order, those that receivers have taken
and those that still wait.
-/

namespace JustWebrtc

/-- The messages that wait, and which sides of the channel still exist. -/
structure Queue (α : Type*) where
  queue : List α
  senderAlive : Bool
  receiverAlive : Bool
  deriving DecidableEq, Repr

namespace Queue

variable {α ρ : Type*}

/-- A new empty channel. -/
def unbounded : Queue α := ⟨[], true, true⟩

/-- Queue a message, unless no receiver is left. -/
def send (q : Queue α) (x : α) : Option (Queue α) :=
  if q.receiverAlive then some { q with queue := q.queue ++ [x] } else none

/-- Receive the oldest message, or none where the receiver has to wait. Without a sender the
receiver of an empty channel is told so. -/
def recv (q : Queue α) : Option (Option α × Queue α) :=
  match q.queue with
  | x :: rest => some (some x, { q with queue := rest })
  | [] => if q.senderAlive then none else some (none, q)

/-- What is done with a channel; receivers have names. -/
inductive Action (α ρ : Type*)
  | send (x : α)
  | recv (receiver : ρ)
  | dropSender
  | dropReceiver
  deriving DecidableEq, Repr

/-- What is recorded of a channel. -/
inductive Event (α ρ : Type*)
  | sent (x : α)
  | refused (x : α)
  | received (receiver : ρ) (x : α)
  | disconnected (receiver : ρ)
  deriving DecidableEq, Repr

/-- The message that an event adds to the channel. -/
def Event.added : Event α ρ → Option α
  | .sent x => some x
  | _ => none

/-- The message that an event takes from the channel. -/
def Event.taken : Event α ρ → Option α
  | .received _ x => some x
  | _ => none

/-- The events of an attempt to send. -/
def sending (q : Queue α) (x : α) : Queue α × List (Event α ρ) :=
  match q.send x with
  | some q => (q, [.sent x])
  | none => (q, [.refused x])

/-- A channel whose senders and receivers act in any order. -/
def machine (start : Queue α) : Machine (Queue α) (Action α ρ) (Event α ρ) where
  init := start
  step q
    | .send x => if q.senderAlive then some (q.sending x) else none
    | .recv receiver =>
      if q.receiverAlive then
        q.recv.map fun out => (out.2, match out.1 with
          | some x => [.received receiver x]
          | none => [.disconnected receiver])
      else none
    | .dropSender => some ({ q with senderAlive := false }, [])
    | .dropReceiver => some ({ q with receiverAlive := false }, [])

/-- The steps of a channel, each with its guards. -/
inductive Moves (q : Queue α) : Action α ρ → Queue α × List (Event α ρ) → Prop
  | sent {x} : q.senderAlive = true → q.receiverAlive = true →
      Moves q (.send x) ({ q with queue := q.queue ++ [x] }, [.sent x])
  | refused {x} : q.senderAlive = true → q.receiverAlive = false →
      Moves q (.send x) (q, [.refused x])
  | received {receiver x rest} : q.receiverAlive = true → q.queue = x :: rest →
      Moves q (.recv receiver) ({ q with queue := rest }, [.received receiver x])
  | disconnected {receiver} : q.receiverAlive = true → q.queue = [] → q.senderAlive = false →
      Moves q (.recv receiver) (q, [.disconnected receiver])
  | dropSender : Moves q .dropSender ({ q with senderAlive := false }, [])
  | dropReceiver : Moves q .dropReceiver ({ q with receiverAlive := false }, [])

/-- A message is received from the front; an empty channel without senders is disconnected. -/
theorem recv_eq_some {q r : Queue α} {x : Option α} (h : q.recv = some (x, r)) :
    (∃ y rest, x = some y ∧ q.queue = y :: rest ∧ r = { q with queue := rest }) ∨
      (x = none ∧ q.queue = [] ∧ q.senderAlive = false ∧ r = q) := by
  unfold recv at h
  split at h
  · rename_i y rest hq
    rw [Option.some.injEq, Prod.mk.injEq] at h
    exact Or.inl ⟨y, rest, h.1.symm, hq, h.2.symm⟩
  · rename_i hq
    split at h
    · simp at h
    · rename_i hs
      rw [Option.some.injEq, Prod.mk.injEq] at h
      exact Or.inr ⟨h.1.symm, hq, by simpa using hs, h.2.symm⟩

/-- Every step of a channel is one of these. -/
theorem step_moves {start q r : Queue α} {a : Action α ρ} {evs : List (Event α ρ)}
    (h : (machine start).step q a = some (r, evs)) : q.Moves a (r, evs) := by
  cases a with
  | send x =>
    simp only [machine, Option.ite_none_right_eq_some, Option.some.injEq] at h
    obtain ⟨hs, h⟩ := h
    rw [← h, sending, send]
    by_cases hr : q.receiverAlive = true
    · rw [if_pos hr]
      exact .sent hs hr
    · rw [if_neg hr]
      exact .refused hs (by simpa using hr)
  | recv receiver =>
    simp only [machine, Option.ite_none_right_eq_some, Option.map_eq_some_iff, Prod.exists] at h
    obtain ⟨hr, x, q', hrecv, h⟩ := h
    rcases recv_eq_some hrecv with ⟨y, rest, rfl, hq, rfl⟩ | ⟨rfl, hq, hs, rfl⟩
    · rw [← h]
      exact .received hr hq
    · rw [← h]
      exact .disconnected hr hq hs
  | dropSender =>
    simp only [machine, Option.some.injEq] at h
    rw [← h]
    exact .dropSender
  | dropReceiver =>
    simp only [machine, Option.some.injEq] at h
    rw [← h]
    exact .dropReceiver

variable {start : Queue α} {ok : Queue α → Action α ρ → Prop} {tr : List (Event α ρ)}
  {q : Queue α}

/-- What waited at the start or was accepted has been received, in order, or still waits. -/
theorem conserved (hr : (machine start).Run ok tr q) :
    start.queue ++ tr.filterMap Event.added = tr.filterMap Event.taken ++ q.queue := by
  refine hr.invariant (I := fun tr q =>
    start.queue ++ tr.filterMap Event.added = tr.filterMap Event.taken ++ q.queue)
    (by simp [machine]) ?_
  intro tr q a r evs _ h _ hs
  have hm := step_moves hs
  generalize hout : (r, evs) = out at hm
  rw [List.filterMap_append, List.filterMap_append, ← List.append_assoc, h]
  cases hm with
  | sent _ _ =>
    obtain ⟨rfl, rfl⟩ := Prod.mk.inj hout
    simp [Event.added, Event.taken]
  | received _ hq =>
    obtain ⟨rfl, rfl⟩ := Prod.mk.inj hout
    simp [Event.added, Event.taken, hq]
  | refused _ _ | disconnected _ _ _ | dropSender | dropReceiver =>
    obtain ⟨rfl, rfl⟩ := Prod.mk.inj hout
    simp [List.filterMap_cons, Event.added, Event.taken]

/-- Once a receiver has been told that the channel is disconnected, no sender is left and
nothing waits. -/
theorem disconnected (hr : (machine start).Run ok tr q) {receiver : ρ}
    (h : .disconnected receiver ∈ tr) : q.senderAlive = false ∧ q.queue = [] := by
  refine hr.invariant (I := fun tr q => .disconnected receiver ∈ tr →
    q.senderAlive = false ∧ q.queue = []) (by simp) ?_ h
  intro tr q a r evs _ ih _ hs h
  have hm := step_moves hs
  generalize hout : (r, evs) = out at hm
  cases hm with
  | sent hs' _ =>
    obtain ⟨rfl, rfl⟩ := Prod.mk.inj hout
    have hold := ih (by simpa using h)
    simp [hold.1] at hs'
  | refused _ _ | dropReceiver =>
    obtain ⟨rfl, rfl⟩ := Prod.mk.inj hout
    exact ih (by simpa using h)
  | received _ hq =>
    obtain ⟨rfl, rfl⟩ := Prod.mk.inj hout
    have hold := ih (by simpa using h)
    simp [hold.2] at hq
  | disconnected _ hq hs' =>
    obtain ⟨rfl, rfl⟩ := Prod.mk.inj hout
    exact ⟨hs', hq⟩
  | dropSender =>
    obtain ⟨rfl, rfl⟩ := Prod.mk.inj hout
    exact ⟨rfl, (ih (by simpa using h)).2⟩

/-- A sender that is gone does not come back, and nothing is sent without one. -/
theorem senderless (hr : (machine start).Run ok tr q) (h : start.senderAlive = false) :
    q.senderAlive = false ∧ tr.filterMap Event.added = [] := by
  refine hr.invariant (I := fun tr q => q.senderAlive = false ∧ tr.filterMap Event.added = [])
    ⟨h, rfl⟩ ?_
  intro tr q a r evs _ ih _ hs
  obtain ⟨hnone, hadded⟩ := ih
  have hm := step_moves hs
  generalize hout : (r, evs) = out at hm
  rw [List.filterMap_append, hadded, List.nil_append]
  cases hm with
  | sent hs' _ | refused hs' _ => simp [hnone] at hs'
  | received _ _ | disconnected _ _ _ | dropReceiver =>
    obtain ⟨rfl, rfl⟩ := Prod.mk.inj hout
    exact ⟨hnone, by simp [List.filterMap_cons, Event.added]⟩
  | dropSender =>
    obtain ⟨rfl, rfl⟩ := Prod.mk.inj hout
    exact ⟨rfl, rfl⟩

/-- A channel without a sender lets nobody wait. -/
theorem recv_of_senderless (h : q.senderAlive = false) :
    ∃ r, q.recv = some (q.queue.head?, r) := by
  unfold recv
  split
  · rename_i hq
    exact ⟨_, by rw [hq]; rfl⟩
  · rename_i hq
    exact ⟨q, by rw [if_neg (by simp [h]), hq]; rfl⟩

end Queue

end JustWebrtc
