import Mathlib.Data.Finmap
import JustWebrtc.Core.Machine
import JustWebrtc.Core.Ring
import JustWebrtc.Core.Channel
import JustWebrtc.Signalling.Proto

/-!
# State of a signalling server

The shared map of advertised peers, the broadcast of peer changes, and the channels and
streams handed out to clients. Channels and streams outlive the map entry they were
opened through, so the map holds references into a table of channels. Handlers of
concurrent requests are suspended between their accesses to shared state; the phase of a
call says which access comes next.
-/

namespace JustWebrtc.Signalling

/-- The write-once sender cells of a map entry, as references into the channel table. -/
structure Listeners where
  offerListenerTx : Option Nat := none
  answerListenerTx : Option Nat := none
  deriving DecidableEq, Repr

namespace Listeners

/-- The sender cell of a slot. -/
def tx (l : Listeners) : Slot → Option Nat
  | .offer => l.offerListenerTx
  | .answer => l.answerListenerTx

/-- Fill the sender cell of a slot. -/
def setTx (l : Listeners) (slot : Slot) (c : Nat) : Listeners :=
  match slot with
  | .offer => { l with offerListenerTx := some c }
  | .answer => { l with answerListenerTx := some c }

@[simp] theorem tx_default (slot : Slot) : ({} : Listeners).tx slot = none := by
  cases slot <;> rfl

@[simp] theorem tx_setTx (l : Listeners) (slot : Slot) (c : Nat) :
    (l.setTx slot c).tx slot = some c := by
  cases slot <;> rfl

theorem tx_setTx_ne (l : Listeners) {slot other : Slot} (c : Nat) (h : other ≠ slot) :
    (l.setTx slot c).tx other = l.tx other := by
  cases slot <;> cases other <;> first | rfl | exact absurd rfl h

end Listeners

/-- A signal channel with the slot and the peer it was opened for. -/
structure SignalChannel where
  slot : Slot
  peer : Id
  channel : Channel SignalListenerRsp

/-- The response stream of a peer listener, a generator that owns a broadcast receiver. -/
structure PeerStream where
  /-- The peer that opened the listener. -/
  localId : Id
  /-- The result loaded with the initial changes, until it has been yielded. -/
  result : Option PeerListenerRsp
  /-- The handle of the broadcast receiver. -/
  rx : Nat
  /-- Everything yielded so far. -/
  items : List (Except Status PeerListenerRsp)
  /-- Whether the stream still exists. -/
  alive : Bool
  deriving DecidableEq

/-- Who runs the teardown of a peer, and so what is answered after it. -/
inductive Caller
  | teardown
  | signal (slot : Slot)
  deriving DecidableEq, Repr

/-- What the caller of a successful teardown answers. -/
def Caller.result : Caller → Except Status Response
  | .teardown => .ok .teardown
  | .signal slot => .error (Status.remoteDisconnected slot)

/-- The next access to shared state of a suspended handler. -/
inductive Phase
  /-- Nothing has been done yet. -/
  | received
  /-- `advertise` has its identifier and waits for the write lock. -/
  | inserting (id : Id)
  /-- `advertise` has inserted its entry and is about to broadcast it. -/
  | announcing (id : Id)
  /-- A signal found its receiver gone and is about to tear the peer down. -/
  | evicting (id : Id) (slot : Slot)
  /-- A teardown has broadcast the removal and waits for the write lock. -/
  | removing (id : Id) (caller : Caller)
  /-- `open_peer_listener` has its snapshot and is about to subscribe. -/
  | subscribing (id : Id) (initialPeerChanges : List Id)
  /-- The handler has returned. -/
  | done (result : Except Status Response)
  deriving DecidableEq

/-- A request with the progress of its handler. -/
structure Call where
  request : Request
  phase : Phase
  deriving DecidableEq

/-- The state shared by all handlers of one `Signalling` value. -/
structure Server where
  /-- The process-wide `GENERATOR`. -/
  generator : UInt64
  peers : Finmap fun _ : Id => Listeners
  /-- The peer change channel; receiver 0 is the one kept in `Signalling`. -/
  broadcast : Ring PeerListenerRsp
  channels : List SignalChannel
  streams : List PeerStream
  calls : List Call

/-- What a run records about the accesses to shared state. -/
inductive Event
  | allocated (call : Nat) (id : Id)
  | inserted (call : Nat) (id : Id)
  | duplicated (call : Nat) (id : Id)
  | broadcast (message : PeerListenerRsp) (sent : Bool)
  | removed (id : Id)
  | subscribed (call stream : Nat)
  | accepted (call : Nat)
  deriving DecidableEq, Repr

namespace Server

/-- `Signalling::new`, with the identifier counter at zero. -/
def new : Server where
  generator := 0
  peers := ∅
  broadcast := (Ring.broadcast 16 (by decide)).setOverflow true
  channels := []
  streams := []
  calls := []

/-- Move the handler of call `k` to a phase. -/
def setPhase (s : Server) (k : Nat) (phase : Phase) : Server :=
  { s with calls := s.calls.modify k fun c => { c with phase := phase } }

variable (s : Server) (k : Nat) (phase : Phase)

@[simp] theorem generator_setPhase : (s.setPhase k phase).generator = s.generator := rfl
@[simp] theorem peers_setPhase : (s.setPhase k phase).peers = s.peers := rfl
@[simp] theorem broadcast_setPhase : (s.setPhase k phase).broadcast = s.broadcast := rfl
@[simp] theorem channels_setPhase : (s.setPhase k phase).channels = s.channels := rfl
@[simp] theorem streams_setPhase : (s.setPhase k phase).streams = s.streams := rfl

@[simp] theorem length_calls_setPhase : (s.setPhase k phase).calls.length = s.calls.length := by
  simp [setPhase]

variable {s k phase}

/-- Moving a call changes its phase and nothing else of any call. -/
theorem getElem?_calls_setPhase {j : Nat} {call c : Call} (hk : s.calls[k]? = some call) :
    (s.setPhase k phase).calls[j]? = some c ↔
      (j = k ∧ c = { call with phase := phase }) ∨ (j ≠ k ∧ s.calls[j]? = some c) := by
  by_cases h : j = k
  · subst h
    simp [setPhase, hk, eq_comm]
  · simp [setPhase, h, Ne.symm h]

/-- A call of the state after a scope is the moved one or was there before. -/
theorem calls_setPhase_cases {u : Server} {j : Nat} {call c : Call} (hu : u.calls = s.calls)
    (hk : s.calls[k]? = some call) (h : (u.setPhase k phase).calls[j]? = some c) :
    (j = k ∧ c = { call with phase := phase }) ∨ (j ≠ k ∧ s.calls[j]? = some c) := by
  rw [← hu] at hk ⊢
  exact (getElem?_calls_setPhase hk).mp h

/-- Call `k` is suspended in a phase. -/
def At (s : Server) (k : Nat) (phase : Phase) : Prop :=
  ∃ request, s.calls[k]? = some ⟨request, phase⟩

/-- The phases after one call has moved. -/
theorem at_setPhase {j : Nat} {phase' : Phase} {call : Call} (hk : s.calls[k]? = some call) :
    (s.setPhase k phase).At j phase' ↔ (j = k ∧ phase' = phase) ∨ (j ≠ k ∧ s.At j phase') := by
  simp only [At, getElem?_calls_setPhase hk]
  constructor
  · rintro ⟨request, ⟨hj, hc⟩ | ⟨hj, hc⟩⟩
    · exact Or.inl ⟨hj, congrArg Call.phase hc⟩
    · exact Or.inr ⟨hj, request, hc⟩
  · rintro (⟨hj, rfl⟩ | ⟨hj, request, hc⟩)
    · exact ⟨call.request, Or.inl ⟨hj, rfl⟩⟩
    · exact ⟨request, Or.inr ⟨hj, hc⟩⟩

/-- A new request is suspended before its first scope. -/
theorem at_receive {j : Nat} {request : Request} {phase' : Phase} (h : phase' ≠ .received) :
    ({ s with calls := s.calls ++ [⟨request, .received⟩] } : Server).At j phase' ↔
      s.At j phase' := by
  simp only [At, List.getElem?_append]
  split
  · exact Iff.rfl
  · rename_i hj
    have hn : s.calls[j]? = none := List.getElem?_eq_none (by omega)
    simp only [hn, reduceCtorEq, exists_false, iff_false, not_exists]
    intro r hr
    have hm := List.mem_of_getElem? hr
    rw [List.mem_singleton, Call.mk.injEq] at hm
    exact h hm.2

end Server

end JustWebrtc.Signalling
