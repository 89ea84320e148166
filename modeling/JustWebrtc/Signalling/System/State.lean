import JustWebrtc.Signalling.Server.Handlers
import JustWebrtc.Signalling.Client.Peer

/-!
# A server and its clients

Any number of clients run `start_peer` once, step their peer and close it, against one
server. A client sends its requests one after the other and awaits each response, which
the transport may also lose or replace by an error. A client reads a stream in the order
in which the server yielded it, at its own pace; the transport may break the stream.
-/

namespace JustWebrtc.Signalling

variable {ι A O C : Type*}

/-- Where a client is: in `start_peer`, running its peer, or in `close`. A client that
awaits a response knows the call of its request. -/
inductive Client (A O C : Type*)
  | fresh
  | advertising (call : Nat)
  | openingPeerListener (localId : Id) (call : Nat)
  | openingOfferListener (localId : Id) (peerListener call : Nat)
  | openingAnswerListener (localId : Id) (peerListener offerListener call : Nat)
  /-- `start_peer` has returned an error. -/
  | failed (localId : Option Id)
  | running (peer : Peer A O C) (call : Option Nat)
  | closing (peer : Peer A O C) (call : Nat)
  /-- `close` has returned and consumed the peer. -/
  | closed (peer : Peer A O C)

namespace Client

/-- The identifier the client was given. -/
def localId : Client A O C → Option Id
  | .fresh | .advertising _ => none
  | .openingPeerListener id _ | .openingOfferListener id _ _
  | .openingAnswerListener id _ _ _ => some id
  | .failed id => id
  | .running p _ | .closing p _ | .closed p => some p.localId

/-- The peer that `start_peer` returned. -/
def peer? : Client A O C → Option (Peer A O C)
  | .running p _ | .closing p _ | .closed p => some p
  | _ => none

theorem localId_of_peer? {c : Client A O C} {p : Peer A O C} (h : c.peer? = some p) :
    c.localId = some p.localId := by
  cases c <;> simp_all [Client.peer?, Client.localId]

/-- The peer of a client that runs it with no request under way. -/
def idlePeer? : Client A O C → Option (Peer A O C)
  | .running p none => some p
  | _ => none

theorem eq_of_idlePeer? {c : Client A O C} {p : Peer A O C} (h : c.idlePeer? = some p) :
    c = .running p none := by
  unfold idlePeer? at h
  split at h
  · rw [Option.some.inj h]
  · simp at h

/-- The call whose response the client awaits. -/
def call : Client A O C → Option Nat
  | .advertising k | .openingPeerListener _ k | .openingOfferListener _ _ k
  | .openingAnswerListener _ _ _ k | .closing _ k => some k
  | .running _ k => k
  | .fresh | .failed _ | .closed _ => none

/-- The client is in `start_peer`, with a request under way. -/
def starting : Client A O C → Bool
  | .advertising _ | .openingPeerListener _ _ | .openingOfferListener _ _ _
  | .openingAnswerListener _ _ _ _ => true
  | _ => false

end Client

namespace Server

/-- The items of a peer stream that have been put on the wire. -/
def peerWire (s : Server) (i : Nat) : List (Except Status PeerListenerRsp) :=
  (s.streams[i]?).elim [] PeerStream.items

/-- The messages of a signal channel that have been put on the wire. -/
def signalWire (s : Server) (c : Nat) : List SignalListenerRsp :=
  (s.channels[c]?).elim [] fun sc => sc.channel.yielded

/-- A request arrives. -/
def receive (s : Server) (request : Request) : Server :=
  { s with calls := s.calls ++ [⟨request, .received⟩] }

end Server

/-- A server with its clients. -/
structure System (ι A O C : Type*) where
  server : Server
  clients : ι → Client A O C

namespace System

/-- What can happen in the system. -/
inductive Action (ι A O C : Type*)
  | server (action : Server.Action)
  /-- A client calls `start_peer`. -/
  | start (client : ι)
  /-- A client receives the response of its call. -/
  | reply (client : ι)
  /-- A client receives an error status instead of the response. -/
  | fail (client : ι) (status : Status)
  /-- A listener future of a client reads the next message of its stream. -/
  | listen (client : ι) (future : Nat)
  /-- The stream of a listener future breaks or ends. -/
  | lose (client : ι) (future : Nat) (status : Option Status)
  /-- A callback's future completes. -/
  | finish (client : ι) (future : Nat) (result : Except ClientError (SignallingState A O C))
  /-- A client calls `close` on its peer. -/
  | close (client : ι)

/-- The schedule of a handler that goes on `n` times. -/
def Action.handling (call n : Nat) (order : List Id) : List (Action ι A O C) :=
  List.replicate n (.server (.advance call order))

/-- What a run of the system records. -/
inductive Event (ι A O C : Type*)
  | server (event : Signalling.Event)
  /-- A client was given its identifier. -/
  | advertised (client : ι) (id : Id)
  /-- A step of a client's peer consumed a completed state. -/
  | consumed (client : ι) (state : SignallingState A O C)
  /-- A client's peer called a callback. -/
  | called (client : ι) (task : Task A O C)
  /-- A client sent a request, which became a call of the server. -/
  | requested (client : ι) (call : Nat) (request : Request)
  deriving DecidableEq

/-- The client that an action moves. -/
def Action.client : Action ι A O C → Option ι
  | .server _ => none
  | .start j | .reply j | .fail j _ | .listen j _ | .lose j _ _ | .finish j _ _ | .close j =>
    some j

/-- The client that an event is about. -/
def Event.client : Event ι A O C → Option ι
  | .server _ => none
  | .advertised j _ | .consumed j _ | .called j _ | .requested j _ _ => some j

/-- A request from nowhere arrives. -/
def Action.outside : Action ι A O C → Bool
  | .server (.receive _) => true
  | _ => false

/-- The state that a callback's future completes with. -/
def Action.finished : Action ι A O C → Option (ι × Nat × SignallingState A O C)
  | .finish j i (.ok state) => some (j, i, state)
  | _ => none

/-- All requests come from clients, and callbacks return the remote ID they were given. -/
def Honest (s : System ι A O C) (a : Action ι A O C) : Prop :=
  a.outside = false ∧ ∀ q ∈ a.finished, ∀ p ∈ (s.clients q.1).peer?,
    ∀ task ∈ p.unorderedFuts[q.2.1]?, q.2.2.remoteId = task.remoteId

instance (s : System ι A O C) (a : Action ι A O C) : Decidable (s.Honest a) :=
  inferInstanceAs (Decidable (_ ∧ ∀ q ∈ a.finished, _))

variable [DecidableEq ι]

/-- Move a client. -/
def put (s : System ι A O C) (j : ι) (client : Client A O C) (events : List (Event ι A O C)) :
    System ι A O C × List (Event ι A O C) :=
  ({ s with clients := Function.update s.clients j client }, events)

/-- Move a client that sends a request. -/
def send (s : System ι A O C) (j : ι) (client : Nat → Client A O C) (request : Request)
    (events : List (Event ι A O C)) : System ι A O C × List (Event ι A O C) :=
  ({ server := s.server.receive request
     clients := Function.update s.clients j (client s.server.calls.length) },
    events ++ [.requested j s.server.calls.length request])

/-- The events of an outcome, apart from its request. -/
def eventsOf (j : ι) (out : Outcome A O C) : List (Event ι A O C) :=
  out.consumed.toList.map (.consumed j) ++ out.called.map (.called j)

/-- Move a running client as its peer's outcome says. -/
def apply (s : System ι A O C) (j : ι) (out : Outcome A O C) :
    System ι A O C × List (Event ι A O C) :=
  match out.request with
  | none => s.put j (.running out.peer none) (eventsOf j out)
  | some request => s.send j (fun k => .running out.peer (some k)) request (eventsOf j out)

/-- What an outcome does: its peer runs on and awaits the call of its request. -/
theorem apply_eq (s : System ι A O C) (j : ι) (out : Outcome A O C) :
    s.apply j out =
      ({ server := out.request.elim s.server s.server.receive
         clients := Function.update s.clients j
          (.running out.peer (out.request.map fun _ => s.server.calls.length)) },
        eventsOf j out ++ out.request.toList.map (.requested j s.server.calls.length)) := by
  unfold apply
  cases out.request with
  | none => simp [put]
  | some request => rfl

/-- The client runs on with the peer of the outcome. -/
theorem clients_apply (s : System ι A O C) (j : ι) (out : Outcome A O C) :
    (s.apply j out).1.clients j =
      .running out.peer (out.request.map fun _ => s.server.calls.length) := by
  rw [apply_eq]
  exact Function.update_self ..

/-- The request of the outcome is the one that is recorded. -/
theorem requested_apply {s : System ι A O C} {i j : ι} {out : Outcome A O C} {k : Nat}
    {request : Request} : Event.requested i k request ∈ (s.apply j out).2 ↔
      i = j ∧ k = s.server.calls.length ∧ out.request = some request := by
  rw [apply_eq]
  cases h : out.request with
  | none => simp [eventsOf]
  | some request' => simp [eventsOf, eq_comm]

/-- The callbacks of the outcome are the ones that are recorded. -/
theorem called_apply {s : System ι A O C} {i j : ι} {out : Outcome A O C} {task : Task A O C} :
    Event.called i task ∈ (s.apply j out).2 ↔ j = i ∧ task ∈ out.called := by
  rw [apply_eq]
  simp [eventsOf, and_comm]

/-- The state of the outcome is the one that is recorded. -/
theorem consumed_apply {s : System ι A O C} {i j : ι} {out : Outcome A O C}
    {state : SignallingState A O C} :
    Event.consumed i state ∈ (s.apply j out).2 ↔ j = i ∧ out.consumed = some state := by
  rw [apply_eq]
  simp [eventsOf, and_comm]

/-- Give a running client's peer an input. -/
def input (codecs : Codecs A O C) (s : System ι A O C) (j : ι) (input : Input A O C) :
    Option (System ι A O C × List (Event ι A O C)) :=
  match s.clients j with
  | .running p _ => (p.act codecs input).map (s.apply j)
  | _ => none

/-- A client receives the response of its call: `start_peer` goes on to its next request or
fails, a suspended step goes on, `close` returns. -/
def answer (codecs : Codecs A O C) (s : System ι A O C) (j : ι)
    (response : Except Status Response) : Option (System ι A O C × List (Event ι A O C)) :=
  match s.clients j, response with
  | .advertising _, .ok (.advertise (some id)) =>
    some (s.send j (.openingPeerListener id) (.openPeerListener (some id)) [.advertised j id])
  | .advertising _, .error _ => some (s.put j (.failed none) [])
  | .openingPeerListener id _, .ok (.openPeerListener i) =>
    some (s.send j (.openingOfferListener id i) (.openOfferListener (some id)) [])
  | .openingPeerListener id _, .error _ => some (s.put j (.failed (some id)) [])
  | .openingOfferListener id i _, .ok (.openListener .offer c) =>
    some (s.send j (.openingAnswerListener id i c) (.openAnswerListener (some id)) [])
  | .openingOfferListener id _ _, .error _ => some (s.put j (.failed (some id)) [])
  | .openingAnswerListener id i c _, .ok (.openListener .answer c') =>
    some (s.put j (.running (Peer.new id i c c') none) [])
  | .openingAnswerListener id _ _ _, .error _ => some (s.put j (.failed (some id)) [])
  | .running _ _, response => s.input codecs j (.response response)
  | .closing p _, .ok .teardown => some (s.put j (.closed p) [])
  | .closing p _, .error _ => some (s.put j (.closed p) [])
  | _, _ => none

/-- The next message on the wire of a listener future. -/
def nextMessage (s : System ι A O C) (p : Peer A O C) (i : Nat) : Option (Input A O C) :=
  match p.unorderedFuts[i]? with
  | some (.peerListener listener) =>
    ((s.server.peerWire listener.source)[listener.taken]?).map fun item =>
      .peerMessage i (item.map some)
  | some (.offerListener listener) | some (.answerListener listener) =>
    ((s.server.signalWire listener.source)[listener.taken]?).map fun message =>
      .signalMessage i (.ok (some message))
  | _ => none

/-- The end of the stream of a listener future, with the status it broke with. -/
def lostMessage (p : Peer A O C) (i : Nat) (status : Option Status) : Option (Input A O C) :=
  match p.unorderedFuts[i]?, status with
  | some (.peerListener _), none => some (.peerMessage i (.ok none))
  | some (.peerListener _), some status => some (.peerMessage i (.error status))
  | some (.offerListener _), none | some (.answerListener _), none =>
    some (.signalMessage i (.ok none))
  | some (.offerListener _), some status | some (.answerListener _), some status =>
    some (.signalMessage i (.error status))
  | _, _ => none

/-- One step of the system. -/
def step (codecs : Codecs A O C) (s : System ι A O C) :
    Action ι A O C → Option (System ι A O C × List (Event ι A O C))
  | .server a => (s.server.step a).map fun out =>
      ({ s with server := out.1 }, out.2.map Event.server)
  | .start j =>
    match s.clients j with
    | .fresh => some (s.send j .advertising .advertise [])
    | _ => none
  | .reply j =>
    match (s.clients j).call with
    | none => none
    | some k =>
      match s.server.calls[k]? with
      | some ⟨_, .done result⟩ => s.answer codecs j result
      | _ => none
  | .fail j status =>
    match (s.clients j).call with
    | none => none
    | some _ => s.answer codecs j (.error status)
  | .listen j i =>
    match (s.clients j).peer? with
    | none => none
    | some p => (s.nextMessage p i).bind (s.input codecs j)
  | .lose j i status =>
    match (s.clients j).peer? with
    | none => none
    | some p => (lostMessage p i status).bind (s.input codecs j)
  | .finish j i result => s.input codecs j (.callback i result)
  | .close j =>
    match s.clients j with
    | .running p none => some (s.send j (.closing p) (.teardown (some p.localId)) [])
    | _ => none

end System

/-- A server with clients that have not started yet. -/
def system (ι : Type*) {A O C : Type*} [DecidableEq ι] (codecs : Codecs A O C) :
    Machine (System ι A O C) (System.Action ι A O C) (System.Event ι A O C) where
  init := { server := Server.new, clients := fun _ => .fresh }
  step := System.step codecs

end JustWebrtc.Signalling
