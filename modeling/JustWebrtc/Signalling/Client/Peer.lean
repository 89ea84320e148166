import JustWebrtc.Signalling.Proto

/-!
# The signalling peer of a client

A peer is a set of queued futures and a step function. A step awaits the completion of
one of them, handles its result, queues new futures, and may have to await one request in
between; then the step is suspended and nothing else of the peer moves. What the futures
find (messages, callback results, responses) is input. The calls of callbacks, which
happen when a future is queued, and the result of a finished step are output.
-/

namespace JustWebrtc.Signalling

/-- Serialization of one type of payload; both directions may fail. -/
structure Codec (α : Type*) where
  serialize : α → Option Bytes
  deserialize : Bytes → Option α

/-- Deserialization inverts serialization. -/
def Codec.Inverts {α : Type*} (c : Codec α) : Prop :=
  ∀ x b, c.serialize x = some b → c.deserialize b = some x

/-- The serialized types of a peer: answers, offers and candidates. -/
structure Codecs (A O C : Type*) where
  answer : Codec A
  offer : Codec O
  candidates : Codec C

/-- Codecs for descriptions and candidates that carry nothing. -/
def Codecs.unit : Codecs Unit Unit Unit where
  answer := ⟨fun _ => some [], fun _ => some ()⟩
  offer := ⟨fun _ => some [], fun _ => some ()⟩
  candidates := ⟨fun _ => some [], fun _ => some ()⟩

/-- Errors of the client, the external ones without their cause. -/
inductive ClientError
  | bincode
  | listenerClosed
  | tonicStatus (status : Status)
  | externalFn
  deriving DecidableEq, Repr

/-- A response stream on the client: the stream of the server it comes from and the number
of messages taken from it. -/
structure Streaming where
  source : Nat
  taken : Nat
  deriving DecidableEq, Repr

/-- One message further. -/
def Streaming.message (listener : Streaming) : Streaming :=
  { listener with taken := listener.taken + 1 }

variable {A O C : Type*}

/-- The results of completed futures. -/
inductive SignallingState (A O C : Type*)
  | peerListener (listener : Streaming) (peerChanges : List PeerChange)
  | offerListener (listener : Streaming) (remoteId : Id) (offerSet : O × C)
  | answerListener (listener : Streaming) (remoteId : Id) (answerSet : A × C)
  | createOffer (remoteId : Id) (offerSet : O × C)
  | receiveAnswer (remoteId : Id)
  | localSigCplt (remoteId : Id)
  | receiveOffer (remoteId : Id) (answerSet : A × C)
  | remoteSigCplt (remoteId : Id)
  deriving DecidableEq

/-- The queued futures: a listener with its stream, or a callback with its arguments. -/
inductive Task (A O C : Type*)
  | peerListener (listener : Streaming)
  | offerListener (listener : Streaming)
  | answerListener (listener : Streaming)
  | createOffer (remoteId : Id)
  | receiveAnswer (remoteId : Id) (answerSet : A × C)
  | localSigCplt (remoteId : Id)
  | receiveOffer (remoteId : Id) (offerSet : O × C)
  | remoteSigCplt (remoteId : Id)
  deriving DecidableEq

/-- A callback's future completes with the state of its own kind. -/
def Task.yields : Task A O C → SignallingState A O C → Bool
  | .createOffer _, .createOffer _ _ | .receiveAnswer _ _, .receiveAnswer _
  | .localSigCplt _, .localSigCplt _ | .receiveOffer _ _, .receiveOffer _ _
  | .remoteSigCplt _, .remoteSigCplt _ => true
  | _, _ => false

/-- The future is a callback's. -/
def Task.isCallback : Task A O C → Bool
  | .peerListener _ | .offerListener _ | .answerListener _ => false
  | _ => true

/-- The remote ID that a callback is given. -/
def Task.remoteId : Task A O C → Option Id
  | .createOffer remoteId | .receiveAnswer remoteId _ | .localSigCplt remoteId
  | .receiveOffer remoteId _ | .remoteSigCplt remoteId => some remoteId
  | .peerListener _ | .offerListener _ | .answerListener _ => none

/-- The remote ID that a callback returns, or that a signal names. -/
def SignallingState.remoteId : SignallingState A O C → Option Id
  | .offerListener _ remoteId _ | .answerListener _ remoteId _ | .createOffer remoteId _
  | .receiveAnswer remoteId | .localSigCplt remoteId | .receiveOffer remoteId _
  | .remoteSigCplt remoteId => some remoteId
  | .peerListener _ _ => none

/-! ## Listener futures -/

/-- What polling a future with one more message gives. -/
inductive Polled (A O C : Type*)
  | pending (task : Task A O C)
  | ready (result : Except ClientError (SignallingState A O C))

/-- `peer_listener_task` after one message. -/
def peerListenerTask (listener : Streaming) (message : Except Status (Option PeerListenerRsp)) :
    Polled A O C :=
  match message with
  | .error status => .ready (.error (.tonicStatus status))
  | .ok none => .ready (.error .listenerClosed)
  | .ok (some message) => .ready (.ok (.peerListener listener.message message.peerChanges))

/-- The offer set of an offer signal. -/
def Codecs.offerSet (codecs : Codecs A O C) (signal : Signal) : Option (O × C) :=
  match codecs.offer.deserialize signal.description with
  | none => none
  | some offer => (codecs.candidates.deserialize signal.candidates).map fun candidates =>
      (offer, candidates)

/-- The answer set of an answer signal. -/
def Codecs.answerSet (codecs : Codecs A O C) (signal : Signal) : Option (A × C) :=
  match codecs.answer.deserialize signal.description with
  | none => none
  | some answer => (codecs.candidates.deserialize signal.candidates).map fun candidates =>
      (answer, candidates)

/-- `offer_listener_task` after one message: it loops over empty ones. -/
def offerListenerTask (codecs : Codecs A O C) (listener : Streaming)
    (message : Except Status (Option SignalListenerRsp)) : Polled A O C :=
  match message with
  | .error status => .ready (.error (.tonicStatus status))
  | .ok none => .ready (.error .listenerClosed)
  | .ok (some ⟨none⟩) => .pending (.offerListener listener.message)
  | .ok (some ⟨some signal⟩) =>
    match codecs.offerSet signal with
    | none => .ready (.error .bincode)
    | some offerSet => .ready (.ok (.offerListener listener.message signal.sender offerSet))

/-- `answer_listener_task` after one message: it loops over empty ones. -/
def answerListenerTask (codecs : Codecs A O C) (listener : Streaming)
    (message : Except Status (Option SignalListenerRsp)) : Polled A O C :=
  match message with
  | .error status => .ready (.error (.tonicStatus status))
  | .ok none => .ready (.error .listenerClosed)
  | .ok (some ⟨none⟩) => .pending (.answerListener listener.message)
  | .ok (some ⟨some signal⟩) =>
    match codecs.answerSet signal with
    | none => .ready (.error .bincode)
    | some answerSet => .ready (.ok (.answerListener listener.message signal.sender answerSet))

/-! ## Steps -/

/-- The request a suspended step awaits. -/
inductive Progress
  | idle
  /-- `peer_discover` inside the loop over `peer_changes`, with the changes still to apply. -/
  | resyncing (peerChanges rest : List PeerChange)
  | signallingOffer (remoteId : Id)
  | signallingAnswer (remoteId : Id)
  deriving DecidableEq, Repr

/-- `RtcSignallingPeer`. -/
structure Peer (A O C : Type*) where
  localId : Id
  discoveredPeers : Finset Id
  firstDiscovery : Bool
  unorderedFuts : List (Task A O C)
  progress : Progress

/-- What one input does: the peer after it, the completed state that was consumed, the
callbacks called, the request sent, and the result of the step if it has returned. -/
structure Outcome (A O C : Type*) where
  peer : Peer A O C
  consumed : Option (SignallingState A O C) := none
  called : List (Task A O C) := []
  request : Option Request := none
  returned : Option (Except ClientError Unit) := none

namespace Peer

/-- `RtcSignallingPeer::new`. -/
def new (localId : Id) (peerListener offerListener answerListener : Nat) : Peer A O C where
  localId := localId
  discoveredPeers := ∅
  firstDiscovery := true
  unorderedFuts := [.peerListener ⟨peerListener, 0⟩, .offerListener ⟨offerListener, 0⟩,
    .answerListener ⟨answerListener, 0⟩]
  progress := .idle

/-- Queue futures. -/
def push (p : Peer A O C) (tasks : List (Task A O C)) : Peer A O C :=
  { p with unorderedFuts := p.unorderedFuts ++ tasks }

/-- Apply peer changes to the discovered peers, up to a change that was not expected. The
changes after that one are applied once the peers have been discovered again. -/
def applyPeerChanges (discovered : Finset Id) :
    List PeerChange → Finset Id × Option (List PeerChange)
  | [] => (discovered, none)
  | .add id :: rest =>
    if id ∈ discovered then (discovered, some rest)
    else applyPeerChanges (insert id discovered) rest
  | .remove id :: rest =>
    if id ∈ discovered then applyPeerChanges (discovered.erase id) rest
    else (discovered, some rest)

/-- The offers to create for the added peers of a message. -/
def createOfferTasks (peerChanges : List PeerChange) : List (Task A O C) :=
  peerChanges.filterMap fun
    | .add id => some (.createOffer id)
    | .remove _ => none

/-- The end of the peer listener branch: on the first discovery, create the offers. -/
def discover (p : Peer A O C) (peerChanges : List PeerChange) : Outcome A O C :=
  if p.firstDiscovery then
    { peer := { p with firstDiscovery := false }.push (createOfferTasks peerChanges)
      called := createOfferTasks peerChanges
      returned := some (.ok ()) }
  else { peer := p, returned := some (.ok ()) }

/-- The peer listener branch from the point where `rest` is still to be applied. -/
def synchronise (p : Peer A O C) (peerChanges rest : List PeerChange) : Outcome A O C :=
  match applyPeerChanges p.discoveredPeers rest with
  | (discovered, none) =>
    { p with discoveredPeers := discovered, progress := .idle }.discover peerChanges
  | (discovered, some rest) =>
    { peer := { p with discoveredPeers := discovered, progress := .resyncing peerChanges rest }
      request := some (.peerDiscover (some p.localId)) }

/-- The request of `signal_offer`, if the offer set serializes. -/
def signalOffer (codecs : Codecs A O C) (id remoteId : Id) (offerSet : O × C) : Option Request :=
  match codecs.candidates.serialize offerSet.2, codecs.offer.serialize offerSet.1 with
  | some candidates, some offer =>
    some (.signalOffer (some remoteId) (some ⟨id, offer, candidates⟩))
  | _, _ => none

/-- The request of `signal_answer`, if the answer set serializes. -/
def signalAnswer (codecs : Codecs A O C) (id remoteId : Id) (answerSet : A × C) : Option Request :=
  match codecs.candidates.serialize answerSet.2, codecs.answer.serialize answerSet.1 with
  | some candidates, some answer =>
    some (.signalAnswer (some remoteId) (some ⟨id, answer, candidates⟩))
  | _, _ => none

/-- `step` after the completion of a state, up to its return or its first request. -/
def step (codecs : Codecs A O C) (p : Peer A O C) (state : SignallingState A O C) :
    Outcome A O C :=
  match state with
  | .peerListener listener peerChanges =>
    { (p.push [.peerListener listener]).synchronise peerChanges peerChanges with
      consumed := some state }
  | .createOffer remoteId offerSet =>
    match signalOffer codecs p.localId remoteId offerSet with
    | none => { peer := p, consumed := some state, returned := some (.error .bincode) }
    | some request =>
      { peer := { p with progress := .signallingOffer remoteId }
        consumed := some state
        request := some request }
  | .answerListener listener remoteId answerSet =>
    { peer := p.push [.answerListener listener, .receiveAnswer remoteId answerSet]
      consumed := some state
      called := [.receiveAnswer remoteId answerSet]
      returned := some (.ok ()) }
  | .receiveAnswer remoteId =>
    { peer := p.push [.localSigCplt remoteId]
      consumed := some state
      called := [.localSigCplt remoteId]
      returned := some (.ok ()) }
  | .localSigCplt _ => { peer := p, consumed := some state, returned := some (.ok ()) }
  | .offerListener listener remoteId offerSet =>
    { peer := p.push [.offerListener listener, .receiveOffer remoteId offerSet]
      consumed := some state
      called := [.receiveOffer remoteId offerSet]
      returned := some (.ok ()) }
  | .receiveOffer remoteId answerSet =>
    match signalAnswer codecs p.localId remoteId answerSet with
    | none => { peer := p, consumed := some state, returned := some (.error .bincode) }
    | some request =>
      { peer := { p with progress := .signallingAnswer remoteId }
        consumed := some state
        request := some request }
  | .remoteSigCplt _ => { peer := p, consumed := some state, returned := some (.ok ()) }

/-- A step that awaits `next()` finds future `i` completed. -/
def complete (codecs : Codecs A O C) (p : Peer A O C) (i : Nat)
    (result : Except ClientError (SignallingState A O C)) : Outcome A O C :=
  match result with
  | .ok state => step codecs { p with unorderedFuts := p.unorderedFuts.eraseIdx i } state
  | .error e =>
    { peer := { p with unorderedFuts := p.unorderedFuts.eraseIdx i }
      returned := some (.error e) }

/-- A step that awaits `next()` polls future `i` with one more message. -/
def poll (codecs : Codecs A O C) (p : Peer A O C) (i : Nat) (polled : Polled A O C) :
    Outcome A O C :=
  match polled with
  | .pending task => { peer := { p with unorderedFuts := p.unorderedFuts.set i task } }
  | .ready result => complete codecs p i result

/-- How a step ends after the error status of a signal request: a failed precondition is
only logged. -/
def signalFailed (p : Peer A O C) (status : Status) : Outcome A O C :=
  match status.code with
  | .failedPrecondition => { peer := { p with progress := .idle }, returned := some (.ok ()) }
  | _ =>
    { peer := { p with progress := .idle }, returned := some (.error (.tonicStatus status)) }

/-- The request of a suspended step is answered. -/
def resume (p : Peer A O C) (response : Except Status Response) : Option (Outcome A O C) :=
  match p.progress, response with
  | .resyncing peerChanges rest, .ok (.peerDiscover remotePeers) =>
    some ({ p with discoveredPeers := remotePeers.toFinset }.synchronise peerChanges rest)
  | .resyncing _ _, .error status =>
    some { peer := { p with progress := .idle }, returned := some (.error (.tonicStatus status)) }
  | .signallingOffer _, .ok (.signal .offer) =>
    some { peer := { p with progress := .idle }, returned := some (.ok ()) }
  | .signallingOffer _, .error status => some (p.signalFailed status)
  | .signallingAnswer remoteId, .ok (.signal .answer) =>
    some { peer := { p with progress := .idle }.push [.remoteSigCplt remoteId]
           called := [.remoteSigCplt remoteId]
           returned := some (.ok ()) }
  | .signallingAnswer _, .error status => some (p.signalFailed status)
  | _, _ => none

end Peer

/-- What can reach a peer. -/
inductive Input (A O C : Type*)
  /-- A message, an error status or the end of a stream of peer changes. -/
  | peerMessage (future : Nat) (message : Except Status (Option PeerListenerRsp))
  /-- A message, an error status or the end of a stream of signals. -/
  | signalMessage (future : Nat) (message : Except Status (Option SignalListenerRsp))
  /-- A callback's future completes. -/
  | callback (future : Nat) (result : Except ClientError (SignallingState A O C))
  /-- The request of a suspended step is answered. -/
  | response (response : Except Status Response)

/-- One input to a peer, where the peer awaits it. -/
def Peer.act (codecs : Codecs A O C) (p : Peer A O C) : Input A O C → Option (Outcome A O C)
  | .peerMessage i message =>
    match p.progress, p.unorderedFuts[i]? with
    | .idle, some (.peerListener listener) =>
      some (p.poll codecs i (peerListenerTask listener message))
    | _, _ => none
  | .signalMessage i message =>
    match p.progress, p.unorderedFuts[i]? with
    | .idle, some (.offerListener listener) =>
      some (p.poll codecs i (offerListenerTask codecs listener message))
    | .idle, some (.answerListener listener) =>
      some (p.poll codecs i (answerListenerTask codecs listener message))
    | _, _ => none
  | .callback i result =>
    match p.progress, p.unorderedFuts[i]? with
    | .idle, some task =>
      if task.isCallback ∧ (∀ state ∈ result.toOption, task.yields state) then
        some (p.complete codecs i result)
      else none
    | _, _ => none
  | .response response => p.resume response

/-! ## What one input can do -/

/-- An input completes a queued future with a state. -/
inductive Completes (codecs : Codecs A O C) :
    Task A O C → Nat → Input A O C → SignallingState A O C → Prop
  | peerListener {i listener message} :
      Completes codecs (.peerListener listener) i (.peerMessage i (.ok (some message)))
        (.peerListener listener.message message.peerChanges)
  | offerListener {i listener signal offerSet} : codecs.offerSet signal = some offerSet →
      Completes codecs (.offerListener listener) i (.signalMessage i (.ok (some ⟨some signal⟩)))
        (.offerListener listener.message signal.sender offerSet)
  | answerListener {i listener signal answerSet} : codecs.answerSet signal = some answerSet →
      Completes codecs (.answerListener listener) i (.signalMessage i (.ok (some ⟨some signal⟩)))
        (.answerListener listener.message signal.sender answerSet)
  | callback {i task state} : task.isCallback = true → task.yields state = true →
      Completes codecs task i (.callback i (.ok state)) state

/-- An input completes a queued future with an error. -/
inductive Breaks (codecs : Codecs A O C) : Task A O C → Nat → Input A O C → Prop
  | peerListener {i listener message} : (∀ m, message ≠ .ok (some m)) →
      Breaks codecs (.peerListener listener) i (.peerMessage i message)
  | offerListener {i listener message} : (∀ m, message ≠ .ok (some m)) →
      Breaks codecs (.offerListener listener) i (.signalMessage i message)
  | answerListener {i listener message} : (∀ m, message ≠ .ok (some m)) →
      Breaks codecs (.answerListener listener) i (.signalMessage i message)
  | offerMalformed {i listener signal} : codecs.offerSet signal = none →
      Breaks codecs (.offerListener listener) i (.signalMessage i (.ok (some ⟨some signal⟩)))
  | answerMalformed {i listener signal} : codecs.answerSet signal = none →
      Breaks codecs (.answerListener listener) i (.signalMessage i (.ok (some ⟨some signal⟩)))
  | callback {i task e} : task.isCallback = true → Breaks codecs task i (.callback i (.error e))

/-- The outcomes of inputs, each with what the peer awaited. -/
inductive Peer.Acts (codecs : Codecs A O C) (p : Peer A O C) : Input A O C → Outcome A O C → Prop
  | skipOffer {i listener} : p.progress = .idle →
      p.unorderedFuts[i]? = some (.offerListener listener) →
      Acts codecs p (.signalMessage i (.ok (some ⟨none⟩)))
        { peer := { p with
            unorderedFuts := p.unorderedFuts.set i (.offerListener listener.message) } }
  | skipAnswer {i listener} : p.progress = .idle →
      p.unorderedFuts[i]? = some (.answerListener listener) →
      Acts codecs p (.signalMessage i (.ok (some ⟨none⟩)))
        { peer := { p with
            unorderedFuts := p.unorderedFuts.set i (.answerListener listener.message) } }
  | fail {i task input e} : p.progress = .idle → p.unorderedFuts[i]? = some task →
      Breaks codecs task i input →
      Acts codecs p input
        { peer := { p with unorderedFuts := p.unorderedFuts.eraseIdx i }
          returned := some (.error e) }
  | complete {i task input state} : p.progress = .idle → p.unorderedFuts[i]? = some task →
      Completes codecs task i input state →
      Acts codecs p input
        (Peer.step codecs { p with unorderedFuts := p.unorderedFuts.eraseIdx i } state)
  | resume {response out} : p.resume response = some out →
      Acts codecs p (.response response) out

/-- Every input a peer takes is one of these. -/
theorem Peer.act_acts {codecs : Codecs A O C} {p : Peer A O C} {input : Input A O C}
    {out : Outcome A O C} (h : p.act codecs input = some out) : p.Acts codecs input out := by
  cases input with
  | peerMessage i message =>
    simp only [Peer.act] at h
    split at h
    · rename_i listener hidle hi
      rw [Option.some.injEq] at h
      subst h
      rcases message with status | _ | message
      · exact .fail hidle hi (.peerListener (by simp))
      · exact .fail hidle hi (.peerListener (by simp))
      · exact .complete hidle hi .peerListener
    · simp only [reduceCtorEq] at h
  | signalMessage i message =>
    simp only [Peer.act] at h
    split at h
    · rename_i listener hidle hi
      rw [Option.some.injEq] at h
      subst h
      rcases message with status | _ | ⟨_ | signal⟩
      · exact .fail hidle hi (.offerListener (by simp))
      · exact .fail hidle hi (.offerListener (by simp))
      · exact .skipOffer hidle hi
      · cases hset : codecs.offerSet signal with
        | none =>
          simp only [offerListenerTask, hset]
          exact .fail hidle hi (.offerMalformed hset)
        | some offerSet =>
          simp only [offerListenerTask, hset]
          exact .complete hidle hi (.offerListener hset)
    · rename_i listener hidle hi
      rw [Option.some.injEq] at h
      subst h
      rcases message with status | _ | ⟨_ | signal⟩
      · exact .fail hidle hi (.answerListener (by simp))
      · exact .fail hidle hi (.answerListener (by simp))
      · exact .skipAnswer hidle hi
      · cases hset : codecs.answerSet signal with
        | none =>
          simp only [answerListenerTask, hset]
          exact .fail hidle hi (.answerMalformed hset)
        | some answerSet =>
          simp only [answerListenerTask, hset]
          exact .complete hidle hi (.answerListener hset)
    · simp only [reduceCtorEq] at h
  | callback i result =>
    simp only [Peer.act] at h
    split at h
    · rename_i task hidle hi
      rw [Option.ite_none_right_eq_some, Option.some.injEq] at h
      obtain ⟨⟨hcall, hyield⟩, rfl⟩ := h
      cases result with
      | error e => exact .fail hidle hi (.callback hcall)
      | ok state => exact .complete hidle hi (.callback hcall (hyield state rfl))
    · simp only [reduceCtorEq] at h
  | response response => exact .resume h

/-- The peer listener branch either finishes or asks for the peers again. -/
theorem Peer.synchronise_cases (p : Peer A O C) (peerChanges rest : List PeerChange) :
    (∃ discovered, p.synchronise peerChanges rest =
        { p with discoveredPeers := discovered, progress := .idle }.discover peerChanges ∧
        applyPeerChanges p.discoveredPeers rest = (discovered, none)) ∨
      ∃ discovered rest', p.synchronise peerChanges rest =
        { peer := { p with
            discoveredPeers := discovered, progress := .resyncing peerChanges rest' }
          request := some (.peerDiscover (some p.localId)) } ∧
        applyPeerChanges p.discoveredPeers rest = (discovered, some rest') := by
  rw [Peer.synchronise]
  rcases h : applyPeerChanges p.discoveredPeers rest with ⟨discovered, _ | rest'⟩
  · exact Or.inl ⟨discovered, rfl, rfl⟩
  · exact Or.inr ⟨discovered, rest', rfl, rfl⟩

end JustWebrtc.Signalling
