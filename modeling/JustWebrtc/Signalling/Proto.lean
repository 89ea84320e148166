import JustWebrtc.Core.Changes

/-!
# Messages of the signalling service

Peers are named by 64-bit identifiers. Offers and answers have the same shape on the
wire: the identifier of the peer that made the signal, the serialized description and
the serialized candidates. They share one record, and a slot says which of the two
kinds a request, a channel or a listener is about.
-/

namespace JustWebrtc.Signalling

/-- A peer identifier, the `uint64 id` of a `PeerId` message. -/
abbrev Id := UInt64

/-- Serialized data, forwarded by the server unread. -/
abbrev Bytes := List UInt8

/-- A `PeerChange` message: its enum value and the identifier it is about. -/
abbrev PeerChange := Change Id

/-- The two kinds of signal. -/
inductive Slot
  | offer
  | answer
  deriving DecidableEq, Repr

/-- `SignalOffer { offerer_id, offer, candidates }` and
`SignalAnswer { answerer_id, answer, candidates }`. -/
structure Signal where
  /-- The peer that made the signal: `offerer_id` or `answerer_id`. -/
  sender : Id
  /-- The serialized `offer` or `answer`. -/
  description : Bytes
  candidates : Bytes
  deriving DecidableEq, Repr

/-- `PeerListenerRsp { peer_changes }`. -/
structure PeerListenerRsp where
  peerChanges : List PeerChange
  deriving DecidableEq, Repr

/-- `OfferListenerRsp { offer_signal }` and `AnswerListenerRsp { answer_signal }`. -/
structure SignalListenerRsp where
  signal : Option Signal
  deriving DecidableEq, Repr

/-- The gRPC status codes the service answers with. -/
inductive Code
  | invalidArgument
  | failedPrecondition
  | aborted
  | dataLoss
  | internal
  /-- Any code made up by the transport: a deadline, a refused connection, and so on. -/
  | transport
  deriving DecidableEq, Repr

/-- A gRPC error status. -/
structure Status where
  code : Code
  message : String
  deriving DecidableEq, Repr

/-- Requests, with the optional sub-messages as protobuf delivers them. -/
inductive Request
  | advertise
  | teardown (localPeer : Option Id)
  | peerDiscover (localPeer : Option Id)
  | openPeerListener (localPeer : Option Id)
  /-- `SignalOffer` names the answerer peer, `SignalAnswer` the offerer peer. -/
  | signal (slot : Slot) (remotePeer : Option Id) (signal : Option Signal)
  | openListener (slot : Slot) (localPeer : Option Id)
  deriving DecidableEq, Repr

/-- Responses. A stream response names the server-side stream it hands out. -/
inductive Response
  | advertise (localPeer : Option Id)
  | teardown
  | peerDiscover (remotePeers : List Id)
  | openPeerListener (stream : Nat)
  | signal (slot : Slot)
  | openListener (slot : Slot) (channel : Nat)
  deriving DecidableEq, Repr

/-- The two kinds of signalling request under their own names. -/
abbrev Request.signalOffer (answererPeer : Option Id) (offerSignal : Option Signal) : Request :=
  .signal .offer answererPeer offerSignal

@[inherit_doc Request.signalOffer]
abbrev Request.signalAnswer (offererPeer : Option Id) (answerSignal : Option Signal) : Request :=
  .signal .answer offererPeer answerSignal

/-- The listener requests for signals under their own names. -/
abbrev Request.openOfferListener (localPeer : Option Id) : Request :=
  .openListener .offer localPeer

@[inherit_doc Request.openOfferListener]
abbrev Request.openAnswerListener (localPeer : Option Id) : Request :=
  .openListener .answer localPeer

namespace Status

/-- The text that names the addressed peer of a signal. -/
def remoteName : Slot → String
  | .offer => "answerer"
  | .answer => "offerer"

/-- The text that names the kind of a signal. -/
def slotName : Slot → String
  | .offer => "offer"
  | .answer => "answer"

def duplicateId : Status := ⟨.internal, "generated duplicate ID!"⟩
def missingLocalPeer : Status := ⟨.invalidArgument, "missing local peer ID"⟩
def notAdvertised : Status := ⟨.failedPrecondition, "peer ID not advertised!"⟩
def listenerNotAdvertised : Status := ⟨.failedPrecondition, "listener peer not advertised!"⟩
def lagged : Status :=
  ⟨.dataLoss, "peer listener has lagged behind. peer changes have been lost!"⟩
def broadcastClosed : Status := ⟨.internal, "peer changes broadcast is closed!"⟩

def missingRemotePeer (slot : Slot) : Status :=
  ⟨.invalidArgument, "missing " ++ remoteName slot ++ " peer ID"⟩
def missingSignal (slot : Slot) : Status :=
  ⟨.invalidArgument, "missing " ++ slotName slot ++ " signal"⟩
def remoteNotAdvertised (slot : Slot) : Status :=
  ⟨.failedPrecondition, remoteName slot ++ " peer not advertised!"⟩
def remoteNotListening (slot : Slot) : Status :=
  ⟨.failedPrecondition, remoteName slot ++ " peer not listening!"⟩
def remoteDisconnected (slot : Slot) : Status :=
  ⟨.failedPrecondition, remoteName slot ++ " peer has disconnected!"⟩
def bufferFull (slot : Slot) : Status :=
  ⟨.aborted, slotName slot ++ " listener buffer full!"⟩
def listenerExists (slot : Slot) : Status :=
  ⟨.failedPrecondition, slotName slot ++ " listener already exists!"⟩

end Status

end JustWebrtc.Signalling
