import JustWebrtc.Signalling.Server.State

/-!
# Request handlers

Every handler is cut at its accesses to shared state: the counter increment, each lock
scope on the peer map, each broadcast and the broadcast subscription. Between two of
them any other handler may run. Inside a lock scope the only other shared effect is one
atomic operation on a sender cell or a channel, so a scope is one step. A scope gives
the new shared state, the phase the handler is left in and the events of the trace.
Iteration over the peer hash map has no fixed order, so the order is an input that has
to list exactly the map's keys.
-/

namespace JustWebrtc.Signalling

namespace Server

/-- The outcome of one scope: state, next phase and events. -/
abbrev Outcome := Server × Phase × List Event

/-- A list is a possible iteration over all advertised peers other than `localId`. -/
def Iterates (s : Server) (localId : Id) (order : List Id) : Prop :=
  order.Nodup ∧ order.toFinset = s.peers.keys.erase localId

instance (s : Server) (localId : Id) (order : List Id) : Decidable (s.Iterates localId order) :=
  inferInstanceAs (Decidable (_ ∧ _))

/-- `try_broadcast` of one peer change; a failure is only logged. -/
def broadcastChange (s : Server) (change : PeerChange) : Server × Event :=
  match s.broadcast.tryBroadcast ⟨[change]⟩ with
  | .ok r => ({ s with broadcast := r }, .broadcast ⟨[change]⟩ true)
  | .error _ => (s, .broadcast ⟨[change]⟩ false)

/-! ## `handle_teardown` -/

/-- Transmit the removal to the peer listeners. -/
def handleTeardownTransmit (s : Server) (id : Id) (caller : Caller) : Outcome :=
  ((s.broadcastChange (.remove id)).1, .removing id caller, [(s.broadcastChange (.remove id)).2])

/-- Remove the peer from the map (write lock scope). -/
def handleTeardownRemove (s : Server) (id : Id) (caller : Caller) : Outcome :=
  if id ∈ s.peers then
    ({ s with peers := s.peers.erase id }, .done caller.result, [.removed id])
  else (s, .done (.error Status.notAdvertised), [])

/-! ## `advertise` -/

/-- `GENERATOR.fetch_add(1)`, made before the write lock is taken. -/
def advertiseGenerate (s : Server) (k : Nat) : Outcome :=
  ({ s with generator := s.generator + 1 }, .inserting s.generator, [.allocated k s.generator])

/-- Insert the new entry (write lock scope). -/
def advertiseInsert (s : Server) (k : Nat) (id : Id) : Outcome :=
  if id ∈ s.peers then (s, .done (.error Status.duplicateId), [.duplicated k id])
  else ({ s with peers := s.peers.insert id {} }, .announcing id, [.inserted k id])

/-- Transmit the change to the peer listeners and return the identifier. -/
def advertiseTransmit (s : Server) (id : Id) : Outcome :=
  ((s.broadcastChange (.add id)).1, .done (.ok (.advertise (some id))),
    [(s.broadcastChange (.add id)).2])

/-! ## The other requests -/

/-- `teardown`: a missing identifier is refused, any other goes to `handle_teardown`. -/
def teardown (s : Server) (localPeer : Option Id) : Outcome :=
  match localPeer with
  | none => (s, .done (.error Status.missingLocalPeer), [])
  | some id => s.handleTeardownTransmit id .teardown

/-- `peer_discover`: one read lock scope. -/
def peerDiscover (s : Server) (localPeer : Option Id) (order : List Id) : Option Outcome :=
  match localPeer with
  | none => some (s, .done (.error Status.missingLocalPeer), [])
  | some id =>
    if s.Iterates id order then some (s, .done (.ok (.peerDiscover order)), []) else none

/-- `open_peer_listener`: collect the initial peer changes (read lock scope). -/
def openPeerListenerCollect (s : Server) (localPeer : Option Id) (order : List Id) :
    Option Outcome :=
  match localPeer with
  | none => some (s, .done (.error Status.missingLocalPeer), [])
  | some id => if s.Iterates id order then some (s, .subscribing id order, []) else none

/-- `open_peer_listener`: subscribe to the broadcast and return the stream. -/
def openPeerListenerSubscribe (s : Server) (k : Nat) (id : Id) (initial : List Id) : Outcome :=
  ({ s with
      broadcast := s.broadcast.newReceiver
      streams := s.streams ++ [{
        localId := id
        result := some ⟨initial.map Change.add⟩
        rx := s.broadcast.receivers.length
        items := []
        alive := true }] },
    .done (.ok (.openPeerListener s.streams.length)), [.subscribed k s.streams.length])

/-- `signal_offer` and `signal_answer` up to the result of `try_send` (read lock scope).
A dangling reference into the channel table cannot occur and has no outcome. -/
def signal (slot : Slot) (s : Server) (k : Nat) (remotePeer : Option Id)
    (signal : Option Signal) : Option Outcome :=
  match remotePeer with
  | none => some (s, .done (.error (Status.missingRemotePeer slot)), [])
  | some remoteId =>
    match signal with
    | none => some (s, .done (.error (Status.missingSignal slot)), [])
    | some sig =>
      match s.peers.lookup remoteId with
      | none => some (s, .done (.error (Status.remoteNotAdvertised slot)), [])
      | some peer =>
        match peer.tx slot with
        | none => some (s, .done (.error (Status.remoteNotListening slot)), [])
        | some c =>
          match s.channels[c]? with
          | none => none
          | some sc =>
            match sc.channel.trySend ⟨some sig⟩ with
            | .ok channel =>
              some ({ s with channels := s.channels.set c { sc with channel := channel } },
                .done (.ok (.signal slot)), [.accepted k])
            | .error .disconnected => some (s, .evicting remoteId slot, [])
            | .error .full => some (s, .done (.error (Status.bufferFull slot)), [])

/-- `signal_offer`, addressed to the answerer's offer channel. -/
def signalOffer (s : Server) (k : Nat) (answererPeer : Option Id) (offerSignal : Option Signal) :
    Option Outcome :=
  signal .offer s k answererPeer offerSignal

/-- `signal_answer`, addressed to the offerer's answer channel. -/
def signalAnswer (s : Server) (k : Nat) (offererPeer : Option Id) (answerSignal : Option Signal) :
    Option Outcome :=
  signal .answer s k offererPeer answerSignal

/-- `open_offer_listener` and `open_answer_listener` (one read lock scope). The new channel
holds the initial empty response; a failure to load it would panic. -/
def openListener (slot : Slot) (s : Server) (localPeer : Option Id) : Option Outcome :=
  match localPeer with
  | none => some (s, .done (.error Status.missingLocalPeer), [])
  | some id =>
    match s.peers.lookup id with
    | none => some (s, .done (.error Status.listenerNotAdvertised), [])
    | some peer =>
      match (Channel.empty 16).trySend ⟨none⟩ with
      | .error _ => none
      | .ok channel =>
        match peer.tx slot with
        | some _ => some (s, .done (.error (Status.listenerExists slot)), [])
        | none =>
          some ({ s with
              peers := s.peers.insert id (peer.setTx slot s.channels.length)
              channels := s.channels ++ [{ slot := slot, peer := id, channel := channel }] },
            .done (.ok (.openListener slot s.channels.length)), [])

/-- `open_offer_listener`. -/
def openOfferListener (s : Server) (localPeer : Option Id) : Option Outcome :=
  openListener .offer s localPeer

/-- `open_answer_listener`. -/
def openAnswerListener (s : Server) (localPeer : Option Id) : Option Outcome :=
  openListener .answer s localPeer

/-! ## Steps of the server -/

/-- The first scope of a request's handler. -/
def start (s : Server) (k : Nat) (order : List Id) : Request → Option Outcome
  | .advertise => some (s.advertiseGenerate k)
  | .teardown localPeer => some (s.teardown localPeer)
  | .peerDiscover localPeer => s.peerDiscover localPeer order
  | .openPeerListener localPeer => s.openPeerListenerCollect localPeer order
  | .signal .offer remotePeer sig => s.signalOffer k remotePeer sig
  | .signal .answer remotePeer sig => s.signalAnswer k remotePeer sig
  | .openListener .offer localPeer => s.openOfferListener localPeer
  | .openListener .answer localPeer => s.openAnswerListener localPeer

/-- The next scope of the handler of call `k`. -/
def scope (s : Server) (k : Nat) (order : List Id) (call : Call) : Option Outcome :=
  match call.phase with
  | .received => s.start k order call.request
  | .inserting id => some (s.advertiseInsert k id)
  | .announcing id => some (s.advertiseTransmit id)
  | .evicting id slot => some (s.handleTeardownTransmit id (.signal slot))
  | .removing id caller => some (s.handleTeardownRemove id caller)
  | .subscribing id initial => some (s.openPeerListenerSubscribe k id initial)
  | .done _ => none

/-- Run the handler of call `k` up to its next suspension. -/
def advance (s : Server) (k : Nat) (order : List Id) : Option (Server × List Event) :=
  match s.calls[k]? with
  | none => none
  | some call => (s.scope k order call).map fun out => (out.1.setPhase k out.2.1, out.2.2)

/-- What the generator of a peer stream yields after one receive attempt. -/
def streamItem : Received PeerListenerRsp → Option (Except Status PeerListenerRsp)
  | .message m => some (.ok m)
  | .overflowed _ => some (.error Status.lagged)
  | .closed => some (.error Status.broadcastClosed)
  | .empty => none

/-- Poll a peer stream: first the loaded result, then what the broadcast delivers. -/
def pollPeerStream (s : Server) (i : Nat) : Option Server :=
  match s.streams[i]? with
  | none => none
  | some st =>
    if st.alive then
      match st.result with
      | some rsp =>
        some { s with
          streams := s.streams.set i { st with result := none, items := st.items ++ [.ok rsp] } }
      | none =>
        match s.broadcast.tryRecv st.rx with
        | none => none
        | some (received, r) =>
          (streamItem received).map fun item =>
            { s with
              broadcast := r
              streams := s.streams.set i { st with items := st.items ++ [item] } }
    else none

/-- Poll a signal channel's stream. -/
def pollChannel (s : Server) (c : Nat) : Option Server :=
  match s.channels[c]? with
  | none => none
  | some sc =>
    sc.channel.next.map fun channel =>
      { s with channels := s.channels.set c { sc with channel := channel } }

/-- Drop a peer stream and the broadcast receiver in it. -/
def dropPeerStream (s : Server) (i : Nat) : Option Server :=
  match s.streams[i]? with
  | none => none
  | some st =>
    if st.alive then
      some { s with
        broadcast := s.broadcast.dropReceiver st.rx
        streams := s.streams.set i { st with alive := false } }
    else none

/-- Drop the receiving side of a signal channel. -/
def dropChannel (s : Server) (c : Nat) : Option Server :=
  match s.channels[c]? with
  | none => none
  | some sc =>
    some { s with
      channels := s.channels.set c { sc with channel := sc.channel.dropReceiver } }

/-- What can happen at a server: requests arrive, handlers go on, streams are polled by
the transport or dropped. -/
inductive Action
  | receive (request : Request)
  | advance (call : Nat) (order : List Id)
  | pollPeerStream (stream : Nat)
  | pollChannel (channel : Nat)
  | dropPeerStream (stream : Nat)
  | dropChannel (channel : Nat)
  deriving DecidableEq, Repr

/-- The schedule of a request that is received as call `k` and then advanced `n` times. -/
def Action.handling (request : Request) (k n : Nat) (order : List Id) : List Action :=
  .receive request :: List.replicate n (.advance k order)

/-- One step of a server. -/
def step (s : Server) : Action → Option (Server × List Event)
  | .receive request => some ({ s with calls := s.calls ++ [⟨request, .received⟩] }, [])
  | .advance k order => s.advance k order
  | .pollPeerStream i => (s.pollPeerStream i).map fun t => (t, [])
  | .pollChannel c => (s.pollChannel c).map fun t => (t, [])
  | .dropPeerStream i => (s.dropPeerStream i).map fun t => (t, [])
  | .dropChannel c => (s.dropChannel c).map fun t => (t, [])

end Server

/-- A server with its concurrent handlers, streams and channels. -/
def server : Machine Server Server.Action Event where
  init := Server.new
  step := Server.step

end JustWebrtc.Signalling
