import JustWebrtc.Connection.Builder
import JustWebrtc.Connection.Candidates

/-!
# Receiving channels and messages

An offerer queues the channels that it creates while it is built, and keeps no sender: its
channels are received in the order of their options, and a call for one more fails. An answerer
keeps a handler that queues the channels of its remote peer, so its calls wait. The messages of a
data channel are queued as they come in, in a browser those that come as array buffers.
-/

namespace JustWebrtc.Connection

/-- An error of a platform, or of a queue without a sender. -/
inductive Error
  | mpscRecvError
  | webRtcError
  deriving DecidableEq, Repr

/-! ## Builders -/

/-- The builders that the methods of `PeerConnectionBuilder` make, without those that only keep
settings of the platform. -/
inductive PeerConnectionBuilder.Made : PeerConnectionBuilder → Prop
  | new : Made .new
  | withRemoteOffer {b b' set} : Made b → b.withRemoteOffer set = .ok b' → Made b'
  | withChannelOptions {b b' set} : Made b → b.withChannelOptions set = .ok b' → Made b'

/-- A builder never holds both a remote offer and channel options. -/
theorem PeerConnectionBuilder.Made.exclusive {b : PeerConnectionBuilder} (h : b.Made) :
    b.remoteOffer = none ∨ b.channelOptions = [] := by
  induction h with
  | new => exact Or.inl rfl
  | withRemoteOffer _ hset _ =>
    rw [PeerConnectionBuilder.withRemoteOffer] at hset
    split at hset
    · rename_i hempty
      rw [Except.ok.injEq] at hset
      rw [← hset]
      exact Or.inr (List.isEmpty_iff.mp hempty)
    · simp at hset
  | withChannelOptions _ hset _ =>
    rw [PeerConnectionBuilder.withChannelOptions] at hset
    split at hset
    · rename_i hnone
      rw [Except.ok.injEq] at hset
      rw [← hset]
      exact Or.inl (Option.isNone_iff_eq_none.mp hnone)
    · simp at hset

/-- So it creates a channel for each of its options. -/
theorem PeerConnectionBuilder.Made.build_eq {b : PeerConnectionBuilder} (h : b.Made)
    (platform : Platform) :
    b.build platform = createDataChannels platform b.channelOptions := by
  rcases h.exclusive with hnone | hempty
  · rw [PeerConnectionBuilder.build, hnone]
  · rw [PeerConnectionBuilder.build, hempty]
    cases b.remoteOffer <;> cases platform <;> rfl

/-! ## `build` -/

/-- What a platform answers while a connection is built. -/
structure Api (platform : Platform) where
  newPeerConnection : Except Error Unit
  setRemoteDescription : SessionDescription → Except Error Unit
  createAnswer : Except Error SessionDescription
  createDataChannel : String × platform.DataChannelInit → Except Error Unit
  createOffer : Except Error SessionDescription
  setLocalDescription : SessionDescription → Except Error Unit

/-- A connection as it is built, with the queue of its channels. -/
structure Built (platform : Platform) where
  isOfferer : Bool
  localDescription : SessionDescription
  channels : Queue (String × platform.DataChannelInit)

/-- `handle_data_channel`; a failure to queue the channel is only logged. -/
def handleDataChannel {platform : Platform} (channel : String × platform.DataChannelInit)
    (channels : Queue (String × platform.DataChannelInit)) :
    Queue (String × platform.DataChannelInit) :=
  (channels.send channel).getD channels

/-- The loop of `build` over the channels of an offerer. -/
def createChannels {platform : Platform} (api : Api platform) :
    List (String × platform.DataChannelInit) → Queue (String × platform.DataChannelInit) →
    Except Error (Queue (String × platform.DataChannelInit))
  | [], channels => .ok channels
  | channel :: rest, channels => do
    api.createDataChannel channel
    createChannels api rest (handleDataChannel channel channels)

/-- `build` with the answers of the platform. The sender of an offerer's queue is dropped in the
end, that of an answerer's queue belongs to its handler. -/
def PeerConnectionBuilder.connect {platform : Platform} (api : Api platform)
    (b : PeerConnectionBuilder) : Except Error (Built platform) := do
  api.newPeerConnection
  match b.remoteOffer with
  | some offer =>
    api.setRemoteDescription offer
    let answer ← api.createAnswer
    api.setLocalDescription answer
    return { isOfferer := false, localDescription := answer, channels := .unbounded }
  | none =>
    let channels ← createChannels api (createDataChannels platform b.channelOptions) .unbounded
    let offer ← api.createOffer
    api.setLocalDescription offer
    return {
      isOfferer := true
      localDescription := offer
      channels := { channels with senderAlive := false } }

/-- A computation succeeds where its parts do. -/
theorem except_bind_eq_ok {ε : Type*} {α β : Type} {x : Except ε α} {f : α → Except ε β} {b : β} :
    x >>= f = .ok b ↔ ∃ a, x = .ok a ∧ f a = .ok b := by
  cases x <;> simp [bind, Except.bind]

/-- Channels are queued in the order in which they are created. -/
theorem createChannels_ok {platform : Platform} {api : Api platform}
    {created : List (String × platform.DataChannelInit)}
    {channels channels' : Queue (String × platform.DataChannelInit)}
    (halive : channels.receiverAlive = true)
    (h : createChannels api created channels = .ok channels') :
    channels' = { channels with queue := channels.queue ++ created } := by
  induction created generalizing channels with
  | nil =>
    rw [createChannels, Except.ok.injEq] at h
    rw [← h, List.append_nil]
  | cons channel rest ih =>
    have hsend : handleDataChannel channel channels =
        { channels with queue := channels.queue ++ [channel] } := by
      rw [handleDataChannel, Queue.send, if_pos halive, Option.getD_some]
    rw [createChannels, hsend, except_bind_eq_ok] at h
    obtain ⟨_, _, h⟩ := h
    refine (ih ?_ h).trans ?_
    · exact halive
    · rw [List.append_assoc]
      rfl

/-- A connection that is built is the offerer without a remote offer, and has queued the channels
of its builder. -/
theorem PeerConnectionBuilder.connect_ok {platform : Platform} {api : Api platform}
    {b : PeerConnectionBuilder} {c : Built platform} (h : b.connect api = .ok c) :
    c.isOfferer = b.remoteOffer.isNone ∧
      c.channels = ⟨b.build platform, b.remoteOffer.isSome, true⟩ := by
  rw [PeerConnectionBuilder.connect, except_bind_eq_ok] at h
  obtain ⟨_, _, h⟩ := h
  cases hoffer : b.remoteOffer with
  | some offer =>
    simp only [hoffer, except_bind_eq_ok] at h
    obtain ⟨_, _, answer, _, _, _, h⟩ := h
    obtain rfl := Except.ok.inj h
    exact ⟨rfl, by rw [PeerConnectionBuilder.build, hoffer]; rfl⟩
  | none =>
    simp only [hoffer, except_bind_eq_ok] at h
    obtain ⟨channels, hcreate, offer, _, _, _, h⟩ := h
    obtain rfl := Except.ok.inj h
    rw [createChannels_ok rfl hcreate]
    exact ⟨rfl, by rw [PeerConnectionBuilder.build, hoffer]; rfl⟩

/-! ## Simple connections -/

/-- `SimpleLocalPeerConnection::build`, or none where an `unwrap` panics. -/
def SimpleLocalPeerConnection.build {platform : Platform} (api : Api platform) (ordered : Bool) :
    Option (Except Error (Built platform)) := do
  let b ← (PeerConnectionBuilder.new.withChannelOptions
    [("simple_channel_", { ordered := some ordered })]).toOption
  return b.connect api

/-- `SimpleRemotePeerConnection::build`, or none where an `unwrap` panics. -/
def SimpleRemotePeerConnection.build {platform : Platform} (api : Api platform)
    (offer : SessionDescription) : Option (Except Error (Built platform)) := do
  let b ← (PeerConnectionBuilder.new.withRemoteOffer (some offer)).toOption
  return b.connect api

/-- A simple local connection that is built offers one channel. -/
theorem SimpleLocalPeerConnection.build_ok {platform : Platform} {api : Api platform}
    {ordered : Bool} {c : Built platform} (h : build api ordered = some (.ok c)) :
    c.isOfferer = true ∧ c.channels.queue.map Prod.fst = ["simple_channel_0"] := by
  obtain ⟨hoff, hchannels⟩ := PeerConnectionBuilder.connect_ok (Option.some.inj h)
  rw [hoff, hchannels]
  cases platform <;> exact ⟨rfl, rfl⟩

/-- A simple remote connection that is built answers, and waits for channels. -/
theorem SimpleRemotePeerConnection.build_ok {platform : Platform} {api : Api platform}
    {offer : SessionDescription} {c : Built platform} (h : build api offer = some (.ok c)) :
    c.isOfferer = false ∧ c.channels = .unbounded := by
  obtain ⟨hoff, hchannels⟩ := PeerConnectionBuilder.connect_ok (Option.some.inj h)
  rw [hoff, hchannels]
  exact ⟨rfl, rfl⟩

/-! ## `receive_channel` -/

/-- The channels of a connection that has been built, received by calls of `receive_channel`. -/
def receiving {platform : Platform} (c : Built platform) :
    Machine (Queue (String × platform.DataChannelInit))
      (Queue.Action (String × platform.DataChannelInit) Nat)
      (Queue.Event (String × platform.DataChannelInit) Nat) :=
  Queue.machine c.channels

/-- The calls of `receive_channel` on an offerer return a channel for each option of its builder,
in their order, and never wait: a call after those fails. On an answerer they return the channels
that come in, in their order, and none fails while the connection keeps its handler. -/
theorem channels_received {platform : Platform} {api : Api platform} {b : PeerConnectionBuilder}
    {c : Built platform} (hb : b.Made) (h : b.connect api = .ok c)
    {tr : List (Queue.Event (String × platform.DataChannelInit) Nat)}
    {q : Queue (String × platform.DataChannelInit)}
    (hr : (receiving c).Run Machine.Free tr q) :
    (c.isOfferer = true →
      createDataChannels platform b.channelOptions =
        tr.filterMap Queue.Event.taken ++ q.queue ∧
      ∃ r, q.recv = some (q.queue.head?, r)) ∧
    (c.isOfferer = false →
      tr.filterMap Queue.Event.added = tr.filterMap Queue.Event.taken ++ q.queue ∧
      ∀ call, .disconnected call ∈ tr → q.senderAlive = false) := by
  obtain ⟨hoff, hchannels⟩ := PeerConnectionBuilder.connect_ok h
  have heq := Queue.conserved hr
  rw [hchannels] at heq
  constructor
  · intro hofferer
    rw [hoff, Option.isNone_iff_eq_none] at hofferer
    have hstart : c.channels.senderAlive = false := by rw [hchannels, hofferer]; rfl
    obtain ⟨hsender, hadded⟩ := Queue.senderless hr hstart
    rw [hadded, List.append_nil, hb.build_eq] at heq
    exact ⟨heq, Queue.recv_of_senderless hsender⟩
  · intro hanswerer
    rw [hoff] at hanswerer
    obtain ⟨offer, hoffer⟩ := Option.isSome_iff_exists.mp (by simpa using hanswerer)
    have hnil : b.build platform = [] := by rw [PeerConnectionBuilder.build, hoffer]
    rw [hnil, List.nil_append] at heq
    exact ⟨heq, fun call hcall => (Queue.disconnected hr hcall).1⟩

/-- A browser in which no part of `build` fails. -/
def readyApi : Api .wasm where
  newPeerConnection := .ok ()
  setRemoteDescription := fun _ => .ok ()
  createAnswer := .ok ⟨.answer, "v=0"⟩
  createDataChannel := fun _ => .ok ()
  createOffer := .ok ⟨.offer, "v=0"⟩
  setLocalDescription := fun _ => .ok ()

/-- The builder of an offerer with two channels. -/
def twoChannels : PeerConnectionBuilder :=
  ⟨none, [("a", {}), ("b", { ordered := some false })]⟩

/-- The builder of an answerer. -/
def remote : PeerConnectionBuilder := ⟨some ⟨.offer, "v=0"⟩, []⟩

/-- An offerer of two channels returns one and then the other, and its third call fails. An
answerer returns the first of two channels that come in, while the second one waits. -/
theorem channels_received_two :
    (∃ (c : Built .wasm) (tr : List (Queue.Event (String × RtcDataChannelInit) Nat))
      (q : Queue (String × RtcDataChannelInit)), twoChannels.connect readyApi = .ok c ∧
        c.isOfferer = true ∧
        tr = [.received 0 ("a0", RtcDataChannelInit.ofOptions 0 {}),
          .received 1 ("b1", RtcDataChannelInit.ofOptions 1 { ordered := some false }),
          .disconnected 2] ∧
        createDataChannels .wasm twoChannels.channelOptions =
          tr.filterMap Queue.Event.taken ++ q.queue) ∧
    ∃ (c : Built .wasm) (tr : List (Queue.Event (String × RtcDataChannelInit) Nat))
      (q : Queue (String × RtcDataChannelInit)), remote.connect readyApi = .ok c ∧
        c.isOfferer = false ∧
        tr = [.sent ("a0", {}), .sent ("b1", {}), .received 0 ("a0", {})] ∧
        tr.filterMap Queue.Event.added = tr.filterMap Queue.Event.taken ++ q.queue ∧
        q.queue = [("b1", {})] := by
  constructor
  · obtain ⟨c, hconnect, rfl⟩ : ∃ c, twoChannels.connect readyApi = .ok c ∧
        c = ⟨true, ⟨.offer, "v=0"⟩, ⟨twoChannels.build .wasm, false, true⟩⟩ := ⟨_, rfl, rfl⟩
    have hset : PeerConnectionBuilder.new.withChannelOptions twoChannels.channelOptions =
        .ok twoChannels := rfl
    have hstart : (receiving ⟨true, ⟨.offer, "v=0"⟩,
        ⟨twoChannels.build .wasm, false, true⟩⟩).Run Machine.Free [] _ := .init
    have hr := ((hstart.step (a := .recv 0) trivial rfl).step (a := .recv 1) trivial rfl).step
      (a := .recv 2) trivial rfl
    exact ⟨_, _, _, hconnect, rfl, rfl,
      ((channels_received (.withChannelOptions .new hset) hconnect hr).1 rfl).1⟩
  · obtain ⟨c, hconnect, rfl⟩ : ∃ c, remote.connect readyApi = .ok c ∧
        c = ⟨false, ⟨.answer, "v=0"⟩, .unbounded⟩ := ⟨_, rfl, rfl⟩
    have hset : PeerConnectionBuilder.new.withRemoteOffer remote.remoteOffer = .ok remote := rfl
    have hstart : (receiving (⟨false, ⟨.answer, "v=0"⟩, .unbounded⟩ : Built .wasm)).Run
        Machine.Free [] _ := .init
    have hr := ((hstart.step (a := .send ("a0", {})) trivial rfl).step
      (a := .send ("b1", {})) trivial rfl).step (a := .recv 0) trivial rfl
    exact ⟨_, _, _, hconnect, rfl, rfl,
      ((channels_received (.withRemoteOffer .new hset) hconnect hr).2 rfl).1, rfl⟩

/-! ## Messages -/

/-- The data of a message as a platform hands it over; in a browser only an array buffer has
bytes. -/
def Platform.MessageData : Platform → Type
  | .native => List UInt8
  | .wasm => Option (List UInt8)

/-- The bytes of a message that can be read. -/
def messageBytes : (platform : Platform) → platform.MessageData → Option (List UInt8)
  | .native, data => some data
  | .wasm, data => data

/-- `handle_data_channel_message`; a message that cannot be read or queued is only logged. -/
def handleDataChannelMessage {platform : Platform} (message : platform.MessageData)
    (incoming : Queue (List UInt8)) : Queue (List UInt8) :=
  match messageBytes platform message with
  | some data => (incoming.send data).getD incoming
  | none => incoming

namespace Incoming

/-- What happens to the messages of a data channel. -/
inductive Action (platform : Platform)
  | onMessage (message : platform.MessageData)
  /-- The platform drops the handler. -/
  | dropHandler
  /-- A call of `receive` returns. -/
  | receive (call : Nat)
  /-- The channel is dropped, and with it the calls that wait. -/
  | dropChannel

/-- What is recorded of the messages of a data channel. -/
inductive Event (platform : Platform)
  | arrived (message : platform.MessageData)
  | returned (call : Nat) (data : List UInt8)
  | failed (call : Nat)

/-- The bytes of a message that has arrived. -/
def Event.arrival {platform : Platform} : Event platform → Option (List UInt8)
  | .arrived message => messageBytes platform message
  | _ => none

/-- The bytes that a call has returned. -/
def Event.result {platform : Platform} : Event platform → Option (List UInt8)
  | .returned _ data => some data
  | _ => none

end Incoming

open Incoming in
/-- The messages of a new data channel. -/
def incoming (platform : Platform) :
    Machine (Queue (List UInt8)) (Action platform) (Event platform) where
  init := .unbounded
  step q
    | .onMessage message =>
      if q.senderAlive then some (handleDataChannelMessage message q, [.arrived message])
      else none
    | .dropHandler => some ({ q with senderAlive := false }, [])
    | .receive call =>
      if q.receiverAlive then
        q.recv.map fun out => (out.2, match out.1 with
          | some data => [.returned call data]
          | none => [.failed call])
      else none
    | .dropChannel => some ({ q with receiverAlive := false }, [])

namespace Incoming

variable {platform : Platform}

/-- The steps, each with its guards. -/
inductive Moves (q : Queue (List UInt8)) :
    Action platform → Queue (List UInt8) × List (Event platform) → Prop
  | queued {message data} : q.senderAlive = true → q.receiverAlive = true →
      messageBytes platform message = some data →
      Moves q (.onMessage message) ({ q with queue := q.queue ++ [data] }, [.arrived message])
  | skipped {message} : q.senderAlive = true →
      (q.receiverAlive = true → messageBytes platform message = none) →
      Moves q (.onMessage message) (q, [.arrived message])
  | dropHandler : Moves q .dropHandler ({ q with senderAlive := false }, [])
  | returned {call data rest} : q.receiverAlive = true → q.queue = data :: rest →
      Moves q (.receive call) ({ q with queue := rest }, [.returned call data])
  | failed {call} : q.receiverAlive = true → q.queue = [] → q.senderAlive = false →
      Moves q (.receive call) (q, [.failed call])
  | dropChannel : Moves q .dropChannel ({ q with receiverAlive := false }, [])

/-- Every step is one of these. -/
theorem step_moves {q r : Queue (List UInt8)} {a : Action platform} {evs : List (Event platform)}
    (h : (incoming platform).step q a = some (r, evs)) : Moves q a (r, evs) := by
  cases a with
  | onMessage message =>
    simp only [incoming, Option.ite_none_right_eq_some, Option.some.injEq] at h
    obtain ⟨hs, h⟩ := h
    rw [← h, handleDataChannelMessage]
    cases hbytes : messageBytes platform message with
    | none => exact .skipped hs fun _ => hbytes
    | some data =>
      by_cases hr : q.receiverAlive = true
      · simp only [Queue.send, if_pos hr, Option.getD_some]
        exact .queued hs hr hbytes
      · simp only [Queue.send, if_neg hr, Option.getD_none]
        exact .skipped hs fun h => absurd h hr
  | dropHandler =>
    simp only [incoming, Option.some.injEq] at h
    rw [← h]
    exact .dropHandler
  | receive call =>
    simp only [incoming, Option.ite_none_right_eq_some, Option.map_eq_some_iff,
      Prod.exists] at h
    obtain ⟨hr, x, q', hrecv, h⟩ := h
    rcases Queue.recv_eq_some hrecv with ⟨data, rest, rfl, hq, rfl⟩ | ⟨rfl, hq, hs, rfl⟩
    · rw [← h]
      exact .returned hr hq
    · rw [← h]
      exact .failed hr hq hs
  | dropChannel =>
    simp only [incoming, Option.some.injEq] at h
    rw [← h]
    exact .dropChannel

/-- What has arrived of a channel, against what its calls have returned. -/
structure Inv (tr : List (Event platform)) (q : Queue (List UInt8)) : Prop where
  kept : q.receiverAlive = true →
    tr.filterMap Event.arrival = tr.filterMap Event.result ++ q.queue
  ordered : tr.filterMap Event.result <+: tr.filterMap Event.arrival
  ended : ∀ call, .failed call ∈ tr → q.senderAlive = false ∧ q.queue = [] ∧
    tr.filterMap Event.arrival = tr.filterMap Event.result

/-- The step lemma. -/
theorem Moves.inv {q r : Queue (List UInt8)} {a : Action platform} {tr evs : List (Event platform)}
    (h : Moves q a (r, evs)) (hi : Inv tr q) : Inv (tr ++ evs) r := by
  generalize hout : (r, evs) = out at h
  cases h with
  | @queued message data hs hr hbytes =>
    obtain ⟨rfl, rfl⟩ := Prod.mk.inj hout
    have harr : [Event.arrived message].filterMap Event.arrival = [data] := by
      simp [Event.arrival, hbytes]
    have hres : [Event.arrived message].filterMap Event.result = [] := rfl
    refine ⟨fun _ => ?_, ?_, fun call hcall => ?_⟩
    · rw [List.filterMap_append, List.filterMap_append, harr, hres, List.append_nil, hi.kept hr,
        List.append_assoc]
    · rw [List.filterMap_append, List.filterMap_append, hres, List.append_nil]
      exact hi.ordered.trans (List.prefix_append _ _)
    · have hgone := (hi.ended call (by simpa using hcall)).1
      simp [hgone] at hs
  | @skipped message hs hnone =>
    obtain ⟨rfl, rfl⟩ := Prod.mk.inj hout
    have hres : [Event.arrived message].filterMap Event.result = [] := rfl
    refine ⟨fun hr => ?_, ?_, fun call hcall => ?_⟩
    · have harr : [Event.arrived message].filterMap Event.arrival = [] := by
        simp [Event.arrival, hnone hr]
      rw [List.filterMap_append, List.filterMap_append, harr, hres, List.append_nil,
        List.append_nil]
      exact hi.kept hr
    · rw [List.filterMap_append, List.filterMap_append, hres, List.append_nil]
      exact hi.ordered.trans (List.prefix_append _ _)
    · have hgone := (hi.ended call (by simpa using hcall)).1
      simp [hgone] at hs
  | dropHandler =>
    obtain ⟨rfl, rfl⟩ := Prod.mk.inj hout
    rw [List.append_nil]
    exact ⟨hi.kept, hi.ordered, fun call hcall => ⟨rfl, (hi.ended call hcall).2⟩⟩
  | @returned call data rest hr hq =>
    obtain ⟨rfl, rfl⟩ := Prod.mk.inj hout
    have harr : ([.returned call data] : List (Event platform)).filterMap Event.arrival = [] := rfl
    have hres : ([.returned call data] : List (Event platform)).filterMap Event.result = [data] :=
      rfl
    have hkept := hi.kept hr
    rw [hq] at hkept
    refine ⟨fun _ => ?_, ?_, fun call' hcall => ?_⟩
    · rw [List.filterMap_append, List.filterMap_append, harr, hres, List.append_nil, hkept,
        List.append_assoc]
      rfl
    · rw [List.filterMap_append, List.filterMap_append, harr, hres, List.append_nil, hkept]
      exact ⟨rest, by rw [List.append_assoc]; rfl⟩
    · have hempty := (hi.ended call' (by simpa using hcall)).2.1
      simp [hempty] at hq
  | @failed call hr hq hs =>
    obtain ⟨rfl, rfl⟩ := Prod.mk.inj hout
    have harr : ([.failed call] : List (Event platform)).filterMap Event.arrival = [] := rfl
    have hres : ([.failed call] : List (Event platform)).filterMap Event.result = [] := rfl
    have hkept := hi.kept hr
    rw [hq, List.append_nil] at hkept
    refine ⟨fun _ => ?_, ?_, fun _ _ => ⟨hs, hq, ?_⟩⟩
    · rw [List.filterMap_append, List.filterMap_append, harr, hres, List.append_nil,
        List.append_nil]
      exact hi.kept hr
    · rw [List.filterMap_append, List.filterMap_append, harr, hres, List.append_nil,
        List.append_nil]
      exact hi.ordered
    · rw [List.filterMap_append, List.filterMap_append, harr, hres, List.append_nil,
        List.append_nil]
      exact hkept
  | dropChannel =>
    obtain ⟨rfl, rfl⟩ := Prod.mk.inj hout
    rw [List.append_nil]
    exact ⟨fun h => by simp at h, hi.ordered, hi.ended⟩

/-- The calls of `receive` return the messages that arrive, in their order, however many calls
run at the same time: while the channel is kept, the messages that were not returned wait. A call
fails only once the handler is gone and every message has been returned. -/
theorem messages_received {tr : List (Event platform)} {q : Queue (List UInt8)}
    (hr : (incoming platform).Run Machine.Free tr q) :
    (q.receiverAlive = true →
      tr.filterMap Event.arrival = tr.filterMap Event.result ++ q.queue) ∧
    tr.filterMap Event.result <+: tr.filterMap Event.arrival ∧
    ∀ call, .failed call ∈ tr →
      q.senderAlive = false ∧ tr.filterMap Event.arrival = tr.filterMap Event.result := by
  have hinv : Inv tr q := hr.invariant
    ⟨fun _ => rfl, List.prefix_refl _, fun _ h => by simp at h⟩
    fun _ hi _ hs => (step_moves hs).inv hi
  exact ⟨hinv.kept, hinv.ordered, fun call hcall =>
    ⟨(hinv.ended call hcall).1, (hinv.ended call hcall).2.2⟩⟩

/-- In a browser a message that is no array buffer is skipped; of the others one has not been
returned. -/
theorem messages_received_wasm : ∃ tr q, (incoming .wasm).Run Machine.Free tr q ∧
    tr.filterMap Event.arrival = [[1], [2], [3]] ∧
    tr.filterMap Event.arrival = tr.filterMap Event.result ++ q.queue ∧ q.queue = [[3]] := by
  obtain ⟨tr, q, hr, hc⟩ := (incoming .wasm).exec_reaches Machine.Free
    [.onMessage (some [1]), .onMessage none, .receive 4, .onMessage (some [2]),
      .onMessage (some [3]), .dropHandler, .receive 5]
    (fun c => decide (c.2.filterMap Event.arrival = [[1], [2], [3]] ∧
      c.1.queue = [[3]] ∧ c.1.receiverAlive = true)) (by decide +kernel)
  obtain ⟨harr, hq, hr'⟩ := of_decide_eq_true hc
  exact ⟨tr, q, hr, harr, (messages_received hr).1 hr', hq⟩

end Incoming

end JustWebrtc.Connection
