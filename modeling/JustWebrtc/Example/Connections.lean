import JustWebrtc.Connection.Receiving
import JustWebrtc.Signalling.System.Agreement

/-!
# The callbacks of the example peer

The example peer keeps its connections in a map that its five callbacks share. `create_offer` and
`receive_offer` insert a connection, `receive_answer` takes it out and places it back, and the two
completion callbacks take it out for good. A callback's future lets go of the map while it awaits
the platform, so the callbacks of a peer interleave there.
-/

namespace JustWebrtc.Example

open Connection (Platform Api Built SessionDescription ICECandidate PeerConnectionBuilder)
open Signalling

/-- A description with the candidates that belong to it. -/
abbrev DescriptionSet := SessionDescription × List ICECandidate

/-- The errors of the callbacks. -/
inductive Error
  /-- "pre-existing peer ID!" -/
  | preExistingPeerId
  /-- "peer ID not found!" -/
  | peerIdNotFound
  /-- "peer connection not found!" -/
  | peerConnectionNotFound
  /-- "dropped peer connection!" -/
  | droppedPeerConnection
  /-- "could not get local description!" -/
  | noLocalDescription
  /-- "could not get remote description!" -/
  | noRemoteDescription
  | builder (e : Connection.PeerConnectionBuilderError)
  | platform (e : Connection.Error)
  /-- An error of a codec or of a timer while a connection is monitored. -/
  | echo
  deriving DecidableEq, Repr

/-- The error is one of the map of connections. -/
def Error.ofMap : Error → Bool
  | .preExistingPeerId | .peerIdNotFound | .peerConnectionNotFound | .droppedPeerConnection => true
  | _ => false

/-- A connection with the descriptions of its two sides, as far as they are known to it. -/
structure PeerConnection where
  platform : Platform
  built : Built platform
  localSet : DescriptionSet
  remoteSet : Option DescriptionSet

/-- What the platform answers while a callback's future is polled. -/
structure Answers where
  platform : Platform
  api : Api platform
  localDescription : Option SessionDescription
  collectIceCandidates : Except Connection.Error (List ICECandidate)
  addIceCandidates : List ICECandidate → Except Connection.Error Unit
  setRemoteDescription : SessionDescription → Except Connection.Error Unit
  /-- Whether `peer_echo_task` returns without an error. -/
  peerEchoTask : Bool

/-! ## Connections -/

/-- `create_offer`. -/
def createOffer (answers : Answers) : Except Error (DescriptionSet × PeerConnection) := do
  let builder ← (PeerConnectionBuilder.new.withChannelOptions
    [("example_channel_", {})]).mapError .builder
  let built ← (builder.connect answers.api).mapError .platform
  let offer ← answers.localDescription.elim (.error .noLocalDescription) .ok
  let candidates ← answers.collectIceCandidates.mapError .platform
  return ((offer, candidates), ⟨answers.platform, built, (offer, candidates), none⟩)

/-- `receive_offer`. -/
def receiveOffer (answers : Answers) (offerSet : DescriptionSet) :
    Except Error (DescriptionSet × PeerConnection) := do
  let builder ← (PeerConnectionBuilder.new.withRemoteOffer (some offerSet.1)).mapError .builder
  let built ← (builder.connect answers.api).mapError .platform
  (answers.addIceCandidates offerSet.2).mapError .platform
  let answer ← answers.localDescription.elim (.error .noRemoteDescription) .ok
  let candidates ← answers.collectIceCandidates.mapError .platform
  return ((answer, candidates), ⟨answers.platform, built, (answer, candidates), some offerSet⟩)

/-- `receive_answer`, with the connection as it is after it. -/
def receiveAnswer (answers : Answers) (answerSet : DescriptionSet) (c : PeerConnection) :
    Except Error PeerConnection := do
  (answers.setRemoteDescription answerSet.1).mapError .platform
  (answers.addIceCandidates answerSet.2).mapError .platform
  return { c with remoteSet := some answerSet }

/-! ## The map -/

/-- `PeerConnectionMap`; the entry of a connection that has been taken out stays. -/
structure PeerConnectionMap where
  inner : Finmap fun _ : Id => Option PeerConnection

namespace PeerConnectionMap

/-- The entry of a peer. -/
def get (m : PeerConnectionMap) (id : Id) : Option (Option PeerConnection) := m.inner.lookup id

/-- Set the entry of a peer. -/
def set (m : PeerConnectionMap) (id : Id) (entry : Option PeerConnection) : PeerConnectionMap :=
  ⟨m.inner.insert id entry⟩

@[simp] theorem get_set (m : PeerConnectionMap) (id : Id) (entry : Option PeerConnection) :
    (m.set id entry).get id = some entry := Finmap.lookup_insert _

theorem get_set_ne {m : PeerConnectionMap} {id id' : Id} {entry : Option PeerConnection}
    (h : id' ≠ id) : (m.set id entry).get id' = m.get id' := Finmap.lookup_insert_of_ne _ h

/-- `insert`. The connection is inserted in any case. -/
def insert (m : PeerConnectionMap) (id : Id) (peerConnection : PeerConnection) :
    Except Error Unit × PeerConnectionMap :=
  (if (m.get id).isSome then .error .preExistingPeerId else .ok (),
    m.set id (some peerConnection))

/-- `take`. -/
def take (m : PeerConnectionMap) (id : Id) : Except Error (PeerConnection × PeerConnectionMap) :=
  match m.get id with
  | none => .error .peerIdNotFound
  | some none => .error .peerConnectionNotFound
  | some (some peerConnection) => .ok (peerConnection, m.set id none)

/-- `place`. The connection of an entry is replaced in any case. -/
def place (m : PeerConnectionMap) (id : Id) (peerConnection : PeerConnection) :
    Except Error Unit × PeerConnectionMap :=
  match m.get id with
  | none => (.error .peerIdNotFound, m)
  | some none => (.ok (), m.set id (some peerConnection))
  | some (some _) => (.error .droppedPeerConnection, m.set id (some peerConnection))

end PeerConnectionMap

/-! ## Callbacks -/

/-- The state that a callback of the example peer returns. -/
abbrev State := SignallingState SessionDescription SessionDescription (List ICECandidate)

/-- `run_peer`: the map of connections, the connections that futures of callbacks hold, and
whether it has returned. No callback is called twice for a remote peer, so a future is known by
its callback and the remote peer. -/
structure App where
  peerConnections : PeerConnectionMap
  taken : Callback × Id → Option PeerConnection
  stopped : Bool

namespace App

/-- `run_peer` before its first step. -/
def new : App := ⟨⟨∅⟩, fun _ => none, false⟩

/-- `run_peer` returns. -/
def stop (app : App) : App := { app with stopped := true }

/-- What is recorded of the callbacks. -/
inductive Event
  /-- `peer_echo_task` starts with a connection. -/
  | monitored (callback : Callback) (remoteId : Id) (peerConnection : PeerConnection)
  | failed (callback : Callback) (remoteId : Id) (error : Error)

/-- What polling a callback's future comes to; without a result it is pending. -/
structure Polled where
  app : App
  result : Option (Except Error State)
  events : List Event := []

/-- The future of a callback is ready. -/
def ready (app : App) (key : Callback × Id) (result : Except Error State) : Polled where
  app := app
  result := some result
  events := match result with
    | .ok _ => []
    | .error e => [.failed key.1 key.2 e]

/-- The future of a callback has taken its connection out of the map. -/
def hold (app : App) (key : Callback × Id) (out : PeerConnection × PeerConnectionMap) : App :=
  { app with
    peerConnections := out.2
    taken := Function.update app.taken key (some out.1) }

/-- The future of a callback lets go of its connection. -/
def release (app : App) (key : Callback × Id) : App :=
  { app with taken := Function.update app.taken key none }

/-- The end of `create_offer_fn` and of `receive_offer_fn`. -/
def insert (app : App) (key : Callback × Id) (state : DescriptionSet → State)
    (made : Except Error (DescriptionSet × PeerConnection)) : Polled :=
  match made with
  | .error e => app.ready key (.error e)
  | .ok (descriptionSet, peerConnection) =>
    let out := app.peerConnections.insert key.2 peerConnection
    { app with peerConnections := out.2 }.ready key (out.1.map fun _ => state descriptionSet)

/-- `create_offer_fn`. -/
def createOfferFn (app : App) (remoteId : Id) (answers : Answers) : Polled :=
  app.insert (.createOffer, remoteId) (.createOffer remoteId) (createOffer answers)

/-- `receive_offer_fn`. -/
def receiveOfferFn (app : App) (remoteId : Id) (offerSet : DescriptionSet) (answers : Answers) :
    Polled :=
  app.insert (.receiveOffer, remoteId) (.receiveOffer remoteId) (receiveOffer answers offerSet)

/-- `receive_answer_fn`. -/
def receiveAnswerFn (app : App) (remoteId : Id) (answerSet : DescriptionSet) (answers : Answers) :
    Polled :=
  match app.taken (.receiveAnswer, remoteId) with
  | none =>
    match app.peerConnections.take remoteId with
    | .error e => app.ready (.receiveAnswer, remoteId) (.error e)
    | .ok out => { app := app.hold (.receiveAnswer, remoteId) out, result := none }
  | some peerConnection =>
    let app := app.release (.receiveAnswer, remoteId)
    match receiveAnswer answers answerSet peerConnection with
    | .error e => app.ready (.receiveAnswer, remoteId) (.error e)
    | .ok peerConnection =>
      let out := app.peerConnections.place remoteId peerConnection
      { app with peerConnections := out.2 }.ready (.receiveAnswer, remoteId)
        (out.1.map fun _ => .receiveAnswer remoteId)

/-- `local_sig_cplt_fn` and `remote_sig_cplt_fn`, which monitor the connection they take. -/
def monitor (app : App) (key : Callback × Id) (state : State) (answers : Answers) : Polled :=
  match app.taken key with
  | none =>
    match app.peerConnections.take key.2 with
    | .error e => app.ready key (.error e)
    | .ok out =>
      { app := app.hold key out, result := none, events := [.monitored key.1 key.2 out.1] }
  | some _ => (app.release key).ready key (if answers.peerEchoTask then .ok state else .error .echo)

/-- `local_sig_cplt_fn`. -/
def localSigCpltFn (app : App) (remoteId : Id) (answers : Answers) : Polled :=
  app.monitor (.localSigCplt, remoteId) (.localSigCplt remoteId) answers

/-- `remote_sig_cplt_fn`. -/
def remoteSigCpltFn (app : App) (remoteId : Id) (answers : Answers) : Polled :=
  app.monitor (.remoteSigCplt, remoteId) (.remoteSigCplt remoteId) answers

/-- Poll the future of a callback. -/
def poll (app : App) (task : Task SessionDescription SessionDescription (List ICECandidate))
    (answers : Answers) : Option Polled :=
  match task with
  | .createOffer remoteId => some (app.createOfferFn remoteId answers)
  | .receiveAnswer remoteId answerSet => some (app.receiveAnswerFn remoteId answerSet answers)
  | .localSigCplt remoteId => some (app.localSigCpltFn remoteId answers)
  | .receiveOffer remoteId offerSet => some (app.receiveOfferFn remoteId offerSet answers)
  | .remoteSigCplt remoteId => some (app.remoteSigCpltFn remoteId answers)
  | .peerListener _ | .offerListener _ | .answerListener _ => none

/-! ## What polling can do -/

/-- The callback and the state of a future that monitors a connection. -/
inductive Monitors : Task SessionDescription SessionDescription (List ICECandidate) →
    Callback × Id → State → Prop
  | localSigCplt {remoteId} :
      Monitors (.localSigCplt remoteId) (.localSigCplt, remoteId) (.localSigCplt remoteId)
  | remoteSigCplt {remoteId} :
      Monitors (.remoteSigCplt remoteId) (.remoteSigCplt, remoteId) (.remoteSigCplt remoteId)

/-- Why the future of a callback fails. -/
inductive Faults (app : App) : Callback × Id → Error → Prop
  | outside {key e} : e.ofMap = false → Faults app key e
  | preExisting {key} : key.1 = .createOffer ∨ key.1 = .receiveOffer →
      app.peerConnections.get key.2 ≠ none → Faults app key .preExistingPeerId
  | missing {key} : key.1 ≠ .createOffer → key.1 ≠ .receiveOffer →
      app.peerConnections.get key.2 = none → Faults app key .peerIdNotFound
  | gone {key} : key.1 ≠ .createOffer → key.1 ≠ .receiveOffer → app.taken key = none →
      app.peerConnections.get key.2 = some none → Faults app key .peerConnectionNotFound
  | dropped {remoteId c c'} : app.taken (.receiveAnswer, remoteId) = some c →
      app.peerConnections.get remoteId = some (some c') →
      Faults app (.receiveAnswer, remoteId) .droppedPeerConnection

/-- What polling the future of a callback comes to, with the entry of the map behind it. -/
inductive Polls (app : App) : Task SessionDescription SessionDescription (List ICECandidate) →
    Polled → Prop
  | failed {task key e app'} : task.callback = some key → app.Faults key e →
      Polls app task (App.ready app' key (.error e))
  | created {remoteId c} : app.peerConnections.get remoteId = none → c.built.isOfferer = true →
      c.remoteSet = none →
      Polls app (.createOffer remoteId)
        { app := { app with peerConnections := app.peerConnections.set remoteId (some c) }
          result := some (.ok (.createOffer remoteId c.localSet)) }
  | received {remoteId offerSet c} : app.peerConnections.get remoteId = none →
      c.built.isOfferer = false → c.remoteSet = some offerSet →
      Polls app (.receiveOffer remoteId offerSet)
        { app := { app with peerConnections := app.peerConnections.set remoteId (some c) }
          result := some (.ok (.receiveOffer remoteId c.localSet)) }
  | took {remoteId answerSet c} : app.taken (.receiveAnswer, remoteId) = none →
      app.peerConnections.get remoteId = some (some c) →
      Polls app (.receiveAnswer remoteId answerSet)
        { app := app.hold (.receiveAnswer, remoteId) (c, app.peerConnections.set remoteId none)
          result := none }
  | placed {remoteId answerSet c} : app.taken (.receiveAnswer, remoteId) = some c →
      app.peerConnections.get remoteId = some none →
      Polls app (.receiveAnswer remoteId answerSet)
        { app := { app.release (.receiveAnswer, remoteId) with
            peerConnections := app.peerConnections.set remoteId
              (some { c with remoteSet := some answerSet }) }
          result := some (.ok (.receiveAnswer remoteId)) }
  | monitored {task key state c} : Monitors task key state → app.taken key = none →
      app.peerConnections.get key.2 = some (some c) →
      Polls app task
        { app := app.hold key (c, app.peerConnections.set key.2 none)
          result := none
          events := [.monitored key.1 key.2 c] }
  | ended {task key state c} : Monitors task key state → app.taken key = some c →
      Polls app task { app := app.release key, result := some (.ok state) }

/-- Only the futures of callbacks are polled. -/
theorem Polls.isCallback {app : App}
    {task : Task SessionDescription SessionDescription (List ICECandidate)} {polled : Polled}
    (h : app.Polls task polled) : task.isCallback = true := by
  cases h with
  | failed hkey _ => exact Task.isCallback_of_callback hkey
  | monitored hm _ _ | ended hm _ => cases hm <;> rfl
  | _ => rfl

/-- The state of a future is the one that its callback returns for its remote peer. -/
theorem Polls.state {app : App}
    {task : Task SessionDescription SessionDescription (List ICECandidate)} {polled : Polled}
    {state : State} (h : app.Polls task polled) (hstate : polled.result = some (.ok state)) :
    task.yields state = true ∧ state.remoteId = task.remoteId ∧ state.callback = task.callback := by
  cases h with
  | failed _ _ => simp [ready] at hstate
  | took _ _ | monitored _ _ _ => simp at hstate
  | created _ _ _ | received _ _ _ | placed _ _ =>
    obtain rfl := Except.ok.inj (Option.some.inj hstate)
    exact ⟨rfl, rfl, rfl⟩
  | ended hm _ =>
    obtain rfl := Except.ok.inj (Option.some.inj hstate)
    cases hm <;> exact ⟨rfl, rfl, rfl⟩

/-- A future fails for one of the reasons, and that is recorded. -/
theorem Polls.error {app app' : App}
    {task : Task SessionDescription SessionDescription (List ICECandidate)} {e : Error}
    {events : List Event} {callback : Callback} {r : Id}
    (h : app.Polls task ⟨app', some (.error e), events⟩)
    (hkey : task.callback = some (callback, r)) :
    app.Faults (callback, r) e ∧ events = [.failed callback r e] := by
  generalize hout : (⟨app', some (.error e), events⟩ : Polled) = polled at h
  cases h with
  | failed hkey' hfault =>
    rw [hkey, Option.some.injEq] at hkey'
    subst hkey'
    cases hout
    exact ⟨hfault, rfl⟩
  | _ => cases hout

variable {app : App} {answers : Answers}

theorem mapError_eq_ok {ε ε' : Type*} {α : Type} {x : Except ε α} {f : ε → ε'} {a : α} :
    x.mapError f = .ok a ↔ x = .ok a := by
  cases x <;> simp [Except.mapError]

/-- A connection that makes an offer has no remote description. -/
theorem createOffer_ok {offerSet : DescriptionSet} {c : PeerConnection}
    (h : createOffer answers = .ok (offerSet, c)) :
    c.localSet = offerSet ∧ c.built.isOfferer = true ∧ c.remoteSet = none := by
  simp only [createOffer, Connection.except_bind_eq_ok, mapError_eq_ok] at h
  obtain ⟨builder, hbuilder, built, hbuilt, offer, _, candidates, _, h⟩ := h
  obtain ⟨rfl, rfl⟩ := Prod.mk.inj (Except.ok.inj h)
  obtain rfl := Except.ok.inj hbuilder
  exact ⟨rfl, (PeerConnectionBuilder.connect_ok hbuilt).1, rfl⟩

/-- A connection that answers has the description of the offer. -/
theorem receiveOffer_ok {offerSet answerSet : DescriptionSet} {c : PeerConnection}
    (h : receiveOffer answers offerSet = .ok (answerSet, c)) :
    c.localSet = answerSet ∧ c.built.isOfferer = false ∧ c.remoteSet = some offerSet := by
  simp only [receiveOffer, Connection.except_bind_eq_ok, mapError_eq_ok] at h
  obtain ⟨builder, hbuilder, built, hbuilt, _, _, answer, _, candidates, _, h⟩ := h
  obtain ⟨rfl, rfl⟩ := Prod.mk.inj (Except.ok.inj h)
  obtain rfl := Except.ok.inj hbuilder
  exact ⟨rfl, (PeerConnectionBuilder.connect_ok hbuilt).1, rfl⟩

/-- The computation fails with errors of other parts than the map. -/
def Outside {α : Type} (x : Except Error α) : Prop := ∀ e, x = .error e → e.ofMap = false

theorem outside_ok {α : Type} {a : α} : Outside (.ok a) := by
  intro e h
  simp at h

theorem outside_bind {α β : Type} {x : Except Error α} {f : α → Except Error β} (hx : Outside x)
    (hf : ∀ a, Outside (f a)) : Outside (x >>= f) := by
  intro e h
  cases x with
  | error e' =>
    obtain rfl := Except.error.inj h
    exact hx e' rfl
  | ok a => exact hf a e h

theorem outside_mapError {ε α : Type} {x : Except ε α} {f : ε → Error}
    (hf : ∀ e, (f e).ofMap = false) : Outside (x.mapError f) := by
  intro e h
  cases x with
  | error e' =>
    obtain rfl := Except.error.inj h
    exact hf e'
  | ok a => simp [Except.mapError] at h

theorem outside_elim {α : Type} {x : Option α} {e : Error} (he : e.ofMap = false) :
    Outside (x.elim (.error e) .ok) := by
  intro e' h
  cases x with
  | none =>
    obtain rfl := Except.error.inj h
    exact he
  | some a => simp at h

theorem createOffer_outside : Outside (createOffer answers) :=
  outside_bind (outside_mapError fun _ => rfl) fun _ =>
    outside_bind (outside_mapError fun _ => rfl) fun _ =>
      outside_bind (outside_elim rfl) fun _ =>
        outside_bind (outside_mapError fun _ => rfl) fun _ => outside_ok

theorem receiveOffer_outside {offerSet : DescriptionSet} :
    Outside (receiveOffer answers offerSet) :=
  outside_bind (outside_mapError fun _ => rfl) fun _ =>
    outside_bind (outside_mapError fun _ => rfl) fun _ =>
      outside_bind (outside_mapError fun _ => rfl) fun _ =>
        outside_bind (outside_elim rfl) fun _ =>
          outside_bind (outside_mapError fun _ => rfl) fun _ => outside_ok

theorem receiveAnswer_outside {answerSet : DescriptionSet} {c : PeerConnection} :
    Outside (receiveAnswer answers answerSet c) :=
  outside_bind (outside_mapError fun _ => rfl) fun _ =>
    outside_bind (outside_mapError fun _ => rfl) fun _ => outside_ok

theorem receiveAnswer_ok {answerSet : DescriptionSet} {c c' : PeerConnection}
    (h : receiveAnswer answers answerSet c = .ok c') :
    c' = { c with remoteSet := some answerSet } := by
  simp only [receiveAnswer, Connection.except_bind_eq_ok] at h
  obtain ⟨_, _, _, _, h⟩ := h
  exact (Except.ok.inj h).symm

/-- The end of a callback that inserts its connection. -/
theorem insert_cases {key : Callback × Id} {state : DescriptionSet → State}
    {made : Except Error (DescriptionSet × PeerConnection)} (hmade : Outside made)
    (hkey : key.1 = .createOffer ∨ key.1 = .receiveOffer) :
    (∃ e app', app.insert key state made = App.ready app' key (.error e) ∧ app.Faults key e) ∨
      ∃ descriptionSet c, made = .ok (descriptionSet, c) ∧
        app.peerConnections.get key.2 = none ∧
        app.insert key state made =
          { app := { app with peerConnections := app.peerConnections.set key.2 (some c) }
            result := some (.ok (state descriptionSet)) } := by
  rcases made with e | ⟨descriptionSet, c⟩
  · exact Or.inl ⟨e, app, rfl, .outside (hmade e rfl)⟩
  · by_cases hnone : app.peerConnections.get key.2 = none
    · refine Or.inr ⟨descriptionSet, c, rfl, hnone, ?_⟩
      simp [insert, PeerConnectionMap.insert, hnone, ready, Except.map]
    · refine Or.inl ⟨.preExistingPeerId,
        { app with peerConnections := app.peerConnections.set key.2 (some c) }, ?_,
        .preExisting hkey hnone⟩
      simp only [insert, PeerConnectionMap.insert, Option.isSome_iff_ne_none.mpr hnone, if_true,
        Except.map]

/-- Taking a connection out of the map fails where there is none. -/
theorem take_cases {key : Callback × Id} (hcreate : key.1 ≠ .createOffer)
    (hreceive : key.1 ≠ .receiveOffer) (hfirst : app.taken key = none) :
    (∃ e, app.peerConnections.take key.2 = .error e ∧ app.Faults key e) ∨
      ∃ c, app.peerConnections.get key.2 = some (some c) ∧
        app.peerConnections.take key.2 = .ok (c, app.peerConnections.set key.2 none) := by
  rcases hget : app.peerConnections.get key.2 with _ | _ | c
  · exact Or.inl ⟨_, by rw [PeerConnectionMap.take, hget], .missing hcreate hreceive hget⟩
  · exact Or.inl ⟨_, by rw [PeerConnectionMap.take, hget], .gone hcreate hreceive hfirst hget⟩
  · exact Or.inr ⟨c, rfl, by rw [PeerConnectionMap.take, hget]⟩

/-- A connection is monitored once its future has taken it. -/
theorem Monitors.polls {task : Task SessionDescription SessionDescription (List ICECandidate)}
    {key : Callback × Id} {state : State} (h : Monitors task key state) :
    app.Polls task (app.monitor key state answers) := by
  have hkey : task.callback = some key ∧ key.1 ≠ .createOffer ∧ key.1 ≠ .receiveOffer := by
    cases h <;> exact ⟨rfl, by simp, by simp⟩
  obtain ⟨hcallback, hcreate, hreceive⟩ := hkey
  rcases htaken : app.taken key with _ | c
  · rcases take_cases hcreate hreceive htaken with ⟨e, htake, hfault⟩ | ⟨c, hget, htake⟩
    · simp only [monitor, htaken, htake]
      exact .failed hcallback hfault
    · simp only [monitor, htaken, htake]
      exact .monitored h htaken hget
  · simp only [monitor, htaken]
    cases answers.peerEchoTask with
    | true => exact .ended h htaken
    | false => exact .failed hcallback (.outside rfl)

/-- Every poll is one of these. -/
theorem poll_polls {task : Task SessionDescription SessionDescription (List ICECandidate)}
    {polled : Polled} (h : app.poll task answers = some polled) : app.Polls task polled := by
  cases task with
  | peerListener _ | offerListener _ | answerListener _ => simp [poll] at h
  | createOffer remoteId =>
    obtain rfl := Option.some.inj h
    rcases @insert_cases app (.createOffer, remoteId) (.createOffer remoteId) _
      (@createOffer_outside answers) (Or.inl rfl) with
      ⟨e, app', heq, hfault⟩ | ⟨offerSet, c, hmade, hnone, heq⟩
    · rw [createOfferFn, heq]
      exact .failed rfl hfault
    · obtain ⟨rfl, hoff, hremote⟩ := createOffer_ok hmade
      rw [createOfferFn, heq]
      exact .created hnone hoff hremote
  | receiveOffer remoteId offerSet =>
    obtain rfl := Option.some.inj h
    rcases @insert_cases app (.receiveOffer, remoteId) (.receiveOffer remoteId) _
      (@receiveOffer_outside answers offerSet) (Or.inr rfl) with
      ⟨e, app', heq, hfault⟩ | ⟨answerSet, c, hmade, hnone, heq⟩
    · rw [receiveOfferFn, heq]
      exact .failed rfl hfault
    · obtain ⟨rfl, hoff, hremote⟩ := receiveOffer_ok hmade
      rw [receiveOfferFn, heq]
      exact .received hnone hoff hremote
  | localSigCplt remoteId =>
    obtain rfl := Option.some.inj h
    exact Monitors.localSigCplt.polls
  | remoteSigCplt remoteId =>
    obtain rfl := Option.some.inj h
    exact Monitors.remoteSigCplt.polls
  | receiveAnswer remoteId answerSet =>
    obtain rfl := Option.some.inj h
    have hcallback : (Task.receiveAnswer (O := SessionDescription) remoteId answerSet).callback =
        some (.receiveAnswer, remoteId) := rfl
    rcases htaken : app.taken (.receiveAnswer, remoteId) with _ | c
    · rcases take_cases (by simp) (by simp) htaken with ⟨e, htake, hfault⟩ | ⟨c, hget, htake⟩
      · simp only [receiveAnswerFn, htaken, htake]
        exact .failed hcallback hfault
      · simp only [receiveAnswerFn, htaken, htake]
        exact .took htaken hget
    · cases hmade : receiveAnswer answers answerSet c with
      | error e =>
        simp only [receiveAnswerFn, htaken, hmade]
        exact .failed hcallback (.outside (receiveAnswer_outside e hmade))
      | ok c' =>
        obtain rfl := receiveAnswer_ok hmade
        simp only [receiveAnswerFn, htaken, hmade, PeerConnectionMap.place, release]
        rcases hget : app.peerConnections.get remoteId with _ | _ | c''
        · exact .failed hcallback (.missing (by simp) (by simp) hget)
        · exact .placed htaken hget
        · exact .failed hcallback (.dropped htaken hget)

end App

end JustWebrtc.Example
