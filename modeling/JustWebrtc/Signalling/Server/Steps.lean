import JustWebrtc.Signalling.Server.Handlers

/-!
# What one server step can do

The step function is inverted once: every enabled step is one of the moves below, each
with its guards, its effect on the shared state and its events. Later invariants are
case analyses on moves and never unfold a handler.
-/

namespace JustWebrtc.Signalling

namespace Server

/-- The scopes that answer a call and change nothing else. -/
inductive Responds (s : Server) (order : List Id) : Call → Except Status Response → Prop
  | teardownMissing : Responds s order ⟨.teardown none, .received⟩ (.error Status.missingLocalPeer)
  | removeAbsent {request id caller} : id ∉ s.peers →
      Responds s order ⟨request, .removing id caller⟩ (.error Status.notAdvertised)
  | discoverMissing :
      Responds s order ⟨.peerDiscover none, .received⟩ (.error Status.missingLocalPeer)
  | discover {id} : s.Iterates id order →
      Responds s order ⟨.peerDiscover (some id), .received⟩ (.ok (.peerDiscover order))
  | peerListenerMissing :
      Responds s order ⟨.openPeerListener none, .received⟩ (.error Status.missingLocalPeer)
  | remoteMissing {slot sig} : Responds s order ⟨.signal slot none sig, .received⟩
      (.error (Status.missingRemotePeer slot))
  | signalMissing {slot id} : Responds s order ⟨.signal slot (some id) none, .received⟩
      (.error (Status.missingSignal slot))
  | remoteNotAdvertised {slot id sig} : s.peers.lookup id = none →
      Responds s order ⟨.signal slot (some id) (some sig), .received⟩
        (.error (Status.remoteNotAdvertised slot))
  | remoteNotListening {slot id sig peer} : s.peers.lookup id = some peer →
      peer.tx slot = none →
      Responds s order ⟨.signal slot (some id) (some sig), .received⟩
        (.error (Status.remoteNotListening slot))
  | bufferFull {slot id sig peer c sc} : s.peers.lookup id = some peer → peer.tx slot = some c →
      s.channels[c]? = some sc → sc.channel.trySend ⟨some sig⟩ = .error .full →
      Responds s order ⟨.signal slot (some id) (some sig), .received⟩
        (.error (Status.bufferFull slot))
  | listenerMissing {slot} : Responds s order ⟨.openListener slot none, .received⟩
      (.error Status.missingLocalPeer)
  | listenerNotAdvertised {slot id} : s.peers.lookup id = none →
      Responds s order ⟨.openListener slot (some id), .received⟩
        (.error Status.listenerNotAdvertised)
  | listenerExists {slot id peer c} : s.peers.lookup id = some peer → peer.tx slot = some c →
      Responds s order ⟨.openListener slot (some id), .received⟩
        (.error (Status.listenerExists slot))

/-- The calls whose next scope broadcasts the removal of a peer. -/
inductive Departs : Call → Id → Caller → Prop
  | teardown {id} : Departs ⟨.teardown (some id), .received⟩ id .teardown
  | evict {request id slot} : Departs ⟨request, .evicting id slot⟩ id (.signal slot)

/-- The enabled steps, each with its guards and its effect. -/
inductive Moves (s : Server) : Action → Server → List Event → Prop
  | receive (request) :
      Moves s (.receive request) { s with calls := s.calls ++ [⟨request, .received⟩] } []
  | generate {k order} : s.calls[k]? = some ⟨.advertise, .received⟩ →
      Moves s (.advance k order)
        ({ s with generator := s.generator + 1 }.setPhase k (.inserting s.generator))
        [.allocated k s.generator]
  | duplicate {k order request id} : s.calls[k]? = some ⟨request, .inserting id⟩ → id ∈ s.peers →
      Moves s (.advance k order) (s.setPhase k (.done (.error Status.duplicateId)))
        [.duplicated k id]
  | insert {k order request id} : s.calls[k]? = some ⟨request, .inserting id⟩ → id ∉ s.peers →
      Moves s (.advance k order)
        ({ s with peers := s.peers.insert id {} }.setPhase k (.announcing id)) [.inserted k id]
  | announce {k order request id} : s.calls[k]? = some ⟨request, .announcing id⟩ →
      Moves s (.advance k order)
        ((s.broadcastChange (.add id)).1.setPhase k (.done (.ok (.advertise (some id)))))
        [(s.broadcastChange (.add id)).2]
  | depart {k order call id caller} : s.calls[k]? = some call → Departs call id caller →
      Moves s (.advance k order)
        ((s.broadcastChange (.remove id)).1.setPhase k (.removing id caller))
        [(s.broadcastChange (.remove id)).2]
  | remove {k order request id caller} : s.calls[k]? = some ⟨request, .removing id caller⟩ →
      id ∈ s.peers →
      Moves s (.advance k order)
        ({ s with peers := s.peers.erase id }.setPhase k (.done caller.result)) [.removed id]
  | respond {k order call result} : s.calls[k]? = some call → Responds s order call result →
      Moves s (.advance k order) (s.setPhase k (.done result)) []
  | collect {k order id} : s.calls[k]? = some ⟨.openPeerListener (some id), .received⟩ →
      s.Iterates id order →
      Moves s (.advance k order) (s.setPhase k (.subscribing id order)) []
  | subscribe {k order request id initial} :
      s.calls[k]? = some ⟨request, .subscribing id initial⟩ →
      Moves s (.advance k order)
        ((s.openPeerListenerSubscribe k id initial).1.setPhase k
          (.done (.ok (.openPeerListener s.streams.length))))
        [.subscribed k s.streams.length]
  | accept {k order slot id sig peer c sc channel} :
      s.calls[k]? = some ⟨.signal slot (some id) (some sig), .received⟩ →
      s.peers.lookup id = some peer → peer.tx slot = some c → s.channels[c]? = some sc →
      sc.channel.trySend ⟨some sig⟩ = .ok channel →
      Moves s (.advance k order)
        ({ s with channels := s.channels.set c { sc with channel := channel } }.setPhase k
          (.done (.ok (.signal slot)))) [.accepted k]
  | disconnect {k order slot id sig peer c sc} :
      s.calls[k]? = some ⟨.signal slot (some id) (some sig), .received⟩ →
      s.peers.lookup id = some peer → peer.tx slot = some c → s.channels[c]? = some sc →
      sc.channel.trySend ⟨some sig⟩ = .error .disconnected →
      Moves s (.advance k order) (s.setPhase k (.evicting id slot)) []
  | openListener {k order slot id peer channel} :
      s.calls[k]? = some ⟨.openListener slot (some id), .received⟩ →
      s.peers.lookup id = some peer → peer.tx slot = none →
      (Channel.empty 16).trySend (⟨none⟩ : SignalListenerRsp) = .ok channel →
      Moves s (.advance k order)
        (({ s with
            peers := s.peers.insert id (peer.setTx slot s.channels.length)
            channels := s.channels ++ [{ slot := slot, peer := id, channel := channel }] } :
          Server).setPhase k (.done (.ok (.openListener slot s.channels.length)))) []
  | yieldInitial {i st rsp} : s.streams[i]? = some st → st.alive = true → st.result = some rsp →
      Moves s (.pollPeerStream i)
        { s with
          streams := s.streams.set i { st with result := none, items := st.items ++ [.ok rsp] } }
        []
  | yieldReceived {i st received r item} : s.streams[i]? = some st → st.alive = true →
      st.result = none → s.broadcast.tryRecv st.rx = some (received, r) →
      streamItem received = some item →
      Moves s (.pollPeerStream i)
        { s with
          broadcast := r
          streams := s.streams.set i { st with items := st.items ++ [item] } } []
  | pollChannel {c sc channel} : s.channels[c]? = some sc → sc.channel.next = some channel →
      Moves s (.pollChannel c)
        { s with channels := s.channels.set c { sc with channel := channel } } []
  | dropPeerStream {i st} : s.streams[i]? = some st → st.alive = true →
      Moves s (.dropPeerStream i)
        { s with
          broadcast := s.broadcast.dropReceiver st.rx
          streams := s.streams.set i { st with alive := false } } []
  | dropChannel {c sc} : s.channels[c]? = some sc →
      Moves s (.dropChannel c)
        { s with channels := s.channels.set c { sc with channel := sc.channel.dropReceiver } } []

/-- A signal request's scope is a response, an acceptance or a found disconnection. -/
private theorem signal_moves {s t : Server} {k : Nat} {order : List Id} {slot : Slot}
    {remotePeer : Option Id} {sig : Option Signal} {out : Outcome}
    (hk : s.calls[k]? = some ⟨.signal slot remotePeer sig, .received⟩)
    (h : signal slot s k remotePeer sig = some out) (ht : out.1.setPhase k out.2.1 = t) :
    s.Moves (.advance k order) t out.2.2 := by
  unfold signal at h
  subst ht
  cases remotePeer with
  | none =>
    simp only [Option.some.injEq] at h
    subst h
    exact .respond hk .remoteMissing
  | some id =>
    cases sig with
    | none =>
      simp only [Option.some.injEq] at h
      subst h
      exact .respond hk .signalMissing
    | some sig =>
      cases hp : s.peers.lookup id with
      | none =>
        simp only [hp, Option.some.injEq] at h
        subst h
        exact .respond hk (.remoteNotAdvertised hp)
      | some peer =>
        cases hc : peer.tx slot with
        | none =>
          simp only [hp, hc, Option.some.injEq] at h
          subst h
          exact .respond hk (.remoteNotListening hp hc)
        | some c =>
          cases hsc : s.channels[c]? with
          | none => simp only [hp, hc, hsc, reduceCtorEq] at h
          | some sc =>
            cases hsend : sc.channel.trySend ⟨some sig⟩ with
            | ok channel =>
              simp only [hp, hc, hsc, hsend, Option.some.injEq] at h
              subst h
              exact .accept hk hp hc hsc hsend
            | error e =>
              cases e with
              | disconnected =>
                simp only [hp, hc, hsc, hsend, Option.some.injEq] at h
                subst h
                exact .disconnect hk hp hc hsc hsend
              | full =>
                simp only [hp, hc, hsc, hsend, Option.some.injEq] at h
                subst h
                exact .respond hk (.bufferFull hp hc hsc hsend)

/-- A listener request's scope is a response or a registration. -/
private theorem openListener_moves {s t : Server} {k : Nat} {order : List Id} {slot : Slot}
    {localPeer : Option Id} {out : Outcome}
    (hk : s.calls[k]? = some ⟨.openListener slot localPeer, .received⟩)
    (h : openListener slot s localPeer = some out) (ht : out.1.setPhase k out.2.1 = t) :
    s.Moves (.advance k order) t out.2.2 := by
  unfold openListener at h
  subst ht
  cases localPeer with
  | none =>
    simp only [Option.some.injEq] at h
    subst h
    exact .respond hk .listenerMissing
  | some id =>
    cases hp : s.peers.lookup id with
    | none =>
      simp only [hp, Option.some.injEq] at h
      subst h
      exact .respond hk (.listenerNotAdvertised hp)
    | some peer =>
      cases hsend : (Channel.empty 16).trySend (⟨none⟩ : SignalListenerRsp) with
      | error e => simp only [hp, hsend, reduceCtorEq] at h
      | ok channel =>
        cases hc : peer.tx slot with
        | none =>
          simp only [hp, hsend, hc, Option.some.injEq] at h
          subst h
          exact .openListener hk hp hc hsend
        | some c =>
          simp only [hp, hsend, hc, Option.some.injEq] at h
          subst h
          exact .respond hk (.listenerExists hp hc)

/-- A handler's scope that has not started yet. -/
private theorem received_moves {s t : Server} {k : Nat} {order : List Id} {request : Request}
    {out : Outcome} (hk : s.calls[k]? = some ⟨request, .received⟩)
    (h : s.start k order request = some out) (ht : out.1.setPhase k out.2.1 = t) :
    s.Moves (.advance k order) t out.2.2 := by
  cases request with
  | advertise =>
    simp only [start, Option.some.injEq] at h
    subst h ht
    exact .generate hk
  | teardown localPeer =>
    simp only [start, Option.some.injEq] at h
    subst h ht
    cases localPeer with
    | none => exact .respond hk .teardownMissing
    | some id => exact .depart hk .teardown
  | peerDiscover localPeer =>
    cases localPeer with
    | none =>
      simp only [start, peerDiscover, Option.some.injEq] at h
      subst h ht
      exact .respond hk .discoverMissing
    | some id =>
      simp only [start, peerDiscover, Option.ite_none_right_eq_some, Option.some.injEq] at h
      obtain ⟨hi, rfl⟩ := h
      subst ht
      exact .respond hk (.discover hi)
  | openPeerListener localPeer =>
    cases localPeer with
    | none =>
      simp only [start, openPeerListenerCollect, Option.some.injEq] at h
      subst h ht
      exact .respond hk .peerListenerMissing
    | some id =>
      simp only [start, openPeerListenerCollect, Option.ite_none_right_eq_some,
        Option.some.injEq] at h
      obtain ⟨hi, rfl⟩ := h
      subst ht
      exact .collect hk hi
  | signal slot remotePeer sig =>
    have hs : signal slot s k remotePeer sig = some out := by cases slot <;> exact h
    exact signal_moves hk hs ht
  | openListener slot localPeer =>
    have hs : openListener slot s localPeer = some out := by cases slot <;> exact h
    exact openListener_moves hk hs ht

/-- Every step of a handler is a move. -/
theorem advance_moves {s t : Server} {k : Nat} {order : List Id} {evs : List Event}
    (h : s.advance k order = some (t, evs)) : s.Moves (.advance k order) t evs := by
  unfold advance at h
  cases hk : s.calls[k]? with
  | none => simp only [hk, reduceCtorEq] at h
  | some call =>
    simp only [hk, Option.map_eq_some_iff, Prod.mk.injEq] at h
    obtain ⟨out, hout, ht, rfl⟩ := h
    obtain ⟨request, phase⟩ := call
    cases phase with
    | received => exact received_moves hk hout ht
    | inserting id =>
      simp only [scope, Option.some.injEq] at hout
      rw [advertiseInsert] at hout
      subst ht
      split at hout
      · subst hout
        exact .duplicate hk ‹_›
      · subst hout
        exact .insert hk ‹_›
    | announcing id =>
      simp only [scope, Option.some.injEq] at hout
      subst hout ht
      exact .announce hk
    | evicting id slot =>
      simp only [scope, Option.some.injEq] at hout
      subst hout ht
      exact .depart hk .evict
    | removing id caller =>
      simp only [scope, Option.some.injEq] at hout
      rw [handleTeardownRemove] at hout
      subst ht
      split at hout
      · subst hout
        exact .remove hk ‹_›
      · subst hout
        exact .respond hk (.removeAbsent ‹_›)
    | subscribing id initial =>
      simp only [scope, Option.some.injEq] at hout
      subst hout ht
      exact .subscribe hk
    | done result =>
      simp only [scope, reduceCtorEq] at hout

/-- Every enabled step is a move. -/
theorem step_moves {s t : Server} {a : Action} {evs : List Event}
    (h : s.step a = some (t, evs)) : s.Moves a t evs := by
  cases a with
  | receive request =>
    simp only [step, Option.some.injEq, Prod.mk.injEq] at h
    obtain ⟨rfl, rfl⟩ := h
    exact .receive request
  | advance k order => exact advance_moves h
  | pollPeerStream i =>
    simp only [step, Option.map_eq_some_iff, Prod.mk.injEq] at h
    obtain ⟨t, h, rfl, rfl⟩ := h
    unfold pollPeerStream at h
    cases hi : s.streams[i]? with
    | none => simp only [hi, reduceCtorEq] at h
    | some st =>
      simp only [hi, Option.ite_none_right_eq_some] at h
      obtain ⟨ha, h⟩ := h
      cases hr : st.result with
      | some rsp =>
        simp only [hr, Option.some.injEq] at h
        subst h
        exact .yieldInitial hi ha hr
      | none =>
        simp only [hr] at h
        cases hrecv : s.broadcast.tryRecv st.rx with
        | none => simp only [hrecv, reduceCtorEq] at h
        | some p =>
          obtain ⟨received, r⟩ := p
          simp only [hrecv, Option.map_eq_some_iff] at h
          obtain ⟨item, hitem, rfl⟩ := h
          simpa only [hr] using Moves.yieldReceived hi ha hr hrecv hitem
  | pollChannel c =>
    simp only [step, Option.map_eq_some_iff, Prod.mk.injEq] at h
    obtain ⟨t, h, rfl, rfl⟩ := h
    unfold pollChannel at h
    cases hc : s.channels[c]? with
    | none => simp only [hc, reduceCtorEq] at h
    | some sc =>
      simp only [hc, Option.map_eq_some_iff] at h
      obtain ⟨channel, hn, rfl⟩ := h
      exact .pollChannel hc hn
  | dropPeerStream i =>
    simp only [step, Option.map_eq_some_iff, Prod.mk.injEq] at h
    obtain ⟨t, h, rfl, rfl⟩ := h
    unfold dropPeerStream at h
    cases hi : s.streams[i]? with
    | none => simp only [hi, reduceCtorEq] at h
    | some st =>
      simp only [hi, Option.ite_none_right_eq_some, Option.some.injEq] at h
      obtain ⟨ha, rfl⟩ := h
      exact .dropPeerStream hi ha
  | dropChannel c =>
    simp only [step, Option.map_eq_some_iff, Prod.mk.injEq] at h
    obtain ⟨t, h, rfl, rfl⟩ := h
    unfold dropChannel at h
    cases hc : s.channels[c]? with
    | none => simp only [hc, reduceCtorEq] at h
    | some sc =>
      simp only [hc, Option.some.injEq] at h
      subst h
      exact .dropChannel hc

/-- What a step of call `k` does, by the phase the call is in. -/
def Resumes (s : Server) (k : Nat) (t : Server) (evs : List Event) : Phase → Prop
  | .received => True
  | .inserting id =>
    (id ∈ s.peers ∧ t = s.setPhase k (.done (.error Status.duplicateId)) ∧
        evs = [.duplicated k id]) ∨
      (id ∉ s.peers ∧ t = { s with peers := s.peers.insert id {} }.setPhase k (.announcing id) ∧
        evs = [.inserted k id])
  | .announcing id =>
    t = (s.broadcastChange (.add id)).1.setPhase k (.done (.ok (.advertise (some id)))) ∧
      evs = [(s.broadcastChange (.add id)).2]
  | .evicting id slot =>
    t = (s.broadcastChange (.remove id)).1.setPhase k (.removing id (.signal slot)) ∧
      evs = [(s.broadcastChange (.remove id)).2]
  | .removing id caller =>
    (id ∈ s.peers ∧ t = { s with peers := s.peers.erase id }.setPhase k (.done caller.result) ∧
        evs = [.removed id]) ∨
      (id ∉ s.peers ∧ t = s.setPhase k (.done (.error Status.notAdvertised)) ∧ evs = [])
  | .subscribing id initial =>
    t = (s.openPeerListenerSubscribe k id initial).1.setPhase k
        (.done (.ok (.openPeerListener s.streams.length))) ∧
      evs = [.subscribed k s.streams.length]
  | .done _ => False

/-- A step of a call resumes its handler where it is suspended. -/
theorem Moves.resumes {s t : Server} {k : Nat} {order : List Id} {evs : List Event}
    (hm : s.Moves (.advance k order) t evs) {call : Call} (hk : s.calls[k]? = some call) :
    s.Resumes k t evs call.phase := by
  cases hm with
  | generate hj | collect hj _ | accept hj _ _ _ _ | disconnect hj _ _ _ _
  | openListener hj _ _ _ =>
    rw [hk, Option.some.injEq] at hj
    rw [hj]
    trivial
  | duplicate hj hmem =>
    rw [hk, Option.some.injEq] at hj
    rw [hj]
    exact Or.inl ⟨hmem, rfl, rfl⟩
  | insert hj hmem =>
    rw [hk, Option.some.injEq] at hj
    rw [hj]
    exact Or.inr ⟨hmem, rfl, rfl⟩
  | announce hj | subscribe hj =>
    rw [hk, Option.some.injEq] at hj
    rw [hj]
    exact ⟨rfl, rfl⟩
  | depart hj hd =>
    rw [hk, Option.some.injEq] at hj
    rw [hj]
    cases hd with
    | teardown => trivial
    | evict => exact ⟨rfl, rfl⟩
  | remove hj hmem =>
    rw [hk, Option.some.injEq] at hj
    rw [hj]
    exact Or.inl ⟨hmem, rfl, rfl⟩
  | respond hj hr =>
    rw [hk, Option.some.injEq] at hj
    rw [hj]
    cases hr with
    | removeAbsent hmem => exact Or.inr ⟨hmem, rfl, rfl⟩
    | _ => trivial

end Server

end JustWebrtc.Signalling
