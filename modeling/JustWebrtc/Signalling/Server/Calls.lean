import JustWebrtc.Signalling.Server.Broadcast

/-!
# Calls and their handlers

A call keeps its request for good, its handler only ever moves forward, and the phase it
is in always belongs to its request.
-/

namespace JustWebrtc.Signalling

/-- The phase of a call belongs to its request. -/
def Call.Consistent (c : Call) : Prop :=
  match c.phase with
  | .received => True
  | .inserting _ | .announcing _ => c.request = .advertise
  | .evicting id slot => ∃ sig, c.request = .signal slot (some id) (some sig)
  | .removing id .teardown => c.request = .teardown (some id)
  | .removing id (.signal slot) => ∃ sig, c.request = .signal slot (some id) (some sig)
  | .subscribing id _ => c.request = .openPeerListener (some id)
  | .done (.ok (.advertise _)) => c.request = .advertise
  | .done (.ok .teardown) => ∃ id, c.request = .teardown (some id)
  | .done (.ok (.peerDiscover _)) => ∃ id, c.request = .peerDiscover (some id)
  | .done (.ok (.openPeerListener _)) => ∃ id, c.request = .openPeerListener (some id)
  | .done (.ok (.signal slot)) => ∃ id sig, c.request = .signal slot (some id) (some sig)
  | .done (.ok (.openListener slot _)) => ∃ id, c.request = .openListener slot (some id)
  | .done (.error _) => True

/-- The peer a signal or teardown is addressed to. -/
def Request.addressee : Request → Option Id
  | .teardown localPeer => localPeer
  | .signal _ remotePeer _ => remotePeer
  | _ => none

namespace Server

/-- The call an action moves. -/
def Action.call : Action → Option Nat
  | .advance k _ => some k
  | _ => none

/-- A step moves at most the call of its action; all others, and all requests, stay. -/
theorem Moves.calls {s t : Server} {a : Action} {evs : List Event} (hm : s.Moves a t evs) :
    (∃ request, a = .receive request ∧ t.calls = s.calls ++ [⟨request, .received⟩]) ∨
      (∃ k order call phase, a = .advance k order ∧ s.calls[k]? = some call ∧
        t.calls = (s.setPhase k phase).calls) ∨
      ((∀ request, a ≠ .receive request) ∧ a.call = none ∧ t.calls = s.calls) := by
  cases hm with
  | receive request => exact Or.inl ⟨request, rfl, rfl⟩
  | generate hk => exact Or.inr (Or.inl ⟨_, _, _, _, rfl, hk, rfl⟩)
  | duplicate hk _ => exact Or.inr (Or.inl ⟨_, _, _, _, rfl, hk, rfl⟩)
  | insert hk _ => exact Or.inr (Or.inl ⟨_, _, _, _, rfl, hk, rfl⟩)
  | remove hk _ => exact Or.inr (Or.inl ⟨_, _, _, _, rfl, hk, rfl⟩)
  | respond hk _ => exact Or.inr (Or.inl ⟨_, _, _, _, rfl, hk, rfl⟩)
  | collect hk _ => exact Or.inr (Or.inl ⟨_, _, _, _, rfl, hk, rfl⟩)
  | subscribe hk => exact Or.inr (Or.inl ⟨_, _, _, _, rfl, hk, rfl⟩)
  | accept hk _ _ _ _ => exact Or.inr (Or.inl ⟨_, _, _, _, rfl, hk, rfl⟩)
  | disconnect hk _ _ _ _ => exact Or.inr (Or.inl ⟨_, _, _, _, rfl, hk, rfl⟩)
  | openListener hk _ _ _ => exact Or.inr (Or.inl ⟨_, _, _, _, rfl, hk, rfl⟩)
  | @announce k order request id hk =>
    refine Or.inr (Or.inl ⟨k, order, _, .done (.ok (.advertise (some id))), rfl, hk, ?_⟩)
    simp only [setPhase, calls_broadcastChange]
  | @depart k order call id caller hk _ =>
    refine Or.inr (Or.inl ⟨k, order, call, .removing id caller, rfl, hk, ?_⟩)
    simp only [setPhase, calls_broadcastChange]
  | yieldInitial _ _ _ => exact Or.inr (Or.inr ⟨by simp, rfl, rfl⟩)
  | yieldReceived _ _ _ _ _ => exact Or.inr (Or.inr ⟨by simp, rfl, rfl⟩)
  | pollChannel _ _ => exact Or.inr (Or.inr ⟨by simp, rfl, rfl⟩)
  | dropPeerStream _ _ => exact Or.inr (Or.inr ⟨by simp, rfl, rfl⟩)
  | dropChannel _ => exact Or.inr (Or.inr ⟨by simp, rfl, rfl⟩)

/-- A call keeps its request. -/
theorem Moves.request {s t : Server} {a : Action} {evs : List Event} (hm : s.Moves a t evs)
    {k : Nat} {c : Call} (hk : s.calls[k]? = some c) :
    ∃ phase, t.calls[k]? = some ⟨c.request, phase⟩ := by
  rcases hm.calls with ⟨request, _, ht⟩ | ⟨j, _, call, phase, _, hj, ht⟩ | ⟨_, _, ht⟩
  · refine ⟨c.phase, ?_⟩
    rw [ht, List.getElem?_append_left (List.getElem?_eq_some_iff.mp hk).1]
    exact hk
  · rw [ht]
    by_cases hkj : k = j
    · subst hkj
      rw [hk, Option.some.injEq] at hj
      exact ⟨phase, (getElem?_calls_setPhase hk).mpr (Or.inl ⟨rfl, rfl⟩)⟩
    · exact ⟨c.phase, (getElem?_calls_setPhase hj).mpr (Or.inr ⟨hkj, hk⟩)⟩
  · exact ⟨c.phase, by rw [ht]; exact hk⟩

/-- Only the call of its action has its phase changed by a step. -/
theorem Moves.calls_of_ne {s t : Server} {a : Action} {evs : List Event} (hm : s.Moves a t evs)
    {k : Nat} {c : Call} (hk : s.calls[k]? = some c) (ha : a.call ≠ some k) :
    t.calls[k]? = some c := by
  rcases hm.calls with ⟨request, _, ht⟩ | ⟨j, _, call, phase, rfl, hj, ht⟩ | ⟨_, _, ht⟩
  · rw [ht, List.getElem?_append_left (List.getElem?_eq_some_iff.mp hk).1]
    exact hk
  · rw [ht]
    have hkj : k ≠ j := fun h => ha (by rw [h]; rfl)
    exact (getElem?_calls_setPhase hj).mpr (Or.inr ⟨hkj, hk⟩)
  · rw [ht]
    exact hk

/-- Only handlers touch the map. -/
theorem Moves.peers_idle {s t : Server} {a : Action} {evs : List Event}
    (hm : s.Moves a t evs) (ha : a.call = none) : t.peers = s.peers := by
  cases hm with
  | receive _ | yieldInitial _ _ _ | yieldReceived _ _ _ _ _ | pollChannel _ _ | dropPeerStream _ _
  | dropChannel _ => rfl
  | _ => simp [Action.call] at ha

/-- A finished call stays finished. -/
theorem Moves.done {s t : Server} {a : Action} {evs : List Event} (hm : s.Moves a t evs)
    {k : Nat} {request : Request} {result : Except Status Response}
    (hk : s.calls[k]? = some ⟨request, .done result⟩) :
    t.calls[k]? = some ⟨request, .done result⟩ := by
  by_cases ha : a.call = some k
  · cases a with
    | advance k' order =>
      rw [Action.call, Option.some.injEq] at ha
      subst ha
      exact (hm.resumes hk).elim
    | _ => simp [Action.call] at ha
  · exact hm.calls_of_ne hk ha

/-- How a call has come into a phase, by that phase. -/
def Enters (s : Server) (k : Nat) (order : List Id) (call : Call) (t : Server)
    (evs : List Event) : Phase → Prop
  | .received => False
  | .inserting id => call = ⟨.advertise, .received⟩ ∧ id = s.generator
  | .announcing id => call.phase = .inserting id ∧ id ∉ s.peers ∧ evs = [.inserted k id]
  | .evicting id slot => ∃ sig peer c sc,
    call = ⟨.signal slot (some id) (some sig), .received⟩ ∧ s.peers.lookup id = some peer ∧
      peer.tx slot = some c ∧ s.channels[c]? = some sc ∧
      sc.channel.trySend ⟨some sig⟩ = .error .disconnected
  | .removing id caller => Departs call id caller
  | .subscribing id initial =>
    call = ⟨.openPeerListener (some id), .received⟩ ∧ s.Iterates id initial ∧ t.peers = s.peers
  | .done (.ok (.advertise id)) => ∃ x, id = some x ∧ call.phase = .announcing x
  | .done (.ok .teardown) => ∃ id, call.phase = .removing id .teardown ∧ id ∈ s.peers
  | .done (.ok (.peerDiscover remotePeers)) => ∃ id,
    call = ⟨.peerDiscover (some id), .received⟩ ∧ s.Iterates id remotePeers ∧ t.peers = s.peers
  | .done (.ok (.openPeerListener i)) => ∃ id initial, call.phase = .subscribing id initial ∧
    i = s.streams.length ∧ t.streams = (s.openPeerListenerSubscribe k id initial).1.streams
  | .done (.ok (.signal slot)) => ∃ id sig, call = ⟨.signal slot (some id) (some sig), .received⟩ ∧
    evs = [.accepted k]
  | .done (.ok (.openListener slot c)) => ∃ id channel,
    call = ⟨.openListener slot (some id), .received⟩ ∧ c = s.channels.length ∧ evs = [] ∧
      t.channels = s.channels ++ [{ slot := slot, peer := id, channel := channel }]
  | .done (.error status) => s.Responds order call (.error status) ∨
    (∃ id, call.phase = .inserting id ∧ id ∈ s.peers ∧ status = Status.duplicateId) ∨
    ∃ id slot, call.phase = .removing id (.signal slot) ∧ id ∈ s.peers ∧
      status = Status.remoteDisconnected slot

/-- A call is in a phase because it was before, or because the step has brought it there. -/
theorem Moves.enters {s t : Server} {a : Action} {evs : List Event} (hm : s.Moves a t evs)
    {k : Nat} {phase : Phase} (hp : phase ≠ .received) (h : t.At k phase) :
    (a.call ≠ some k ∧ s.At k phase) ∨ ∃ order call, a = .advance k order ∧
      s.calls[k]? = some call ∧ s.Enters k order call t evs phase := by
  have hmoved : ∀ {k' : Nat} {order : List Id} {call : Call} {phase' : Phase} {u : Server},
      a = .advance k' order → u.calls = s.calls → s.calls[k']? = some call →
      (u.setPhase k' phase').At k phase → (k = k' → s.Enters k order call t evs phase') →
      (a.call ≠ some k ∧ s.At k phase) ∨ ∃ order call, a = .advance k order ∧
        s.calls[k]? = some call ∧ s.Enters k order call t evs phase := by
    intro k' order call phase' u ha hu hk h he
    have hk' := hk
    rw [← hu] at hk'
    rcases (at_setPhase hk').mp h with ⟨rfl, rfl⟩ | ⟨hne, request, h⟩
    · exact Or.inr ⟨order, call, ha, hk, he rfl⟩
    · rw [hu] at h
      refine Or.inl ⟨?_, request, h⟩
      rw [ha, Action.call, ne_eq, Option.some.injEq]
      exact Ne.symm hne
  cases hm with
  | receive request => exact Or.inl ⟨by simp [Action.call], (at_receive hp).mp h⟩
  | generate hk => exact hmoved rfl rfl hk h fun _ => ⟨rfl, rfl⟩
  | duplicate hk hmem => exact hmoved rfl rfl hk h fun _ => Or.inr (Or.inl ⟨_, rfl, hmem, rfl⟩)
  | insert hk hmem => exact hmoved rfl rfl hk h fun he => ⟨rfl, hmem, by rw [he]⟩
  | announce hk => exact hmoved rfl (by simp) hk h fun _ => ⟨_, rfl, rfl⟩
  | depart hk hd => exact hmoved rfl (by simp) hk h fun _ => hd
  | @remove _ _ _ id caller hk hmem =>
    refine hmoved rfl rfl hk h fun _ => ?_
    cases caller with
    | teardown => exact ⟨id, rfl, hmem⟩
    | signal slot => exact Or.inr (Or.inr ⟨id, slot, rfl, hmem, rfl⟩)
  | @respond _ _ call result hk hr =>
    refine hmoved rfl rfl hk h fun _ => ?_
    cases result with
    | error status => exact Or.inl hr
    | ok response =>
      cases hr with
      | discover hi => exact ⟨_, rfl, hi, rfl⟩
  | collect hk hi => exact hmoved rfl rfl hk h fun _ => ⟨rfl, hi, rfl⟩
  | subscribe hk => exact hmoved rfl rfl hk h fun he => ⟨_, _, rfl, rfl, by rw [he]; rfl⟩
  | accept hk _ _ _ _ => exact hmoved rfl rfl hk h fun he => ⟨_, _, rfl, by rw [he]⟩
  | disconnect hk hpeer hc hsc hsend =>
    exact hmoved rfl rfl hk h fun _ => ⟨_, _, _, _, rfl, hpeer, hc, hsc, hsend⟩
  | openListener hk _ _ _ => exact hmoved rfl rfl hk h fun _ => ⟨_, _, rfl, rfl, rfl, rfl⟩
  | _ => exact Or.inl ⟨by simp [Action.call], h⟩

/-- Every step leaves every call consistent. -/
theorem Moves.consistent {s t : Server} {a : Action} {evs : List Event} (hm : s.Moves a t evs)
    (h : ∀ c ∈ s.calls, c.Consistent) : ∀ c ∈ t.calls, c.Consistent := by
  have key : ∀ {k : Nat} {call : Call} {phase : Phase} {u : Server}, u.calls = s.calls →
      s.calls[k]? = some call → (Call.mk call.request phase).Consistent →
      ∀ c ∈ (u.setPhase k phase).calls, c.Consistent := by
    intro k call phase u hu hk hc c hmem
    obtain ⟨j, hj⟩ := List.getElem?_of_mem hmem
    rcases (getElem?_calls_setPhase (by rw [hu]; exact hk)).mp hj with ⟨_, rfl⟩ | ⟨_, hj⟩
    · exact hc
    · exact h c (List.mem_of_getElem? (by rw [← hu]; exact hj))
  cases hm with
  | receive request =>
    intro c hmem
    rcases List.mem_append.mp hmem with hmem | hmem
    · exact h c hmem
    · rw [List.mem_singleton.mp hmem]
      trivial
  | generate hk => exact key rfl hk rfl
  | duplicate hk _ => exact key rfl hk trivial
  | insert hk _ =>
    have hc := h _ (List.mem_of_getElem? hk)
    exact key rfl hk hc
  | announce hk =>
    have hc := h _ (List.mem_of_getElem? hk)
    exact key (by simp) hk hc
  | depart hk hd =>
    refine key (by simp) hk ?_
    cases hd with
    | teardown => rfl
    | evict =>
      have hc := h _ (List.mem_of_getElem? hk)
      exact hc
  | @remove k order request id caller hk _ =>
    refine key rfl hk ?_
    have hc := h _ (List.mem_of_getElem? hk)
    cases caller with
    | teardown => exact ⟨id, hc⟩
    | signal slot => trivial
  | respond hk hr =>
    refine key rfl hk ?_
    cases hr with
    | discover _ => exact ⟨_, rfl⟩
    | _ => trivial
  | collect hk _ => exact key rfl hk rfl
  | subscribe hk => exact key rfl hk ⟨_, h _ (List.mem_of_getElem? hk)⟩
  | accept hk _ _ _ _ => exact key rfl hk ⟨_, _, rfl⟩
  | disconnect hk _ _ _ _ => exact key rfl hk ⟨_, rfl⟩
  | openListener hk _ _ _ => exact key rfl hk ⟨_, rfl⟩
  | _ => exact h

/-- A request addressed to a peer that is not in the map changes no map, channel or stream
and broadcasts at most the removal of that peer. -/
theorem Moves.absent {s t : Server} {k : Nat} {order : List Id} {evs : List Event}
    (hm : s.Moves (.advance k order) t evs) {call : Call} (hk : s.calls[k]? = some call)
    (hc : call.Consistent) {id : Id} (ha : call.request.addressee = some id)
    (habsent : id ∉ s.peers) :
    t.peers = s.peers ∧ t.channels = s.channels ∧ t.streams = s.streams ∧
      ∀ e ∈ evs, ∃ sent, e = .broadcast ⟨[.remove id]⟩ sent := by
  obtain ⟨request, phase⟩ := call
  cases hm with
  | generate hj | collect hj _ | openListener hj _ _ _ =>
    rw [hk, Option.some.injEq, Call.mk.injEq] at hj
    rw [hj.1] at ha
    simp [Request.addressee] at ha
  | duplicate hj _ | insert hj _ | announce hj | subscribe hj =>
    rw [hk, Option.some.injEq, Call.mk.injEq] at hj
    obtain ⟨rfl, rfl⟩ := hj
    simp only [Call.Consistent] at hc
    rw [hc] at ha
    simp [Request.addressee] at ha
  | @depart _ _ _ id' caller hj hd =>
    rw [hk, Option.some.injEq] at hj
    subst hj
    have hid : id' = id := by
      cases hd with
      | teardown => simpa [Request.addressee] using ha
      | evict =>
        obtain ⟨sig, hsig⟩ := hc
        rw [hsig] at ha
        simpa [Request.addressee] using ha
    subst hid
    refine ⟨by simp, by simp, by simp, fun e he => ?_⟩
    rw [List.mem_singleton.mp he, broadcastChange]
    split
    · exact ⟨true, rfl⟩
    · exact ⟨false, rfl⟩
  | @remove _ _ _ id' caller hj hmem =>
    rw [hk, Option.some.injEq, Call.mk.injEq] at hj
    obtain ⟨rfl, rfl⟩ := hj
    have hid : id' = id := by
      cases caller with
      | teardown =>
        simp only [Call.Consistent] at hc
        rw [hc] at ha
        simpa [Request.addressee] using ha
      | signal slot =>
        obtain ⟨sig, hsig⟩ := hc
        rw [hsig] at ha
        simpa [Request.addressee] using ha
    exact absurd (hid ▸ hmem) habsent
  | respond _ _ => exact ⟨rfl, rfl, rfl, by simp⟩
  | accept hj hp _ _ _ | disconnect hj hp _ _ _ =>
    rw [hk, Option.some.injEq, Call.mk.injEq] at hj
    rw [hj.1, Request.addressee, Option.some.injEq] at ha
    exact absurd (ha ▸ Finmap.mem_of_lookup_eq_some hp) habsent

/-- Every call of a reachable server is consistent. -/
theorem consistent {ok : Server → Action → Prop} {tr : List Event} {s : Server}
    (hr : server.Run ok tr s) : ∀ c ∈ s.calls, c.Consistent :=
  hr.invariant (I := fun _ s => ∀ c ∈ s.calls, c.Consistent)
    (by intro c hc; simp [server, Server.new] at hc)
    fun _ h _ hs => (step_moves hs).consistent h

end Server

end JustWebrtc.Signalling
