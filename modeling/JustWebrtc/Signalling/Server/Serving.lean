import JustWebrtc.Signalling.Server.Atomic

/-!
# Serving one request after the other

On a settled server the handler of an arriving request can go on alone until it answers. The
server is then settled again, with one finished call more.
-/

namespace JustWebrtc.Signalling

namespace Server

/-- One step of a server whose handlers run to completion. -/
def Serves (s t : Server) : Prop := ∃ a evs, s.Alone a ∧ s.step a = some (t, evs)

/-- The server with one call more. -/
def withCall (s : Server) (request : Request) (phase : Phase) : Server :=
  { s with calls := s.calls ++ [⟨request, phase⟩] }

variable {s u : Server} {request : Request} {phase phase' : Phase} {evs : List Event}
  {result : Except Status Response}

/-- A finished call leaves the server settled. -/
theorem Settled.withCall (h : s.Settled) : (s.withCall request (.done result)).Settled := by
  intro c hc
  rcases List.mem_append.mp hc with hc | hc
  · exact h c hc
  · rw [List.mem_singleton.mp hc]
    rfl

/-- A request may always arrive. -/
theorem serves_receive (s : Server) (request : Request) :
    s.Serves (s.withCall request .received) :=
  ⟨.receive request, [], by simp [Alone, Action.call], rfl⟩

/-- The last call moves. -/
theorem setPhase_withCall (hu : u.calls = s.calls) :
    (u.withCall request phase).setPhase s.calls.length phase' = u.withCall request phase' := by
  have hmod : (u.calls ++ [(⟨request, phase⟩ : Call)]).modify u.calls.length
      (fun c => { c with phase := phase' }) = u.calls ++ [⟨request, phase'⟩] :=
    List.modifyTailIdx_add _ 0 u.calls [⟨request, phase⟩]
  rw [← hu, setPhase, withCall, withCall]
  exact congrArg (fun calls => { u with calls := calls }) hmod

/-- The handler of the last call of an otherwise settled server may go on. -/
theorem Settled.serves (h : s.Settled) (order : List Id)
    (hscope : (s.withCall request phase).scope s.calls.length order ⟨request, phase⟩ =
      some (u.withCall request phase, phase', evs)) (hu : u.calls = s.calls) :
    (s.withCall request phase).Serves (u.withCall request phase') := by
  refine ⟨.advance s.calls.length order, evs, ?_, ?_⟩
  · rintro k ⟨⟩ c hc
    refine h c ?_
    rwa [Server.withCall, List.eraseIdx_append_of_length_le le_rfl, Nat.sub_self,
      List.eraseIdx_zero, List.tail_cons, List.append_nil] at hc
  · have hcall : (s.withCall request phase).calls[s.calls.length]? = some ⟨request, phase⟩ :=
      List.getElem?_concat_length
    rw [step, advance]
    simp only [hcall, hscope, Option.map_some, setPhase_withCall hu]

/-- A broadcast that is taken by the channel changes only the channel. -/
theorem broadcastChange_ok {c : PeerChange} {r : Ring PeerListenerRsp}
    (hr : s.broadcast.tryBroadcast ⟨[c]⟩ = .ok r) :
    (s.withCall request phase).broadcastChange c =
      ({ s with broadcast := r }.withCall request phase, .broadcast ⟨[c]⟩ true) := by
  have hr' : (s.withCall request phase).broadcast.tryBroadcast ⟨[c]⟩ = .ok r := hr
  simp only [broadcastChange, hr']
  rfl

/-- An `advertise` is served when the counter stands at an identifier that is free. -/
theorem Settled.serves_advertise (h : s.Settled) (hfree : s.generator ∉ s.peers)
    {r : Ring PeerListenerRsp} (hr : s.broadcast.tryBroadcast ⟨[.add s.generator]⟩ = .ok r) :
    Relation.ReflTransGen Serves (s.withCall .advertise .received)
      ({ s with
          generator := s.generator + 1
          peers := s.peers.insert s.generator {}
          broadcast := r }.withCall .advertise
        (.done (.ok (.advertise (some s.generator))))) := by
  let drawn : Server := { s with generator := s.generator + 1 }
  let inserted : Server := { drawn with peers := s.peers.insert s.generator {} }
  have hinsert : (drawn.withCall .advertise (.inserting s.generator)).scope s.calls.length []
      ⟨.advertise, .inserting s.generator⟩ = some (inserted.withCall .advertise
        (.inserting s.generator), .announcing s.generator,
        [.inserted s.calls.length s.generator]) := congrArg some (if_neg hfree)
  have hannounce : (inserted.withCall .advertise (.announcing s.generator)).scope s.calls.length []
      ⟨.advertise, .announcing s.generator⟩ = some ({ inserted with broadcast := r }.withCall
        .advertise (.announcing s.generator), .done (.ok (.advertise (some s.generator))),
        [.broadcast ⟨[.add s.generator]⟩ true]) := by
    change some (advertiseTransmit _ _) = _
    rw [advertiseTransmit, broadcastChange_ok (s := inserted) hr]
  have hgenerated : (s.withCall .advertise .received).Serves
      (drawn.withCall .advertise (.inserting s.generator)) := h.serves [] rfl rfl
  exact ((Relation.ReflTransGen.single hgenerated).tail (Settled.serves h [] hinsert rfl)).tail
    (Settled.serves h [] hannounce rfl)

/-- A `teardown` of a peer in the map is served. -/
theorem Settled.serves_teardown (h : s.Settled) {id : Id} (hid : id ∈ s.peers)
    {r : Ring PeerListenerRsp} (hr : s.broadcast.tryBroadcast ⟨[.remove id]⟩ = .ok r) :
    Relation.ReflTransGen Serves (s.withCall (.teardown (some id)) .received)
      ({ s with peers := s.peers.erase id, broadcast := r }.withCall (.teardown (some id))
        (.done (.ok .teardown))) := by
  let departed : Server := { s with broadcast := r }
  have hdepart : (s.withCall (.teardown (some id)) .received).scope s.calls.length []
      ⟨.teardown (some id), .received⟩ = some (departed.withCall (.teardown (some id)) .received,
        .removing id .teardown, [.broadcast ⟨[.remove id]⟩ true]) := by
    change some (handleTeardownTransmit _ _ _) = _
    rw [handleTeardownTransmit, broadcastChange_ok hr]
  have hremove : (departed.withCall (.teardown (some id)) (.removing id .teardown)).scope
      s.calls.length [] ⟨.teardown (some id), .removing id .teardown⟩ =
        some (Server.withCall { departed with peers := s.peers.erase id } (.teardown (some id))
          (.removing id .teardown), .done (.ok .teardown), [.removed id]) :=
    congrArg some (if_pos hid)
  exact (Relation.ReflTransGen.single (h.serves [] hdepart rfl)).tail
    (Settled.serves h [] hremove rfl)

/-- An `open_peer_listener` is served with a new stream. -/
theorem Settled.serves_openPeerListener (h : s.Settled) (id : Id) (initial : List Id)
    (hi : s.Iterates id initial) :
    Relation.ReflTransGen Serves (s.withCall (.openPeerListener (some id)) .received)
      ((s.openPeerListenerSubscribe s.calls.length id initial).1.withCall
        (.openPeerListener (some id)) (.done (.ok (.openPeerListener s.streams.length)))) := by
  have hcollect : (s.withCall (.openPeerListener (some id)) .received).scope s.calls.length initial
      ⟨.openPeerListener (some id), .received⟩ = some (s.withCall (.openPeerListener (some id))
        .received, .subscribing id initial, []) := if_pos hi
  have hsubscribe : (s.withCall (.openPeerListener (some id)) (.subscribing id initial)).Serves
      ((s.openPeerListenerSubscribe s.calls.length id initial).1.withCall
        (.openPeerListener (some id)) (.done (.ok (.openPeerListener s.streams.length)))) :=
    h.serves [] rfl rfl
  exact (Relation.ReflTransGen.single (h.serves initial hcollect rfl)).tail hsubscribe

/-- An `open_offer_listener` or `open_answer_listener` is served with a new channel. -/
theorem Settled.serves_openListener (h : s.Settled) (slot : Slot) {id : Id} {peer : Listeners}
    (hp : s.peers.lookup id = some peer) (hc : peer.tx slot = none) :
    ∃ channel, Relation.ReflTransGen Serves (s.withCall (.openListener slot (some id)) .received)
      (Server.withCall { s with
          peers := s.peers.insert id (peer.setTx slot s.channels.length)
          channels := s.channels ++ [{ slot := slot, peer := id, channel := channel }] }
        (.openListener slot (some id)) (.done (.ok (.openListener slot s.channels.length)))) := by
  obtain ⟨channel, hsend, _⟩ := @Channel.trySend_open SignalListenerRsp 16 (by decide) ⟨none⟩
  have hp' : (s.withCall (.openListener slot (some id)) .received).peers.lookup id = some peer := hp
  have hscope : (s.withCall (.openListener slot (some id)) .received).scope s.calls.length []
      ⟨.openListener slot (some id), .received⟩ = some (Server.withCall { s with
          peers := s.peers.insert id (peer.setTx slot s.channels.length)
          channels := s.channels ++ [{ slot := slot, peer := id, channel := channel }] }
        (.openListener slot (some id)) .received,
        .done (.ok (.openListener slot s.channels.length)), []) := by
    cases slot <;>
      simp only [scope, start, openOfferListener, openAnswerListener, openListener, hp', hsend,
        hc] <;>
      rfl
  exact ⟨channel, Relation.ReflTransGen.single (h.serves [] hscope rfl)⟩

/-! ## Rounds -/

/-- After `n` rounds of an `advertise` and the `teardown` of its peer, a server without peers
has drawn `n` identifiers, and otherwise only past calls and broadcasts are left of them. -/
structure Rounds (s : Server) (n : Nat) (t : Server) : Prop where
  reached : Relation.ReflTransGen Serves s t
  settled : t.Settled
  generator : t.generator = s.generator + UInt64.ofNat n
  peers : t.peers = ∅
  calls : ∃ more, t.calls = s.calls ++ more
  records : ∃ log, t.broadcast.Records 0 log
  receivers : t.broadcast.receivers = s.broadcast.receivers
  streams : t.streams = s.streams
  channels : t.channels = s.channels

/-- There is always another round. -/
theorem Rounds.again {n : Nat} {t : Server} (h : s.Rounds n t) : ∃ u, s.Rounds (n + 1) u := by
  obtain ⟨log, hlog⟩ := h.records
  obtain ⟨more, hcalls⟩ := h.calls
  obtain ⟨r, hr, hrec, hreceivers, _⟩ := hlog.tryBroadcast ⟨[.add t.generator]⟩
  obtain ⟨r', hr', hrec', hreceivers', _⟩ := hrec.tryBroadcast ⟨[.remove t.generator]⟩
  have hfree : t.generator ∉ t.peers := by
    rw [h.peers]
    exact Finmap.notMem_empty
  let u : Server := Server.withCall { t with
      generator := t.generator + 1
      peers := t.peers.insert t.generator {}
      broadcast := r } .advertise (.done (.ok (.advertise (some t.generator))))
  have hsettled : u.Settled := Settled.withCall h.settled
  have hadvertise : Relation.ReflTransGen Serves t u :=
    (Relation.ReflTransGen.single (t.serves_receive .advertise)).trans
      (h.settled.serves_advertise hfree hr)
  have hteardown := (Relation.ReflTransGen.single (u.serves_receive
    (.teardown (some t.generator)))).trans
      (hsettled.serves_teardown (Finmap.mem_insert.mpr (Or.inl rfl)) hr')
  refine ⟨_, (h.reached.trans hadvertise).trans hteardown, Settled.withCall hsettled, ?_, ?_, ?_,
    ⟨_, hrec'⟩, hreceivers'.trans (hreceivers.trans h.receivers), h.streams, h.channels⟩
  · change t.generator + 1 = _
    rw [h.generator, UInt64.add_assoc]
    congr 1
    exact (UInt64.ofNat_add n 1).symm
  · change (t.peers.insert t.generator {}).erase t.generator = ∅
    rw [h.peers]
    exact Finmap.ext_lookup fun x => by
      by_cases hx : x = t.generator
      · rw [hx, Finmap.lookup_erase, Finmap.lookup_empty]
      · rw [Finmap.lookup_erase_ne hx, Finmap.lookup_insert_of_ne _ hx]
  · change ∃ more', (t.calls ++ [_]) ++ [_] = s.calls ++ more'
    rw [hcalls, List.append_assoc, List.append_assoc]
    exact ⟨_, rfl⟩

/-- A settled server without peers can go through any number of rounds. -/
theorem Settled.rounds (h : s.Settled) (hp : s.peers = ∅) {log : List PeerListenerRsp}
    (hlog : s.broadcast.Records 0 log) (n : Nat) : ∃ t, s.Rounds n t := by
  induction n with
  | zero =>
    exact ⟨s, .refl, h, (UInt64.add_zero _).symm, hp, ⟨[], (List.append_nil _).symm⟩, ⟨log, hlog⟩,
      rfl, rfl, rfl⟩
  | succ n ih =>
    obtain ⟨t, ht⟩ := ih
    exact ht.again

/-- The counter comes back to its start: the first peer is torn down, and after rounds for all
other identifiers the server is vacant and is about to draw the first one again. -/
theorem wraps : ∃ t log, Relation.ReflTransGen Serves (Server.new.withCall .advertise .received) t ∧
    t.Settled ∧ t.generator = 0 ∧ t.peers = ∅ ∧ t.streams = [] ∧
    t.calls[0]? = some ⟨.advertise, .done (.ok (.advertise (some 0)))⟩ ∧
    t.broadcast.Records 0 log ∧ t.broadcast.receivers = [some 0] := by
  have hnew : Server.new.Settled := by
    intro c hc
    simp [Server.new] at hc
  have hempty : Server.new.broadcast.Records 0 [] := Ring.Records.broadcast (by decide)
  obtain ⟨r, hr, hrec, hreceivers, _⟩ := hempty.tryBroadcast ⟨[.add 0]⟩
  obtain ⟨r', hr', hrec', hreceivers', _⟩ := hrec.tryBroadcast ⟨[.remove 0]⟩
  let u : Server := Server.withCall { Server.new with
      generator := 1
      peers := (∅ : Finmap fun _ : Id => Listeners).insert 0 {}
      broadcast := r } .advertise (.done (.ok (.advertise (some 0))))
  have hsettled : u.Settled := Settled.withCall hnew
  have hadvertise : Relation.ReflTransGen Serves (Server.new.withCall .advertise .received) u :=
    hnew.serves_advertise Finmap.notMem_empty hr
  let v : Server := Server.withCall { u with
      peers := u.peers.erase 0
      broadcast := r' } (.teardown (some 0)) (.done (.ok .teardown))
  have hteardown : Relation.ReflTransGen Serves u v :=
    (Relation.ReflTransGen.single (u.serves_receive (.teardown (some 0)))).trans
      (hsettled.serves_teardown (Finmap.mem_insert.mpr (Or.inl rfl)) hr')
  have hvacant : v.peers = ∅ := by
    refine Finmap.ext_lookup fun x => ?_
    change (((∅ : Finmap fun _ : Id => Listeners).insert 0 {}).erase 0).lookup x = _
    by_cases hx : x = 0
    · rw [hx, Finmap.lookup_erase, Finmap.lookup_empty]
    · rw [Finmap.lookup_erase_ne hx, Finmap.lookup_insert_of_ne _ hx]
  have hvs : v.Settled := Settled.withCall hsettled
  obtain ⟨t, ht⟩ := hvs.rounds hvacant hrec' (2 ^ 64 - 1)
  obtain ⟨log, hlog⟩ := ht.records
  refine ⟨t, log, (hadvertise.trans hteardown).trans ht.reached, ht.settled, ?_, ht.peers,
    ht.streams, ?_, hlog, ?_⟩
  · rw [ht.generator]
    change (1 : UInt64) + UInt64.ofNat (2 ^ 64 - 1) = 0
    decide
  · obtain ⟨more, hcalls⟩ := ht.calls
    rw [hcalls]
    rfl
  · rw [ht.receivers]
    exact hreceivers'.trans hreceivers

end Server

end JustWebrtc.Signalling
