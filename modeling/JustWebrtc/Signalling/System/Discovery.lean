import JustWebrtc.Signalling.Client.Discovery
import JustWebrtc.Signalling.Server.Snapshots
import JustWebrtc.Signalling.System.Clients

/-!
# Discovery

Of two clients that have opened their peer listeners, the one whose snapshot was taken later
finds the other in it. Each client creates its offers from that snapshot, once, with the first
message it takes from its peer listener.
-/

namespace JustWebrtc.Signalling

variable {ι A O C : Type*} [DecidableEq ι]

namespace System

/-! ## Coverage -/

/-- The entry that client `j` advertised has been inserted and not been removed since. -/
def Standing (tr : List (Event ι A O C)) (j : ι) (id : Id) : Prop :=
  ∃ n, Event.requested j n .advertise ∈ tr ∧ Signalling.Standing (serverTrace tr) n id

/-- Of the snapshots of two clients whose entries stand, one lists the other's peer. -/
def CoverageInv (tr : List (Event ι A O C)) (s : System ι A O C) : Prop :=
  ∀ a b k k' id id' initial initial', a ≠ b →
    Event.requested a k (.openPeerListener (some id)) ∈ tr →
    Event.requested b k' (.openPeerListener (some id')) ∈ tr →
    Standing tr a id → Standing tr b id' →
    s.server.Snapshot k initial → s.server.Snapshot k' initial' → id' ∈ initial ∨ id ∈ initial'

variable {codecs : Codecs A O C} {tr evs : List (Event ι A O C)} {s t : System ι A O C}
  {a : Action ι A O C}

/-- The snapshots of an arriving request are none. -/
theorem snapshot_receive {server : Server} {request : Request} {k : Nat} {initial : List Id}
    (h : (server.receive request).Snapshot k initial) :
    server.Snapshot k initial ∧ k < server.calls.length := by
  have hlt {phase} (hk : server.At k phase) : k < server.calls.length := by
    obtain ⟨_, hk⟩ := hk
    exact (List.getElem?_eq_some_iff.mp hk).1
  rcases h with ⟨id, hk⟩ | ⟨i, st, rest, hk, hi, hl⟩
  · have hk' := (Server.at_receive (by simp)).mp hk
    exact ⟨Or.inl ⟨id, hk'⟩, hlt hk'⟩
  · have hk' := (Server.at_receive (by simp)).mp hk
    exact ⟨Or.inr ⟨i, st, rest, hk', hi, hl⟩, hlt hk'⟩

/-- An entry that stands after a step, of a client that had asked for its peer listener before,
stood before. -/
theorem Moves.standing (hm : Moves codecs s a (t, evs)) {j : ι}
    (hj : ClientInv tr s j (s.clients j)) (hj' : ClientInv (tr ++ evs) t j (t.clients j))
    {k : Nat} {id : Id} (hr : Event.requested j k (.openPeerListener (some id)) ∈ tr)
    (h : Standing (tr ++ evs) j id) : Standing tr j id := by
  obtain ⟨n, hn, hst⟩ := h
  obtain ⟨id', hid, hmade⟩ := (hj.authored k _ hr).resolve_left (by simp)
  obtain ⟨n', hn', request, hdone⟩ := hj.source id' hid
  obtain rfl := hj'.once n n' _ _ hn (List.mem_append_left _ hn') rfl (by decide)
  refine ⟨n, hn', ?_⟩
  rw [serverTrace_append] at hst
  rcases hst.of_append with ⟨hst, _⟩ | hins
  · exact hst
  · rcases hm.server_moves with ⟨_, hnil⟩ | ⟨b, hb, _⟩
    · simp [hnil] at hins
    · obtain ⟨_, _, ⟨request', hk⟩, _⟩ := hb.inserted hins
      rw [hdone, Option.some.injEq, Call.mk.injEq] at hk
      simp at hk

/-- A snapshot after a step was there before, or the step has taken it, of the whole map. -/
theorem Moves.snapshot (hm : Moves codecs s a (t, evs)) (hcalls : CallsInv tr s)
    (hout : s.server.HandsOut) {j : ι} {k : Nat} {id : Id} {initial : List Id}
    (hr : Event.requested j k (.openPeerListener (some id)) ∈ tr ++ evs)
    (hs : t.server.Snapshot k initial) :
    Event.requested j k (.openPeerListener (some id)) ∈ tr ∧
      (s.server.Snapshot k initial ∨ ∃ order, a = .server (.advance k order) ∧
        s.server.calls[k]? = some ⟨.openPeerListener (some id), .received⟩ ∧
        s.server.Iterates id initial) := by
  rcases hm.effect with ⟨b, t', evs', rfl, hb, heq⟩ | ⟨j', c, evs', _, heq, _, hreq⟩ |
    ⟨j', f, r, evs', _, heq, _, hreq⟩
  · rw [Prod.mk.injEq] at heq
    obtain ⟨rfl, rfl⟩ := heq
    have hold : Event.requested j k (.openPeerListener (some id)) ∈ tr := by simpa using hr
    refine ⟨hold, ?_⟩
    rcases (Server.step_moves hb).snapshot hout hs with hs | ⟨order, x, rfl, hk, hit, _⟩
    · exact Or.inl hs
    · obtain ⟨phase, hk'⟩ := hcalls.sent j k _ hold
      rw [hk, Option.some.injEq, Call.mk.injEq] at hk'
      obtain rfl : x = id := by simpa using hk'.1
      exact Or.inr ⟨order, rfl, hk, hit⟩
  · rw [put, Prod.mk.injEq] at heq
    obtain ⟨rfl, rfl⟩ := heq
    exact ⟨(List.mem_append.mp hr).resolve_right (hreq j k _), Or.inl hs⟩
  · rw [send, Prod.mk.injEq] at heq
    obtain ⟨rfl, rfl⟩ := heq
    obtain ⟨hs, hlt⟩ := snapshot_receive hs
    refine ⟨?_, Or.inl hs⟩
    rcases List.mem_append.mp hr with hr | hr
    · exact hr
    · rcases List.mem_append.mp hr with hr | hr
      · exact absurd hr (hreq j k _)
      · rw [List.mem_singleton, Event.requested.injEq] at hr
        exact absurd hr.2.1 hlt.ne

/-- Every step keeps the coverage: a snapshot that it takes lists all that stands. -/
theorem Moves.coverageInv (hm : Moves codecs s a (t, evs)) (hcalls : CallsInv tr s)
    (hclients : ∀ j, ClientInv tr s j (s.clients j))
    (hclients' : ∀ j, ClientInv (tr ++ evs) t j (t.clients j))
    (hent : Server.EntriesInv (serverTrace tr) s.server) (hout : s.server.HandsOut)
    (h : CoverageInv tr s) : CoverageInv (tr ++ evs) t := by
  intro a b k k' id id' initial initial' hab hr hr' hst hst' hs hs'
  obtain ⟨hr, hs⟩ := hm.snapshot hcalls hout hr hs
  obtain ⟨hr', hs'⟩ := hm.snapshot hcalls hout hr' hs'
  replace hst := hm.standing (hclients a) (hclients' a) hr hst
  replace hst' := hm.standing (hclients b) (hclients' b) hr' hst'
  have hboth := h a b k k' id id' initial initial' hab hr hr' hst hst'
  obtain ⟨n, hn, hst⟩ := hst
  obtain ⟨n', hn', hst'⟩ := hst'
  have hne : id ≠ id' := by
    rintro rfl
    obtain rfl := hent.single n n' id hst hst'
    exact hab (hcalls.owner a b n _ _ hn hn')
  rcases hs with hs | ⟨_, _, _, hit⟩
  · rcases hs' with hs' | ⟨_, _, _, hit⟩
    · exact hboth hs hs'
    · exact Or.inr (hent.mem_snapshot hit hst hne)
  · exact Or.inl (hent.mem_snapshot hit hst' hne.symm)

/-- The coverage after every run. -/
theorem coverageInv {ok : System ι A O C → Action ι A O C → Prop}
    (hr : (system ι codecs).Run ok tr s) : CoverageInv tr s := by
  refine hr.invariant ?_ ?_
  · intro a b k k' id id' initial initial' _ hr
    simp at hr
  · intro tr s a t evs hr h ha hs
    have hm : Moves codecs s a (t, evs) := step_moves hs
    obtain ⟨hcalls, hclients⟩ := clientInv hr
    exact hm.coverageInv hcalls hclients (clientInv (hr.step ha hs)).2
      (Server.entriesInv (freeRun hr)) (Server.handsOut (freeRun hr)) h

/-! ## The first message -/

/-- The messages that client `j` has taken from its peer listener. -/
def peerMessages (j : ι) (tr : List (Event ι A O C)) : List (List PeerChange) :=
  tr.filterMap fun
    | .consumed i state => if i = j then state.changes else none
    | _ => none

/-- The peers for which client `j` has called `create_offer`. -/
def createdOffers (j : ι) (tr : List (Event ι A O C)) : List Id :=
  tr.filterMap fun
    | .called i task => if i = j then task.offered else none
    | _ => none

@[simp] theorem peerMessages_append (j : ι) (tr evs : List (Event ι A O C)) :
    peerMessages j (tr ++ evs) = peerMessages j tr ++ peerMessages j evs := List.filterMap_append

@[simp] theorem createdOffers_append (j : ι) (tr evs : List (Event ι A O C)) :
    createdOffers j (tr ++ evs) = createdOffers j tr ++ createdOffers j evs :=
  List.filterMap_append

/-- Neither is about other events. -/
theorem discoveries_nil {j : ι}
    (he : ∀ e ∈ evs, (∀ state, e ≠ .consumed j state) ∧ ∀ task, e ≠ .called j task) :
    peerMessages j evs = [] ∧ createdOffers j evs = [] := by
  constructor
  · rw [peerMessages, List.filterMap_eq_nil_iff]
    intro e hm
    cases e with
    | consumed i state =>
      refine if_neg ?_
      rintro rfl
      exact (he _ hm).1 state rfl
    | _ => rfl
  · rw [createdOffers, List.filterMap_eq_nil_iff]
    intro e hm
    cases e with
    | called i task =>
      refine if_neg ?_
      rintro rfl
      exact (he _ hm).2 task rfl
    | _ => rfl

/-- The messages and the offers of an outcome. -/
theorem discoveries_eventsOf (j : ι) (out : Outcome A O C) :
    peerMessages j (eventsOf j out) = (out.consumed.bind SignallingState.changes).toList ∧
      createdOffers j (eventsOf j out) = out.called.filterMap Task.offered := by
  have hcalled : peerMessages j (out.called.map (Event.called j) : List (Event ι A O C)) = [] := by
    simp [peerMessages]
  constructor
  · rw [eventsOf, peerMessages_append, hcalled, List.append_nil]
    cases out.consumed with
    | none => rfl
    | some state =>
      cases h : state.changes <;> simp [peerMessages, h]
  · rw [eventsOf, createdOffers_append]
    simp [createdOffers, List.filterMap_map]

/-- What an outcome adds to the messages and the offers of its client. -/
theorem discoveries_apply (s : System ι A O C) (j : ι) (out : Outcome A O C) :
    peerMessages j (s.apply j out).2 = (out.consumed.bind SignallingState.changes).toList ∧
      createdOffers j (s.apply j out).2 = out.called.filterMap Task.offered := by
  obtain ⟨hmsgs, hoffers⟩ := discoveries_eventsOf j out
  have hrequest : ∀ e ∈ (out.request.toList.map (.requested j s.server.calls.length) :
      List (Event ι A O C)), (∀ state, e ≠ .consumed j state) ∧ ∀ task, e ≠ .called j task := by
    simp
  obtain ⟨hmsgs', hoffers'⟩ := discoveries_nil hrequest
  rw [apply_eq, peerMessages_append, createdOffers_append, hmsgs, hoffers, hmsgs', hoffers',
    List.append_nil, List.append_nil]
  exact ⟨rfl, rfl⟩

/-- Client `j` has not taken any message from its peer listener. -/
structure Undiscovered (tr : List (Event ι A O C)) (s : System ι A O C) (j : ι) : Prop where
  messages : peerMessages j tr = []
  offers : createdOffers j tr = []
  resyncs : ∀ k id, Event.requested j k (.peerDiscover id) ∉ tr
  peer : ∀ p ∈ (s.clients j).peer?, p.Undiscovered

/-- The first message of the peer listener of client `j` was the snapshot `initial`. -/
structure Discovered (tr : List (Event ι A O C)) (s : System ι A O C) (j : ι) (p : Peer A O C)
    (initial : List Id) (rest : List (List PeerChange)) : Prop where
  peer : (s.clients j).peer? = some p
  first : p.firstDiscovery = false
  messages : peerMessages j tr = initial.map Change.add :: rest
  offers : createdOffers j tr = initial
  handed : ∃ (i : Nat) (st : PeerStream), Opened tr s j p.localId .peer i ∧
    s.server.streams[i]? = some st ∧ st.loaded.head? = some (.ok ⟨initial.map Change.add⟩)
  taken : ∀ listener, Task.peerListener listener ∈ p.unorderedFuts →
    listener.taken = rest.length + 1
  resyncs : rest = [] → (∀ k id, Event.requested j k (.peerDiscover id) ∉ tr) ∧
    ∀ changes rest, p.progress ≠ .resyncing changes rest

/-- A client has not taken a message, or has created its offers from the first one. -/
def DiscoveryInv (tr : List (Event ι A O C)) (s : System ι A O C) (j : ι) : Prop :=
  Undiscovered tr s j ∨ ∃ p initial rest, Discovered tr s j p initial rest

/-- A stream of the server stays where it is and only ever hands out more. -/
theorem Moves.stream_kept (hm : Moves codecs s a (t, evs)) {i : Nat} {st : PeerStream}
    (hi : s.server.streams[i]? = some st) :
    ∃ st' more, t.server.streams[i]? = some st' ∧ st'.localId = st.localId ∧
      st'.loaded = st.loaded ++ more := by
  rcases hm.server_moves with ⟨hserver, _⟩ | ⟨b, hb, _⟩
  · exact ⟨st, [], hserver ▸ hi, rfl, (List.append_nil _).symm⟩
  · exact hb.stream_kept hi

variable {j : ι}

/-- What was handed out first stays so. -/
theorem Moves.handed (hm : Moves codecs s a (t, evs)) {id : Id} {m : PeerListenerRsp}
    (h : ∃ (i : Nat) (st : PeerStream), Opened tr s j id .peer i ∧
      s.server.streams[i]? = some st ∧ st.loaded.head? = some (.ok m)) :
    ∃ (i : Nat) (st : PeerStream), Opened (tr ++ evs) t j id .peer i ∧
      t.server.streams[i]? = some st ∧ st.loaded.head? = some (.ok m) := by
  obtain ⟨i, st, ho, hi, hl⟩ := h
  obtain ⟨st', more, hi', _, hl'⟩ := hm.stream_kept hi
  refine ⟨i, st', ho.mono fun k result => hm.returned, hi', ?_⟩
  rw [hl', List.head?_append, hl, Option.some_or]

/-- The discovery of a client goes on when its events and its peer have nothing to do with it. -/
theorem Moves.discovery_rest {out : System ι A O C × List (Event ι A O C)}
    (hm : Moves codecs s a out) (h : DiscoveryInv tr s j) (hmsgs : peerMessages j out.2 = [])
    (hoffers : createdOffers j out.2 = [])
    (hreqs : ∀ k id, Event.requested j k (.peerDiscover id) ∉ out.2)
    (hnone : (s.clients j).peer? = none → ∀ p ∈ (out.1.clients j).peer?, p.Undiscovered)
    (hsome : ∀ p, (s.clients j).peer? = some p → ∃ p', (out.1.clients j).peer? = some p' ∧
      p.SameDiscovery p') :
    DiscoveryInv (tr ++ out.2) out.1 j := by
  have hreq (hold : ∀ k id, Event.requested j k (.peerDiscover id) ∉ tr) :
      ∀ k id, Event.requested j k (.peerDiscover id) ∉ tr ++ out.2 := by
    intro k id hm
    rcases List.mem_append.mp hm with hm | hm
    · exact hold k id hm
    · exact hreqs k id hm
  rcases h with h | ⟨p, initial, rest, h⟩
  · refine Or.inl ⟨by rw [peerMessages_append, h.messages, hmsgs, List.append_nil],
      by rw [createdOffers_append, h.offers, hoffers, List.append_nil], hreq h.resyncs, ?_⟩
    cases hp : (s.clients j).peer? with
    | none => exact hnone hp
    | some p =>
      obtain ⟨p', hp', hsame⟩ := hsome p hp
      rw [hp']
      rintro _ ⟨⟩
      exact hsame.undiscovered (h.peer p hp)
  · obtain ⟨p', hp', hsame⟩ := hsome p h.peer
    refine Or.inr ⟨p', initial, rest, hp', hsame.first.trans h.first,
      by rw [peerMessages_append, h.messages, hmsgs, List.append_nil],
      by rw [createdOffers_append, h.offers, hoffers, List.append_nil],
      hsame.localId ▸ Moves.handed (show Moves codecs s a (out.1, out.2) from hm) h.handed,
      fun listener hl => h.taken listener (hsame.listener listener hl),
      fun hr => ⟨hreq (h.resyncs hr).1, fun changes rest hr' => ?_⟩⟩
    exact (h.resyncs hr).2 changes rest (hsame.progress changes rest hr')

omit [DecidableEq ι] in
/-- What a client is handed as the stream of its peer listener begins with a snapshot. -/
theorem Opened.hands_out {id : Id} {i : Nat} (h : Opened tr s j id .peer i)
    (hcalls : CallsInv tr s) (hout : s.server.HandsOut) :
    ∃ (st : PeerStream) (initial : List Id), s.server.streams[i]? = some st ∧ st.localId = id ∧
      st.loaded.head? = some (.ok ⟨initial.map Change.add⟩) ∧ initial.Nodup ∧ id ∉ initial := by
  obtain ⟨k, hr, request, hk⟩ := h
  obtain ⟨phase, hk'⟩ := hcalls.sent j k _ hr
  rw [hk, Option.some.injEq, Call.mk.injEq] at hk'
  obtain ⟨st, initial, rest, hi, hreq, hl, hnodup, hnot⟩ := hout k request i hk
  have hid : st.localId = id := by
    have he := hreq.symm.trans hk'.1
    simpa [Listener.request] using he
  exact ⟨st, initial, hi, hid, by rw [hl]; rfl, hnodup, hid ▸ hnot⟩

omit [DecidableEq ι] in
/-- A message from a peer listener is the next one on its wire. -/
theorem Hears.peer_message {p : Peer A O C} {call : Option Nat} {i : Nat}
    {message : PeerListenerRsp}
    (h : Hears s j p call a (.peerMessage i (.ok (some message)))) {listener : Streaming}
    (hi : p.unorderedFuts[i]? = some (.peerListener listener)) :
    (s.server.peerWire listener.source)[listener.taken]? = some (.ok message) := by
  generalize hinput : Input.peerMessage i (.ok (some message)) = input at h
  cases h with
  | @peerMessage i' listener' item hi' hitem =>
    rw [Input.peerMessage.injEq] at hinput
    obtain ⟨rfl, hmessage⟩ := hinput
    rw [hi, Option.some.injEq, Task.peerListener.injEq] at hi'
    rw [hi', hitem]
    cases item with
    | error status => simp [Except.map] at hmessage
    | ok m =>
      simp only [Except.map, Except.ok.injEq, Option.some.injEq] at hmessage
      rw [hmessage]
  | peerLost hlost =>
    rw [Input.peerMessage.injEq] at hinput
    exact absurd hinput.2.symm (hlost message)
  | _ => simp at hinput

omit [DecidableEq ι] in
/-- The first item on a wire is the first message of its stream. -/
theorem head_of_peerWire {i : Nat} {st : PeerStream} {item : Except Status PeerListenerRsp}
    (hi : s.server.streams[i]? = some st) (h : (s.server.peerWire i)[0]? = some item) :
    st.loaded.head? = some item := by
  rw [Server.peerWire, hi] at h
  change st.items[0]? = some item at h
  rw [PeerStream.loaded, List.head?_append, List.head?_eq_getElem?, h, Option.some_or]

/-- An input that has nothing to do with discovery leaves that of its client alone. -/
theorem discovery_undisturbed {p : Peer A O C} {call : Option Nat} {out : Outcome A O C}
    (hm : Moves codecs s a (s.apply j out)) (hj : s.clients j = .running p call)
    (hid : out.peer.localId = p.localId) (hu : p.Undisturbed out) (h : DiscoveryInv tr s j) :
    DiscoveryInv (tr ++ (s.apply j out).2) (s.apply j out).1 j := by
  obtain ⟨hmsgs, hoffers⟩ := discoveries_apply s j out
  refine hm.discovery_rest h ?_ ?_ ?_ (by simp [hj, Client.peer?]) ?_
  · rw [hmsgs]
    cases hc : out.consumed with
    | none => rfl
    | some state =>
      cases state with
      | peerListener listener changes => exact absurd hc (hu.consumed listener changes)
      | _ => rfl
  · rw [hoffers, List.filterMap_eq_nil_iff]
    intro task ht
    cases task with
    | createOffer id => exact absurd ht (hu.created id)
    | _ => rfl
  · intro k id hr
    exact hu.request id (requested_apply.mp hr).2.2
  · intro p' hp'
    rw [hj, Client.peer?, Option.some.injEq] at hp'
    subst hp'
    exact ⟨out.peer, by rw [clients_apply]; rfl, hid, hu.first, hu.discovered,
      fun changes rest hr => absurd hr (hu.progress changes rest), hu.listener⟩

/-- A client takes its first message, the snapshot, and creates its offers. -/
theorem Undiscovered.first_message {p : Peer A O C} {call : Option Nat} {i : Nat}
    {listener : Streaming} {message : PeerListenerRsp} (h : Undiscovered tr s j)
    (hj : s.clients j = .running p call)
    (hi : p.unorderedFuts[i]? = some (.peerListener listener))
    (hmsg : (s.server.peerWire listener.source)[listener.taken]? = some (.ok message))
    (ho : Opened tr s j p.localId .peer listener.source) (hcalls : CallsInv tr s)
    (hout : s.server.HandsOut)
    (honly : ∀ listener', Task.peerListener listener' ∉ p.unorderedFuts.eraseIdx i)
    {out : Outcome A O C}
    (heq : out = { ({ p with unorderedFuts := p.unorderedFuts.eraseIdx i }.push
        [.peerListener listener.message]).synchronise message.peerChanges message.peerChanges with
      consumed := some (.peerListener listener.message message.peerChanges) })
    (hm : Moves codecs s a (s.apply j out)) :
    ∃ p initial rest, Discovered (tr ++ (s.apply j out).2) (s.apply j out).1 j p initial rest := by
  obtain ⟨st, initial, hst, hid, hhead, hnodup, _⟩ := ho.hands_out hcalls hout
  have hp := h.peer p (by rw [hj]; rfl)
  rw [hp.listener listener (List.mem_of_getElem? hi)] at hmsg
  have hfirst := head_of_peerWire hst hmsg
  rw [hhead, Option.some.injEq, Except.ok.injEq] at hfirst
  subst hfirst
  rw [Peer.synchronise_first (by exact hp.first) (by exact hp.discovered) hnodup] at heq
  obtain ⟨hmsgs, hoffers⟩ := discoveries_apply s j out
  have hpeer : ((s.apply j out).1.clients j).peer? = some out.peer := by
    rw [clients_apply]
    rfl
  have hhanded := Moves.handed
    (show Moves codecs s a ((s.apply j out).1, (s.apply j out).2) from hm)
    ⟨_, st, ho, hst, hhead⟩
  refine ⟨out.peer, initial, [], hpeer, by rw [heq]; rfl, ?_, ?_, ?_, fun listener' hl => ?_,
    fun _ => ⟨fun k id hr => ?_, by rw [heq]; simp⟩⟩
  · rw [peerMessages_append, h.messages, hmsgs, heq]
    rfl
  · rw [createdOffers_append, h.offers, hoffers, heq, List.nil_append, List.filterMap_map]
    exact List.filterMap_some
  · rw [heq] at hhanded ⊢
    exact hhanded
  · rw [heq] at hl
    simp only [Peer.unorderedFuts_push, List.mem_append, List.mem_map, List.mem_singleton,
      reduceCtorEq, and_false, exists_false, or_false] at hl
    obtain rfl := Task.peerListener.inj (hl.resolve_left (honly listener'))
    rw [Streaming.message, hp.listener listener (List.mem_of_getElem? hi)]
    rfl
  · rcases List.mem_append.mp hr with hr | hr
    · exact h.resyncs k id hr
    · have hnone := (requested_apply.mp hr).2.2
      rw [heq] at hnone
      simp at hnone

/-- After its first message a client takes more messages and resyncs, and creates no offers. -/
theorem Discovered.goes_on {p p' : Peer A O C} {call : Option Nat} {initial : List Id}
    {rest : List (List PeerChange)} (h : Discovered tr s j p' initial rest)
    (hj : s.clients j = .running p call) {out : Outcome A O C}
    (hm : Moves codecs s a (s.apply j out)) (hid : out.peer.localId = p.localId)
    (hcalled : out.called = []) (hfirst : out.peer.firstDiscovery = false)
    (htaken : ∀ listener, Task.peerListener listener ∈ out.peer.unorderedFuts →
      listener.taken = rest.length + (out.consumed.bind SignallingState.changes).toList.length + 1)
    (hrest : rest ++ (out.consumed.bind SignallingState.changes).toList ≠ []) :
    ∃ p initial rest, Discovered (tr ++ (s.apply j out).2) (s.apply j out).1 j p initial rest := by
  have hp := h.peer
  rw [hj, Client.peer?, Option.some.injEq] at hp
  subst hp
  obtain ⟨hmsgs, hoffers⟩ := discoveries_apply s j out
  refine ⟨out.peer, initial, rest ++ (out.consumed.bind SignallingState.changes).toList,
    by rw [clients_apply]; rfl, hfirst, ?_, ?_, ?_,
    fun listener hl => by rw [List.length_append]; exact htaken listener hl,
    fun hr => absurd hr hrest⟩
  · rw [peerMessages_append, h.messages, hmsgs, List.cons_append]
  · rw [createdOffers_append, h.offers, hoffers, hcalled]
    exact List.append_nil _
  · rw [hid]
    exact Moves.handed
      (show Moves codecs s a ((s.apply j out).1, (s.apply j out).2) from hm) h.handed

/-- A client that has taken its first message takes another one. -/
theorem Discovered.next_message {p p' : Peer A O C} {call : Option Nat} {initial : List Id}
    {rest : List (List PeerChange)} (h : Discovered tr s j p' initial rest)
    (hj : s.clients j = .running p call) {i : Nat} {listener : Streaming}
    {message : PeerListenerRsp} (hi : p.unorderedFuts[i]? = some (.peerListener listener))
    (honly : ∀ listener', Task.peerListener listener' ∉ p.unorderedFuts.eraseIdx i)
    {out : Outcome A O C}
    (heq : out = { ({ p with unorderedFuts := p.unorderedFuts.eraseIdx i }.push
        [.peerListener listener.message]).synchronise message.peerChanges message.peerChanges with
      consumed := some (.peerListener listener.message message.peerChanges) })
    (hm : Moves codecs s a (s.apply j out)) (hid : out.peer.localId = p.localId) :
    ∃ p initial rest, Discovered (tr ++ (s.apply j out).2) (s.apply j out).1 j p initial rest := by
  have hp := h.peer
  rw [hj, Client.peer?, Option.some.injEq] at hp
  subst hp
  have htaken := h.taken listener (List.mem_of_getElem? hi)
  obtain ⟨_, _, hfuts⟩ := Peer.synchronise_spec ({ p with
    unorderedFuts := p.unorderedFuts.eraseIdx i }.push [.peerListener listener.message])
    message.peerChanges message.peerChanges
  obtain ⟨hcalled, hnext⟩ := Peer.synchronise_later ({ p with
    unorderedFuts := p.unorderedFuts.eraseIdx i }.push [.peerListener listener.message])
    message.peerChanges message.peerChanges h.first
  refine h.goes_on hj hm hid (by rw [heq]; exact hcalled) (by rw [heq]; exact hnext)
    (fun listener' hl => ?_) (by rw [heq]; simp [SignallingState.changes])
  rw [heq] at hl ⊢
  rw [hcalled, List.append_nil] at hfuts
  rw [hfuts, Peer.unorderedFuts_push, List.mem_append, List.mem_singleton] at hl
  obtain rfl := Task.peerListener.inj (hl.resolve_left (honly listener'))
  simp [Streaming.message, htaken, SignallingState.changes]

/-- A client that has taken its first message completes a resync. -/
theorem Discovered.resync {p p' : Peer A O C} {call : Option Nat} {initial : List Id}
    {read : List (List PeerChange)} (h : Discovered tr s j p' initial read)
    (hj : s.clients j = .running p call) {changes rest : List PeerChange} {remotePeers : List Id}
    (hprog : p.progress = .resyncing changes rest) {out : Outcome A O C}
    (heq : out = { p with discoveredPeers := remotePeers.toFinset }.synchronise changes rest)
    (hm : Moves codecs s a (s.apply j out)) (hid : out.peer.localId = p.localId) :
    ∃ p initial rest, Discovered (tr ++ (s.apply j out).2) (s.apply j out).1 j p initial rest := by
  have hp := h.peer
  rw [hj, Client.peer?, Option.some.injEq] at hp
  subst hp
  obtain ⟨_, _, hfuts⟩ := Peer.synchronise_spec { p with
    discoveredPeers := remotePeers.toFinset } changes rest
  obtain ⟨hcalled, hnext⟩ := Peer.synchronise_later { p with
    discoveredPeers := remotePeers.toFinset } changes rest h.first
  refine h.goes_on hj hm hid (by rw [heq]; exact hcalled) (by rw [heq]; exact hnext)
    (fun listener' hl => ?_) fun hnil => ?_
  · rw [heq] at hl ⊢
    rw [hfuts, hcalled, List.append_nil] at hl
    rw [Peer.synchronise_consumed]
    exact h.taken listener' hl
  · exact (h.resyncs (List.append_eq_nil_iff.mp hnil).1).2 changes rest hprog

/-- An input keeps the discovery of its client. -/
theorem Hears.discoveryInv {p : Peer A O C} {call : Option Nat} {input : Input A O C}
    (hh : Hears s j p call a input) {out : Outcome A O C} (ha : p.Acts codecs input out)
    (hj : s.clients j = .running p call) (hm : Moves codecs s a (s.apply j out))
    (hcalls : CallsInv tr s) (hclient : ClientInv tr s j (.running p call))
    (hout : s.server.HandsOut) (h : DiscoveryInv tr s j) :
    DiscoveryInv (tr ++ (s.apply j out).2) (s.apply j out).1 j := by
  have hid := ha.spec.1
  rcases ha.discovery with ⟨i, listener, message, rfl, hi, _, heq⟩ |
    ⟨changes, rest, remotePeers, rfl, hprog, heq⟩ | hu
  · have honly := hclient.holds.1.only hi
    rcases h with h | ⟨p', initial, rest, h⟩
    · exact Or.inr (h.first_message hj hi (hh.peer_message hi)
        (hclient.holds.1.listens _ (List.mem_of_getElem? hi) .peer listener rfl) hcalls hout
        honly heq hm)
    · exact Or.inr (h.next_message hj hi honly heq hm hid)
  · rcases h with h | ⟨p', initial, read, h⟩
    · exact absurd hprog ((h.peer p (by rw [hj]; rfl)).progress changes rest)
    · exact Or.inr (h.resync hj hprog heq hm hid)
  · exact discovery_undisturbed hm hj hid hu h

/-- Every step keeps the discovery of every client. -/
theorem Moves.discoveryInv {out : System ι A O C × List (Event ι A O C)}
    (hm : Moves codecs s a out) (hcalls : CallsInv tr s)
    (hclient : ClientInv tr s j (s.clients j)) (hout : s.server.HandsOut)
    (h : DiscoveryInv tr s j) : DiscoveryInv (tr ++ out.2) out.1 j := by
  by_cases hown : a.client = some j
  · have hm' := hm
    cases hm with
    | server _ => simp [Action.client] at hown
    | @act j' p call _ input out hj hh ha =>
      obtain rfl : j' = j := by
        rw [hh.client] at hown
        exact Option.some.inj hown
      rw [hj] at hclient
      exact hh.discoveryInv ha hj hm' hcalls hclient hout h
    | @start j' hj | @advertised j' _ _ hj _ | @peerListener j' _ _ _ hj _
    | @offerListener j' _ _ _ _ hj _ =>
      obtain rfl : j' = j := Option.some.inj hown
      exact hm'.discovery_rest h (by simp [send, peerMessages]) (by simp [send, createdOffers])
        (by simp [send]) (by simp [send, Client.peer?]) (by simp [hj, Client.peer?])
    | @answerListener j' id i c k c' hj _ =>
      obtain rfl : j' = j := Option.some.inj hown
      refine hm'.discovery_rest h rfl rfl (by simp [put]) (fun _ p hp => ?_)
        (by simp [hj, Client.peer?])
      simp only [put, Function.update_self, Client.peer?, Option.mem_def, Option.some.injEq] at hp
      rw [← hp]
      exact Peer.new_undiscovered id i c c'
    | @giveUp j' k status _ hst _ ha =>
      obtain rfl : j' = j := by
        rcases ha with rfl | ⟨rfl, _⟩ <;> exact Option.some.inj hown
      refine hm'.discovery_rest h rfl rfl (by simp [put]) (by simp [put, Client.peer?]) ?_
      intro p hp
      cases hc : s.clients j' <;> simp [hc, Client.starting, Client.peer?] at hst hp
    | @close j' p hj =>
      obtain rfl : j' = j := Option.some.inj hown
      refine hm'.discovery_rest h (by simp [send, peerMessages]) (by simp [send, createdOffers])
        (by simp [send]) (by simp [hj, Client.peer?]) fun p' hp' => ?_
      rw [hj] at hp'
      exact ⟨p', by simpa [send, Client.peer?] using hp', .refl p'⟩
    | @closed j' p k _ response hj ha =>
      obtain rfl : j' = j := by
        rcases ha with rfl | rfl <;> exact Option.some.inj hown
      refine hm'.discovery_rest h rfl rfl (by simp [put]) (by simp [hj, Client.peer?])
        fun p' hp' => ?_
      rw [hj] at hp'
      exact ⟨p', by simpa [put, Client.peer?] using hp', .refl p'⟩
  · obtain ⟨hc, he⟩ := hm.others hown
    obtain ⟨hmsgs, hoffers⟩ := discoveries_nil (j := j) fun e (hmem : e ∈ out.2) =>
      ⟨fun state heq => he e hmem (by rw [heq]; rfl), fun task heq => he e hmem (by rw [heq]; rfl)⟩
    refine hm.discovery_rest h hmsgs hoffers (fun k id hmem => he _ hmem rfl) ?_ ?_
    · intro hnone p hp
      rw [hc, hnone] at hp
      simp at hp
    · intro p hp
      exact ⟨p, by rw [hc]; exact hp, .refl p⟩

/-- The discovery of every client after every run. -/
theorem discoveryInv {ok : System ι A O C → Action ι A O C → Prop}
    (hr : (system ι codecs).Run ok tr s) (j : ι) : DiscoveryInv tr s j := by
  refine hr.invariant (I := fun tr s => DiscoveryInv tr s j) ?_ ?_
  · exact Or.inl ⟨rfl, rfl, by simp, by simp [system, Client.peer?]⟩
  · intro tr s a t evs hr h _ hs
    have hm : Moves codecs s a (t, evs) := step_moves hs
    obtain ⟨hcalls, hclients⟩ := clientInv hr
    exact hm.discoveryInv hcalls (hclients j) (Server.handsOut (freeRun hr)) h

omit [DecidableEq ι] in
/-- The snapshot that a client is handed is the one its call has taken. -/
theorem Opened.snapshot {id : Id} {i : Nat} (h : Opened tr s j id .peer i) {st : PeerStream}
    {initial : List Id} (hi : s.server.streams[i]? = some st)
    (hhead : st.loaded.head? = some (.ok ⟨initial.map Change.add⟩)) :
    ∃ k, Event.requested j k (.openPeerListener (some id)) ∈ tr ∧
      s.server.Snapshot k initial := by
  obtain ⟨k, hr, hk⟩ := h
  cases hl : st.loaded with
  | nil => simp [hl] at hhead
  | cons item rest =>
    rw [hl, List.head?_cons, Option.some.injEq] at hhead
    exact ⟨k, hr, Or.inr ⟨i, st, rest, hk, hi, by rw [hl, hhead]⟩⟩

/-- A snapshot adds each of its peers once. -/
theorem count_snapshot {initial : List Id} (h : initial.Nodup) {id : Id} (hid : id ∈ initial) :
    (initial.map Change.add).count (.add id) = 1 := by
  rw [List.count_map_of_injective initial _ Change.add_injective]
  exact List.count_eq_one_of_mem h hid

/-- Discovery coverage. Of two clients whose peer listeners are open and whose entries stand,
one is added, exactly once, by the first message of the other's stream. Each client whose
peer listener is open has either taken no message and created no offer, or it has created its
offers, once to each peer of the first message and never to itself, and it has asked for a
resync only if it has taken more messages since. -/
theorem discovery_coverage (hr : (system ι codecs).Run Machine.Free tr s) :
    (∀ (a b : ι) (id id' : Id) (i i' : Nat), a ≠ b → Opened tr s a id .peer i →
      Opened tr s b id' .peer i' → Standing tr a id → Standing tr b id' →
      ∃ (st st' : PeerStream) (m m' : PeerListenerRsp), s.server.streams[i]? = some st ∧
        s.server.streams[i']? = some st' ∧ st.loaded.head? = some (.ok m) ∧
        st'.loaded.head? = some (.ok m') ∧
        (m.peerChanges.count (.add id') = 1 ∨ m'.peerChanges.count (.add id) = 1)) ∧
      ∀ (j : ι) (id : Id) (i : Nat), Opened tr s j id .peer i →
        ∃ (st : PeerStream) (initial : List Id), s.server.streams[i]? = some st ∧
          st.loaded.head? = some (.ok ⟨initial.map Change.add⟩) ∧ initial.Nodup ∧ id ∉ initial ∧
          ((peerMessages j tr = [] ∧ createdOffers j tr = [] ∧
              ∀ k x, Event.requested j k (.peerDiscover x) ∉ tr) ∨
            ∃ rest, peerMessages j tr = initial.map Change.add :: rest ∧
              createdOffers j tr = initial ∧
              (rest = [] → ∀ k x, Event.requested j k (.peerDiscover x) ∉ tr)) := by
  obtain ⟨hcalls, hclients⟩ := clientInv hr
  have hout := Server.handsOut (freeRun hr)
  refine ⟨fun a b id id' i i' hab ho ho' hst hst' => ?_, fun j id i ho => ?_⟩
  · obtain ⟨st, initial, hi, _, hhead, hnodup, _⟩ := ho.hands_out hcalls hout
    obtain ⟨st', initial', hi', _, hhead', hnodup', _⟩ := ho'.hands_out hcalls hout
    obtain ⟨k, hk, hsnap⟩ := ho.snapshot hi hhead
    obtain ⟨k', hk', hsnap'⟩ := ho'.snapshot hi' hhead'
    refine ⟨st, st', _, _, hi, hi', hhead, hhead', ?_⟩
    exact (coverageInv hr a b k k' id id' initial initial' hab hk hk' hst hst' hsnap hsnap').imp
      (count_snapshot hnodup) (count_snapshot hnodup')
  · obtain ⟨st, initial, hi, _, hhead, hnodup, hnot⟩ := ho.hands_out hcalls hout
    refine ⟨st, initial, hi, hhead, hnodup, hnot, ?_⟩
    rcases discoveryInv hr j with h | ⟨p, initial', rest, h⟩
    · exact Or.inl ⟨h.messages, h.offers, h.resyncs⟩
    · refine Or.inr ⟨rest, ?_, ?_, fun hnil => (h.resyncs hnil).1⟩
      all_goals
        obtain ⟨i', st', ho', hi', hhead'⟩ := h.handed
        obtain ⟨_, rfl⟩ := (hclients j).opened_once hcalls ho ho'
        rw [hi, Option.some.injEq] at hi'
        subst hi'
        rw [hhead, Option.some.injEq, Except.ok.injEq, PeerListenerRsp.mk.injEq] at hhead'
      · rw [hhead']
        exact h.messages
      · rw [Change.add_injective.list_map hhead']
        exact h.offers

/-- Two clients advertise before either opens its peer listener; both find the other, and one
of them has created its offer. -/
theorem discovery_coverage_both : ∃ tr s, (system Bool Codecs.unit).Run Machine.Free tr s ∧
    createdOffers true tr = [1] ∧
    ∃ (st st' : PeerStream) (m m' : PeerListenerRsp), s.server.streams[0]? = some st ∧
      s.server.streams[1]? = some st' ∧ st.loaded.head? = some (.ok m) ∧
      st'.loaded.head? = some (.ok m') ∧
      (m.peerChanges.count (.add 1) = 1 ∨ m'.peerChanges.count (.add 0) = 1) := by
  obtain ⟨tr, s, hr, hc⟩ := (system Bool Codecs.unit).exec_reaches Machine.Free
    (List.flatten [[.start true], Action.handling 0 3 [], [.reply true, .start false],
      Action.handling 2 3 [], [.reply false], Action.handling 1 2 [1], Action.handling 3 2 [0],
      [.reply true], Action.handling 4 1 [], [.reply true], Action.handling 5 1 [],
      [.reply true, .server (.pollPeerStream 0), .listen true 0]])
    (fun c => decide (createdOffers true c.2 = [1] ∧
      (Event.requested true 1 (.openPeerListener (some 0)) ∈ c.2 ∧
        c.1.server.calls[1]? =
          some (Call.mk (.openPeerListener (some 0)) (.done (.ok (.openPeerListener 0))))) ∧
      (Event.requested false 3 (.openPeerListener (some 1)) ∈ c.2 ∧
        c.1.server.calls[3]? =
          some (Call.mk (.openPeerListener (some 1)) (.done (.ok (.openPeerListener 1))))) ∧
      Event.requested true 0 .advertise ∈ c.2 ∧ Event.requested false 2 .advertise ∈ c.2 ∧
      serverTrace c.2 = [.allocated 0 0, .inserted 0 0, .broadcast ⟨[.add 0]⟩ true,
        .allocated 2 1, .inserted 2 1, .broadcast ⟨[.add 1]⟩ true, .subscribed 1 0,
        .subscribed 3 1])) (by decide +kernel)
  obtain ⟨hoffers, ⟨hr1, hk1⟩, ⟨hr3, hk3⟩, hr0, hr2, htr⟩ := of_decide_eq_true hc
  have hst : Standing tr true 0 := ⟨0, hr0, [.allocated 0 0], _, htr, by decide⟩
  have hst' : Standing tr false 1 := by
    refine ⟨2, hr2, [.allocated 0 0, .inserted 0 0, .broadcast ⟨[.add 0]⟩ true, .allocated 2 1], _,
      htr, by decide⟩
  exact ⟨tr, s, hr, hoffers, (discovery_coverage hr).1 true false 0 1 0 1 (by decide)
    ⟨1, hr1, _, hk1⟩ ⟨3, hr3, _, hk3⟩ hst hst'⟩

end System

end JustWebrtc.Signalling
