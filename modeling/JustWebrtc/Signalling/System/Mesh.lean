import JustWebrtc.Signalling.System.Faultless

/-!
# Full mesh

Of two peers one has the other in its snapshot and offers to it. An offer that is handled before
its addressee listens is refused and not made again, so the pair is linked only if the addressee
goes on to offer itself: its own snapshot has to list the refused peer. Where it does for every
refused offer, any two peers that have nothing left to do are linked.
-/

namespace JustWebrtc.Signalling

namespace Server

/-- The addressee and the sender of the offer that is handled by this action. -/
def offering (s : Server) (a : Action) : Option (Id × Id) :=
  (a.call.bind fun k => s.calls[k]?).bind fun
    | ⟨.signal .offer (some remoteId) (some sig), .received⟩ => some (remoteId, sig.sender)
    | _ => none

/-- An offer is handled only if its addressee listens, or has no snapshot without the sender. -/
def OffersHeard (s : Server) (a : Action) : Prop :=
  ∀ x ∈ s.offering a, s.Listens .offer x.1 ∨ s.Lists x.1 x.2

instance (s : Server) (a : Action) : Decidable (s.OffersHeard a) :=
  Option.decidableForallMem (s.offering a)

end Server

variable {ι A O C : Type*} [DecidableEq ι]

/-- The future is a listener, and there is nothing left to read for it. -/
def Task.Drained (server : Server) : Task A O C → Prop
  | .peerListener listener =>
    server.Drained listener.source ∧ listener.taken = (server.peerWire listener.source).length
  | .offerListener listener | .answerListener listener =>
    (server.pollChannel listener.source).isNone = true ∧
      listener.taken = (server.signalWire listener.source).length
  | _ => False

instance (server : Server) (task : Task A O C) : Decidable (task.Drained server) :=
  match task with
  | .peerListener _ => inferInstanceAs (Decidable (_ ∧ _ = _))
  | .offerListener _ | .answerListener _ => inferInstanceAs (Decidable (_ = true ∧ _ = _))
  | .createOffer _ | .receiveAnswer _ _ | .localSigCplt _ | .receiveOffer _ _
  | .remoteSigCplt _ => inferInstanceAs (Decidable False)

namespace System

/-- The server hears its offers. -/
def OffersHeard (s : System ι A O C) : Action ι A O C → Prop
  | .server a => s.server.OffersHeard a
  | _ => True

instance (s : System ι A O C) (a : Action ι A O C) : Decidable (s.OffersHeard a) :=
  match a with
  | .server a => inferInstanceAs (Decidable (s.server.OffersHeard a))
  | .start _ | .reply _ | .fail _ _ | .listen _ _ | .lose _ _ _ | .finish _ _ _ | .close _ =>
    inferInstanceAs (Decidable True)

/-- A faultless step that loses no last offer. -/
def Meshes (s : System ι A O C) (a : Action ι A O C) : Prop := s.Faultless a ∧ s.OffersHeard a

instance (s : System ι A O C) (a : Action ι A O C) : Decidable (s.Meshes a) :=
  inferInstanceAs (Decidable (s.Faultless a ∧ s.OffersHeard a))

/-- No signal has found a listener's buffer full. -/
def Roomy (s : System ι A O C) : Prop :=
  ∀ k slot, ¬ s.Returned k (.error (Status.bufferFull slot))

/-- The peer of client `j` has nothing left to do: no request is under way, only its three
listeners are queued, and they have read everything. -/
structure Quiet (s : System ι A O C) (j : ι) (p : Peer A O C) : Prop where
  running : s.clients j = .running p none
  listeners : ∀ kind, p.unorderedFuts.countP (Task.listensTo kind) = 1
  drained : ∀ task ∈ p.unorderedFuts, task.Drained s.server

instance (s : System ι A O C) : Decidable s.Roomy :=
  decidable_of_iff (∀ call ∈ s.server.calls,
      call.phase ≠ .done (.error (Status.bufferFull .offer)) ∧
        call.phase ≠ .done (.error (Status.bufferFull .answer))) <| by
    constructor
    · rintro h k slot ⟨request, hk⟩
      obtain ⟨hoffer, hanswer⟩ := h _ (List.mem_of_getElem? hk)
      cases slot with
      | offer => exact hoffer rfl
      | answer => exact hanswer rfl
    · intro h call hcall
      obtain ⟨k, hk⟩ := List.mem_iff_getElem?.mp hcall
      exact ⟨fun hp => h k .offer ⟨call.request, hp ▸ hk⟩,
        fun hp => h k .answer ⟨call.request, hp ▸ hk⟩⟩

instance (s : System ι A O C) (j : ι) : Decidable (∃ p, Quiet s j p) :=
  match hj : s.clients j with
  | .running p none =>
    decidable_of_iff ((p.unorderedFuts.countP (Task.listensTo .peer) = 1 ∧
        p.unorderedFuts.countP (Task.listensTo (.signal .offer)) = 1 ∧
        p.unorderedFuts.countP (Task.listensTo (.signal .answer)) = 1) ∧
      ∀ task ∈ p.unorderedFuts, task.Drained s.server) <| by
    constructor
    · rintro ⟨⟨hpeer, hoffer, hanswer⟩, hdrained⟩
      refine ⟨p, hj, fun kind => ?_, hdrained⟩
      rcases kind with _ | _ | _
      · exact hpeer
      · exact hoffer
      · exact hanswer
    · rintro ⟨q, hq⟩
      have hrun := hq.running
      rw [hj, Client.running.injEq] at hrun
      rw [hrun.1]
      exact ⟨⟨hq.listeners _, hq.listeners _, hq.listeners _⟩, hq.drained⟩
  | .running _ (some _) | .fresh | .advertising _ | .openingPeerListener _ _
  | .openingOfferListener _ _ _ | .openingAnswerListener _ _ _ _ | .failed _ | .closing _ _
  | .closed _ => isFalse fun ⟨_, hq⟩ => by simpa [hj] using hq.running

/-- Client `i` has run `local_sig_cplt` for the peer `r`, and client `j` has run
`remote_sig_cplt` for the peer `p`. -/
def Linked (tr : List (Event ι A O C)) (i j : ι) (p r : Id) : Prop :=
  Event.called i (.localSigCplt r) ∈ tr ∧ Event.called j (.remoteSigCplt p) ∈ tr

/-- A client has run `local_sig_cplt`. -/
def Event.links : Event ι A O C → Bool
  | .called _ (.localSigCplt _) => true
  | _ => false

omit [DecidableEq ι] in
/-- A link is recorded. -/
theorem Linked.links {tr : List (Event ι A O C)} {i j : ι} {p r : Id} (h : Linked tr i j p r) :
    tr.any Event.links = true := List.any_eq_true.mpr ⟨_, h.1, rfl⟩

variable {codecs : Codecs A O C} {tr evs : List (Event ι A O C)} {s t : System ι A O C}
  {a : Action ι A O C} {i j : ι} {slot : Slot} {p r : Peer A O C}

/-! ## Refused signals -/

/-- A signal that is refused after a step has been refused before, or met a full buffer, or the
step has found its addressee not listening. -/
theorem Moves.refused (hm : Moves codecs s a (t, evs)) (hkept : s.server.Kept)
    (hc : ∀ c ∈ s.server.calls, c.Consistent) (hcalls : CallsInv tr s) {k : Nat} {x : Id}
    {sig : Signal} {status : Status}
    (h : Event.requested j k (.signal slot (some x) (some sig)) ∈ tr ++ evs)
    (hret : t.Returned k (.error status)) :
    Event.requested j k (.signal slot (some x) (some sig)) ∈ tr ∧
      (s.Returned k (.error status) ∨ status = Status.bufferFull slot ∨
        ∃ order, a = .server (.advance k order) ∧
          s.server.calls[k]? = some ⟨.signal slot (some x) (some sig), .received⟩ ∧
          ¬ s.server.Listens slot x) := by
  rcases hm.effect with ⟨b, t', evs', rfl, hb, heq⟩ | ⟨_, _, _, _, heq, _, hreq⟩ |
    ⟨_, _, _, _, _, heq, _, hreq⟩
  · rw [Prod.mk.injEq] at heq
    obtain ⟨rfl, rfl⟩ := heq
    have hold : Event.requested j k (.signal slot (some x) (some sig)) ∈ tr := by simpa using h
    obtain ⟨phase, hk⟩ := hcalls.sent j k _ hold
    refine ⟨hold, ?_⟩
    rcases (Server.step_moves hb).refused hkept hc hk hret with hret | hfull |
      ⟨order, rfl, rfl, hlisten⟩
    · exact Or.inl hret
    · exact Or.inr (Or.inl hfull)
    · exact Or.inr (Or.inr ⟨order, rfl, hk, hlisten⟩)
  · rw [put, Prod.mk.injEq] at heq
    obtain ⟨rfl, rfl⟩ := heq
    exact ⟨(List.mem_append.mp h).resolve_right (hreq j k _), Or.inl hret⟩
  · rw [send, Prod.mk.injEq] at heq
    obtain ⟨rfl, rfl⟩ := heq
    have hret' : s.Returned k (.error status) := (Server.at_receive (by simp)).mp hret
    refine ⟨?_, Or.inl hret'⟩
    rcases List.mem_append.mp h with hold | hnew
    · exact hold
    · rcases List.mem_append.mp hnew with hnew | hnew
      · exact absurd hnew (hreq j k _)
      · rw [List.mem_singleton, Event.requested.injEq] at hnew
        obtain ⟨_, hk⟩ := hret'
        exact absurd (List.getElem?_eq_some_iff.mp hk).1 (by omega)

/-- The sender of a signal listens in both slots. -/
theorem sender_listens (hr : (system ι codecs).Run Faultless tr s)
    (hn : allocations (serverTrace tr) < 2 ^ 64) {k : Nat} {remotePeer : Option Id} {sig : Signal}
    (h : Event.requested j k (.signal slot remotePeer (some sig)) ∈ tr) (slot' : Slot) :
    s.server.Listens slot' sig.sender := by
  obtain ⟨p, hp⟩ := peer_of_event hr h (j := j) (by simp [Event.ofPeer, Request.isSignal])
  have hid := Client.localId_of_peer? hp
  rw [signal_author hr h, Option.some.injEq] at hid
  rw [hid]
  exact listens hr hn hp slot'

/-- Two offers that peers make to each other are not both refused, unless by a full buffer. -/
theorem refused_once (hr : (system ι codecs).Run Faultless tr s)
    (hn : allocations (serverTrace tr) < 2 ^ 64) {k k' : Nat} {sig sig' : Signal}
    {status status' : Status}
    (h : Event.requested i k (.signalOffer (some sig'.sender) (some sig)) ∈ tr)
    (h' : Event.requested j k' (.signalOffer (some sig.sender) (some sig')) ∈ tr)
    (hret : s.Returned k (.error status)) (hret' : s.Returned k' (.error status')) :
    status = Status.bufferFull .offer ∨ status' = Status.bufferFull .offer := by
  refine hr.invariant_while (P := fun tr => allocations (serverTrace tr) < 2 ^ 64) (I := fun tr s =>
    Event.requested i k (.signalOffer (some sig'.sender) (some sig)) ∈ tr →
    Event.requested j k' (.signalOffer (some sig.sender) (some sig')) ∈ tr →
    s.Returned k (.error status) → s.Returned k' (.error status') →
    status = Status.bufferFull .offer ∨ status' = Status.bufferFull .offer)
    serverTrace_allocations_lt (by simp) ?_ hn h h' hret hret'
  intro tr s a t evs hr hlt _ ih _ hs h h' hret hret'
  have hm : Moves codecs s a (t, evs) := step_moves hs
  have hcons := Server.consistent (freeRun hr)
  have hcalls := (clientInv hr).1
  obtain ⟨h, hcase⟩ := hm.refused (kept hr).1 hcons hcalls h hret
  obtain ⟨h', hcase'⟩ := hm.refused (kept hr).1 hcons hcalls h' hret'
  rcases hcase with hret | hfull | ⟨_, _, _, hdeaf⟩
  · rcases hcase' with hret' | hfull | ⟨_, _, _, hdeaf⟩
    · exact ih h h' hret hret'
    · exact Or.inr hfull
    · exact absurd (sender_listens hr hlt h .offer) hdeaf
  · exact Or.inl hfull
  · exact absurd (sender_listens hr hlt h' .offer) hdeaf

/-- A refused offer's sender is in every snapshot of its addressee. -/
theorem refused_listed (hr : (system ι codecs).Run Meshes tr s)
    (hn : allocations (serverTrace tr) < 2 ^ 64) {k : Nat} {x : Id} {sig : Signal}
    {status : Status} (h : Event.requested i k (.signalOffer (some x) (some sig)) ∈ tr)
    (hret : s.Returned k (.error status)) (hroom : status ≠ Status.bufferFull .offer) :
    sig.sender ≠ x ∧ s.server.Lists x sig.sender := by
  refine hr.invariant_while (P := fun tr => allocations (serverTrace tr) < 2 ^ 64) (I := fun tr s =>
    Event.requested i k (.signalOffer (some x) (some sig)) ∈ tr →
    s.Returned k (.error status) → sig.sender ≠ x ∧ s.server.Lists x sig.sender)
    serverTrace_allocations_lt (by simp) ?_ hn h hret
  intro tr s a t evs hr hlt _ ih ha hs h hret
  have hm : Moves codecs s a (t, evs) := step_moves hs
  have hfaultless := hr.mono fun _ _ h => h.1
  obtain ⟨h, hcase⟩ := hm.refused (kept hfaultless).1 (Server.consistent (freeRun hr))
    (clientInv hr).1 h hret
  have hsender := sender_listens hfaultless hlt h .offer
  have hlists : sig.sender ≠ x ∧ s.server.Lists x sig.sender := by
    rcases hcase with hret | hfull | ⟨order, rfl, hk, hdeaf⟩
    · exact ih h hret
    · exact absurd hfull hroom
    · refine ⟨fun he => hdeaf (he ▸ hsender), ?_⟩
      exact (ha.2 (x, sig.sender) (by simp [Server.offering, Server.Action.call, hk])).resolve_left
        hdeaf
  refine ⟨hlists.1, ?_⟩
  rcases hm.server_moves with ⟨hserver, _⟩ | ⟨b, hb, _⟩
  · rw [hserver]
    exact hlists.2
  · exact hb.lists hsender.mem hlists.1 hlists.2

/-- An answer is refused by nothing but a full buffer. -/
theorem answer_heard (hr : (system ι codecs).Run Faultless tr s)
    (hn : allocations (serverTrace tr) < 2 ^ 64) (hcodecs : codecs.Faithful) {k : Nat} {x : Id}
    {sig : Signal} {status : Status}
    (h : Event.requested j k (.signalAnswer (some x) (some sig)) ∈ tr)
    (hret : s.Returned k (.error status)) : status = Status.bufferFull .answer := by
  refine hr.invariant_while (P := fun tr => allocations (serverTrace tr) < 2 ^ 64) (I := fun tr s =>
    Event.requested j k (.signalAnswer (some x) (some sig)) ∈ tr →
    s.Returned k (.error status) → status = Status.bufferFull .answer)
    serverTrace_allocations_lt (by simp) ?_ hn h hret
  intro tr s a t evs hr hlt _ ih _ hs h hret
  have hm : Moves codecs s a (t, evs) := step_moves hs
  obtain ⟨h, hcase⟩ := hm.refused (kept hr).1 (Server.consistent (freeRun hr)) (clientInv hr).1 h
    hret
  rcases hcase with hret | hfull | ⟨_, _, _, hdeaf⟩
  · exact ih h hret
  · exact hfull
  · -- the answer is for an offer of a client that has a peer
    obtain ⟨answerSet, _, hcons⟩ := answer_source hr hcodecs.answer.inverts
      hcodecs.offer.inverts hcodecs.candidates.inverts h
    obtain ⟨task, hcalled, hyield, hremote⟩ := called_of_consumed (honest hr) hcons rfl
    have hslot : task.slot = some .offer := by
      cases task <;> simp_all [Task.yields, Task.slot]
    obtain ⟨q, hq⟩ := received_localId hr hcalled hslot
    obtain ⟨i, _, _, hi, _, _, _, hcons', _⟩ := relayed (honest hr) hlt hcodecs.answer.inverts
      hcodecs.offer.inverts hcodecs.candidates.inverts hq hcalled hslot hremote
    obtain ⟨p, hp⟩ := peer_of_event hr hcons' (j := i) (by simp [Event.ofPeer])
    have hid := Client.localId_of_peer? hp
    rw [hi, Option.some.injEq] at hid
    exact absurd (hid ▸ listens hr hlt hp .answer) hdeaf

/-! ## Quiet peers -/

/-- A quiet peer has completed every callback that its client has called. -/
theorem Quiet.completed (hq : Quiet s j p) (hr : (system ι codecs).Run Faultless tr s)
    {task : Task A O C} (h : Event.called j task ∈ tr) :
    ∃ state, Event.consumed j state ∈ tr ∧ task.yields state = true ∧
      state.remoteId = task.remoteId := by
  refine (queued_or_consumed hr h).resolve_left ?_
  rintro ⟨p', hp, hmem⟩
  rw [hq.running] at hp
  obtain rfl : p = p' := Option.some.inj hp
  have hdrained := hq.drained task hmem
  have hcall := called_isCallback hr h
  cases task <;> simp_all [Task.Drained, Task.isCallback]

/-- A quiet peer sends its signals under its own identifier. -/
theorem Quiet.author {ok : System ι A O C → Action ι A O C → Prop} (hq : Quiet s j p)
    (hr : (system ι codecs).Run ok tr s) {k : Nat} {remotePeer : Option Id} {sig : Signal}
    (h : Event.requested j k (.signal slot remotePeer (some sig)) ∈ tr) :
    sig.sender = p.localId := by
  have hauthor := signal_author hr h
  rw [hq.running] at hauthor
  exact (Option.some.inj hauthor).symm

/-- Every signal of a quiet peer's client has been answered. -/
theorem Quiet.answered (hq : Quiet s j p) (hr : (system ι codecs).Run Faultless tr s) {k : Nat}
    {x : Id} {sig : Signal}
    (h : Event.requested j k (.signal slot (some x) (some sig)) ∈ tr) :
    ∃ result, s.Returned k result ∧
      (result = .ok (.signal .answer) → Event.called j (.remoteSigCplt x) ∈ tr) :=
  (signal_answered hr hq.running h).resolve_left (by simp)

/-- A quiet peer has taken its first message. -/
theorem Quiet.discovered (hq : Quiet s j p) (hr : (system ι codecs).Run Faultless tr s) :
    ∃ initial rest, Discovered tr s j p initial rest := by
  have hpeer : (s.clients j).peer? = some p := by
    rw [hq.running]
    rfl
  rcases discoveryInv hr j with h | ⟨p', initial, rest, h⟩
  · obtain ⟨task, hmem, hlisten⟩ := List.countP_pos_iff.mp
      (Nat.lt_of_lt_of_eq Nat.zero_lt_one (hq.listeners .peer).symm)
    obtain ⟨listener, rfl⟩ : ∃ listener, task = .peerListener listener := by
      cases task <;> simp_all [Task.listensTo, Task.listener]
    have hclient := (clientInv hr).2 j
    rw [hq.running] at hclient
    obtain ⟨st, initial, hi, _, hhead, _⟩ :=
      (hclient.holds.1.listens _ hmem .peer listener rfl).hands_out (clientInv hr).1
        (Server.handsOut (freeRun hr))
    obtain ⟨hdrained, htaken⟩ := hq.drained _ hmem
    rw [(h.peer p hpeer).listener listener hmem, Server.peerWire, hi] at htaken
    have hitems : st.items = [] := List.eq_nil_of_length_eq_zero htaken.symm
    have halive := (kept hr).1.streams st (List.mem_of_getElem? hi)
    cases hres : st.result with
    | none => simp [PeerStream.loaded, hitems, hres] at hhead
    | some rsp => simp [Server.Drained, Server.pollPeerStream, hi, halive, hres] at hdrained
  · have hsame := h.peer
    rw [hpeer, Option.some.injEq] at hsame
    exact ⟨initial, rest, hsame ▸ h⟩

/-- A quiet peer's client has called the callback of every signal that was accepted for it. -/
theorem Quiet.received (hq : Quiet s j p) (hr : (system ι codecs).Run Faultless tr s)
    (hn : allocations (serverTrace tr) < 2 ^ 64) {sig : Signal}
    (h : Accepted tr slot p.localId sig) {task : Task A O C}
    (hrec : codecs.received slot sig = some task) : Event.called j task ∈ tr := by
  have hreads := readsInv hr slot j
  rw [ReadsInv, hq.running] at hreads
  obtain ⟨c, n, hreads⟩ : ∃ c n, Reads codecs slot tr s j p c n := hreads
  obtain ⟨c', sc, hsc, hslot, hpeer, hitem⟩ := h.queued hr hn
  obtain ⟨htab, hdel⟩ := Server.deliveryInv (freeRun hr) hn
  obtain rfl : c = c' := by
    refine htab.one (slot, p.localId) c c' (hreads.opened.key (clientInv hr).1 hdel) ?_
    rw [Server.key, hsc, ← hslot, ← hpeer]
    rfl
  -- the listener has read all that the channel has accepted
  obtain ⟨listening, hmem, hlisten⟩ := List.countP_pos_iff.mp
    (Nat.lt_of_lt_of_eq Nat.zero_lt_one (hq.listeners (.signal slot)).symm)
  obtain ⟨listener, rfl⟩ : ∃ listener, listening = .signalListener slot listener := by
    rw [Task.listensTo, Option.any_eq_true] at hlisten
    obtain ⟨⟨kind, listener⟩, hl, hkind⟩ := hlisten
    obtain rfl := of_decide_eq_true hkind
    exact ⟨listener, Task.eq_signalListener hl⟩
  obtain rfl := hreads.listener listener hmem
  have hdrained : (s.server.pollChannel c).isNone = true ∧
      n = (s.server.signalWire c).length := by
    have hd := hq.drained _ hmem
    cases slot <;> exact hd
  have hwire : s.server.signalWire c = sc.channel.items := by
    have hnone := hdrained.1
    rw [Server.pollChannel, hsc] at hnone
    have hempty := Channel.queue_of_next_none
      (by simpa using hnone) ((kept hr).1.channels sc (List.mem_of_getElem? hsc))
    rw [Server.signalWire, hsc, Channel.items, hempty, List.append_nil]
    rfl
  have hcalled : task ∈ receivedTasks slot j tr := by
    rw [hreads.received, hdrained.2, List.take_length, hwire]
    exact List.mem_filterMap.mpr ⟨_, hitem, hrec⟩
  obtain ⟨e, he, htask⟩ := List.mem_filterMap.mp hcalled
  cases e with
  | called i task' =>
    simp only [Option.ite_none_right_eq_some, Option.some.injEq] at htask
    obtain ⟨⟨rfl, _⟩, rfl⟩ := htask
    exact he
  | _ => simp at htask

/-! ## Links -/

/-- What has been returned for a signal is a success, where it is no error. -/
theorem accepted_of_returned {ok : System ι A O C → Action ι A O C → Prop}
    (hr : (system ι codecs).Run ok tr s) (hn : allocations (serverTrace tr) < 2 ^ 64) {k : Nat}
    {x : Id} {sig : Signal} {rsp : Response}
    (h : Event.requested j k (.signal slot (some x) (some sig)) ∈ tr)
    (hret : s.Returned k (.ok rsp)) : rsp = .signal slot ∧ Accepted tr slot x sig := by
  obtain ⟨request, hk⟩ := hret
  obtain ⟨phase, hk'⟩ := (clientInv hr).1.sent j k _ h
  have hsame := hk.symm.trans hk'
  rw [Option.some.injEq, Call.mk.injEq] at hsame
  obtain ⟨rfl, rfl⟩ := hsame
  have hcons := Server.consistent (freeRun hr) _ (List.mem_of_getElem? hk)
  obtain rfl : rsp = .signal slot := by
    cases rsp <;> simp_all [Call.Consistent]
  have hacc := ((Server.deliveryInv (freeRun hr) hn).2.accepted k).mpr ⟨slot, _, hk⟩
  exact ⟨rfl, j, k, h, mem_acceptances.mp hacc⟩

/-- An accepted offer between two quiet peers has linked them. -/
theorem Quiet.linked (hi : Quiet s i p) (hj : Quiet s j r)
    (hr : (system ι codecs).Run Faultless tr s) (hn : allocations (serverTrace tr) < 2 ^ 64)
    (hcodecs : codecs.Faithful) (hroom : s.Roomy) {k : Nat} {sig : Signal} {rsp : Response}
    (h : Event.requested i k (.signalOffer (some r.localId) (some sig)) ∈ tr)
    (hret : s.Returned k (.ok rsp)) : Linked tr i j p.localId r.localId := by
  have hsender := hi.author hr h
  -- the offer reaches `receive_offer` of the second client
  obtain ⟨state, task, _, _, hrelay, hrec⟩ := requested_source hr hcodecs.answer.inverts
    hcodecs.offer.inverts hcodecs.candidates.inverts h
  have hcalled := hj.received hr hn (accepted_of_returned hr hn h hret).2 hrec
  obtain ⟨state', hcons, hyield, hremote⟩ := hj.completed hr hcalled
  obtain ⟨hslot, hid, _⟩ := Codecs.received_spec hrec
  obtain ⟨answerSet, rfl⟩ : ∃ answerSet, state' = .receiveOffer p.localId answerSet := by
    rw [hid, hsender] at hremote
    cases task <;> cases state' <;>
      simp_all [Task.slot, Task.yields, SignallingState.remoteId]
  -- the answer is accepted, and `remote_sig_cplt` is called
  obtain ⟨slot, k', x, sig', task', h', hx, hrelay', hrec'⟩ :=
    signalled hr hcodecs hcons p.localId rfl
  obtain rfl : p.localId = x := Option.some.inj hx
  obtain rfl : .receiveAnswer sig'.sender answerSet = task' := Option.some.inj hrelay'
  obtain rfl : slot = .answer := Option.some.inj (Codecs.received_spec hrec').1.symm
  have hsender' := hj.author hr h'
  obtain ⟨result, hret', hcplt⟩ := hj.answered hr h'
  cases result with
  | error status =>
    obtain rfl := answer_heard hr hn hcodecs h' hret'
    exact absurd hret' (hroom k' .answer)
  | ok rsp' =>
    obtain ⟨rfl, hacc'⟩ := accepted_of_returned hr hn h' hret'
    -- the answer reaches `receive_answer` of the first client
    obtain ⟨state, hcons', hyield', hremote'⟩ := hi.completed hr (hi.received hr hn hacc' hrec')
    obtain rfl : state = .receiveAnswer r.localId := by
      cases state <;> simp_all [Task.yields, Task.remoteId, SignallingState.remoteId]
    exact ⟨localSigCplt_called hr hcons', hcplt rfl⟩

/-- A quiet peer has signalled an offer to each peer of its first message, and has been
answered. -/
theorem Quiet.offered (hq : Quiet s j p) (hr : (system ι codecs).Run Faultless tr s)
    (hcodecs : codecs.Faithful) {x : Id} (h : Event.called j (.createOffer x) ∈ tr) :
    ∃ k sig result, sig.sender = p.localId ∧ s.Returned k result ∧
      Event.requested j k (.signalOffer (some x) (some sig)) ∈ tr := by
  obtain ⟨state, hcons, hyield, hremote⟩ := hq.completed hr h
  obtain ⟨offerSet, rfl⟩ : ∃ offerSet, state = .createOffer x offerSet := by
    cases state <;> simp_all [Task.yields, Task.remoteId, SignallingState.remoteId]
  obtain ⟨slot, k, y, sig, task, h, hy, hrelay, hrec⟩ :=
    signalled hr hcodecs hcons p.localId rfl
  obtain rfl : x = y := Option.some.inj hy
  obtain rfl : .receiveOffer sig.sender offerSet = task := Option.some.inj hrelay
  obtain rfl : slot = .offer := Option.some.inj (Codecs.received_spec hrec).1.symm
  obtain ⟨result, hret, _⟩ := hq.answered hr h
  exact ⟨k, sig, result, hq.author hr h, hret, h⟩

/-- A client has created an offer for the peers that it has called `create_offer` for. -/
theorem mem_createdOffers {x : Id} :
    x ∈ createdOffers j tr ↔ Event.called j (.createOffer x) ∈ tr := by
  rw [createdOffers, List.mem_filterMap]
  constructor
  · rintro ⟨e, he, hx⟩
    cases e with
    | called i task =>
      simp only [Option.ite_none_right_eq_some] at hx
      obtain ⟨rfl, htask⟩ := hx
      cases task <;> simp_all [Task.offered]
    | _ => simp at hx
  · intro h
    exact ⟨_, h, by simp [Task.offered]⟩

/-- A quiet peer has offered to every peer that all snapshots of its listener list. -/
theorem Quiet.offers (hq : Quiet s j p) (hr : (system ι codecs).Run Faultless tr s) {x : Id}
    (h : s.server.Lists p.localId x) : Event.called j (.createOffer x) ∈ tr := by
  obtain ⟨initial, rest, hdisc⟩ := hq.discovered hr
  obtain ⟨i, st, ho, hi, hhead⟩ := hdisc.handed
  obtain ⟨k, hk, hsnap⟩ := ho.snapshot hi hhead
  obtain ⟨phase, hk⟩ := (clientInv hr).1.sent j k _ hk
  have hmem := h.mem hsnap hk (Server.consistent (freeRun hr)) (Server.handsOut (freeRun hr))
  rw [← hdisc.offers] at hmem
  exact mem_createdOffers.mp hmem

/-- Of two quiet peers, one has offered to the other. -/
theorem Quiet.covers (hi : Quiet s i p) (hj : Quiet s j r)
    (hr : (system ι codecs).Run Faultless tr s) (hn : allocations (serverTrace tr) < 2 ^ 64)
    (hij : i ≠ j) : Event.called i (.createOffer r.localId) ∈ tr ∨
      Event.called j (.createOffer p.localId) ∈ tr := by
  have hstanding {l : ι} {q : Peer A O C} (hq : Quiet s l q) : Standing tr l q.localId :=
    standing hr hn (by rw [hq.running]; rfl)
  obtain ⟨initial, rest, hdisc⟩ := hi.discovered hr
  obtain ⟨initial', rest', hdisc'⟩ := hj.discovered hr
  obtain ⟨n, st, ho, hst, hhead⟩ := hdisc.handed
  obtain ⟨n', st', ho', hst', hhead'⟩ := hdisc'.handed
  obtain ⟨k, hk, hsnap⟩ := ho.snapshot hst hhead
  obtain ⟨k', hk', hsnap'⟩ := ho'.snapshot hst' hhead'
  rw [← mem_createdOffers, ← mem_createdOffers, hdisc.offers, hdisc'.offers]
  exact coverageInv hr i j k k' _ _ _ _ hij hk hk' (hstanding hi) (hstanding hj) hsnap hsnap'

/-- An offer between two quiet peers has linked them, or it has been refused. -/
theorem Quiet.linked_or_refused (hi : Quiet s i p) (hj : Quiet s j r)
    (hr : (system ι codecs).Run Faultless tr s) (hn : allocations (serverTrace tr) < 2 ^ 64)
    (hcodecs : codecs.Faithful) (hroom : s.Roomy)
    (h : Event.called i (.createOffer r.localId) ∈ tr) :
    Linked tr i j p.localId r.localId ∨ ∃ k sig status, sig.sender = p.localId ∧
      Event.requested i k (.signalOffer (some r.localId) (some sig)) ∈ tr ∧
        s.Returned k (.error status) := by
  obtain ⟨k, sig, result, hsender, hret, hk⟩ := hi.offered hr hcodecs h
  cases result with
  | ok rsp => exact Or.inl (hi.linked hj hr hn hcodecs hroom hk hret)
  | error status => exact Or.inr ⟨k, sig, status, hsender, hk, hret⟩

/-- Where offers that find no listener are offered back, an offer between two quiet peers has
linked them one way or the other. -/
theorem Quiet.linked_of_called (hi : Quiet s i p) (hj : Quiet s j r)
    (hr : (system ι codecs).Run Meshes tr s) (hn : allocations (serverTrace tr) < 2 ^ 64)
    (hcodecs : codecs.Faithful) (hroom : s.Roomy)
    (h : Event.called i (.createOffer r.localId) ∈ tr) :
    Linked tr i j p.localId r.localId ∨ Linked tr j i r.localId p.localId := by
  have hfaultless : (system ι codecs).Run Faultless tr s := hr.mono fun _ _ h => h.1
  have hfull {k : Nat} {status : Status} (hret : s.Returned k (.error status)) :
      status ≠ Status.bufferFull .offer := by
    rintro rfl
    exact hroom k .offer hret
  rcases hi.linked_or_refused hj hfaultless hn hcodecs hroom h with hlinked |
    ⟨k, sig, status, hsender, hk, hret⟩
  · exact Or.inl hlinked
  · -- the addressee lists the sender, and offers to it
    obtain ⟨_, hlists⟩ := refused_listed hr hn hk hret (hfull hret)
    rw [hsender] at hlists
    rcases hj.linked_or_refused hi hfaultless hn hcodecs hroom (hj.offers hfaultless hlists) with
      hlinked | ⟨k', sig', status', hsender', hk', hret'⟩
    · exact Or.inr hlinked
    · rw [← hsender'] at hk
      rw [← hsender] at hk'
      rcases refused_once hfaultless hn hk hk' hret hret' with hfull' | hfull'
      · exact absurd hfull' (hfull hret)
      · exact absurd hfull' (hfull hret')

/-- Full mesh. In every run without faults whose offers are heard, or go to a peer whose own
snapshot lists their sender, one of any two quiet peers is linked to the other, unless a buffer
was full. -/
theorem full_mesh [Fintype ι] (hcard : Fintype.card ι < 2 ^ 64) (hcodecs : codecs.Faithful)
    (hr : (system ι codecs).Run Meshes tr s) (hroom : s.Roomy) (hij : i ≠ j)
    (hi : Quiet s i p) (hj : Quiet s j r) :
    Linked tr i j p.localId r.localId ∨ Linked tr j i r.localId p.localId := by
  have hfaultless : (system ι codecs).Run Faultless tr s := hr.mono fun _ _ h => h.1
  have hn : allocations (serverTrace tr) < 2 ^ 64 :=
    lt_of_le_of_lt (allocations_le_card (honest hfaultless)) hcard
  rcases hi.covers hj hfaultless hn hij with h | h
  · exact hi.linked_of_called hj hr hn hcodecs hroom h
  · exact (hj.linked_of_called hi hr hn hcodecs hroom h).symm

/-- The second client offers to the first, and both have read everything. -/
theorem full_mesh_linked : ∃ tr s p r, (system Bool Codecs.unit).Run Meshes tr s ∧
    Quiet s true p ∧ Quiet s false r ∧
    (Linked tr true false p.localId r.localId ∨ Linked tr false true r.localId p.localId) := by
  obtain ⟨tr, s, hr, hc⟩ := (system Bool Codecs.unit).exec_reaches Meshes
    (List.flatten [[.start true], Action.handling 0 3 [], [.reply true], Action.handling 1 2 [],
      [.reply true], Action.handling 2 1 [], [.reply true], Action.handling 3 1 [],
      [.reply true, .start false], Action.handling 4 3 [], [.reply false],
      Action.handling 5 2 [0], [.reply false], Action.handling 6 1 [], [.reply false],
      Action.handling 7 1 [],
      [.reply false, .server (.pollPeerStream 1), .listen false 0,
        .finish false 3 (.ok (.createOffer 0 ((), ())))],
      Action.handling 8 1 [],
      [.reply false, .server (.pollChannel 0), .listen true 1, .server (.pollChannel 0),
        .listen true 1, .finish true 3 (.ok (.receiveOffer 1 ((), ())))],
      Action.handling 9 1 [],
      [.reply true, .server (.pollChannel 3), .listen false 1, .server (.pollChannel 3),
        .listen false 1, .finish false 3 (.ok (.receiveAnswer 0)),
        .finish false 3 (.ok (.localSigCplt 0)), .finish true 3 (.ok (.remoteSigCplt 1)),
        .server (.pollPeerStream 0), .listen true 0, .server (.pollPeerStream 0), .listen true 2,
        .server (.pollChannel 1), .listen true 0, .server (.pollChannel 2), .listen false 0]])
    (fun c => decide (c.1.Roomy ∧ (∃ p, Quiet c.1 true p) ∧ ∃ r, Quiet c.1 false r))
    (by decide +kernel)
  obtain ⟨hroom, ⟨p, hp⟩, r, hq⟩ := of_decide_eq_true hc
  have hcodecs : Codecs.unit.Faithful :=
    ⟨fun _ => ⟨[], rfl, rfl⟩, fun _ => ⟨[], rfl, rfl⟩, fun _ => ⟨[], rfl, rfl⟩⟩
  exact ⟨tr, s, p, r, hr, hp, hq, full_mesh (by decide) hcodecs hr hroom (by decide) hp hq⟩

/-- The first client takes its snapshot, and the second advertises, starts and offers to it
before it opens its offer listener: the offer is refused, and both have read everything. -/
theorem mesh_lost : ∃ tr s p r, (system Bool Codecs.unit).Run Faultless tr s ∧ s.Roomy ∧
    (∀ st ∈ s.server.streams, st.Intact) ∧ Quiet s true p ∧ Quiet s false r ∧
    ¬ (Linked tr true false p.localId r.localId ∨ Linked tr false true r.localId p.localId) := by
  obtain ⟨tr, s, hr, hc⟩ := (system Bool Codecs.unit).exec_reaches Faultless
    (List.flatten [[.start true], Action.handling 0 3 [], [.reply true], Action.handling 1 2 [],
      [.reply true, .start false], Action.handling 3 3 [], [.reply false],
      Action.handling 4 2 [0], [.reply false], Action.handling 5 1 [], [.reply false],
      Action.handling 6 1 [],
      [.reply false, .server (.pollPeerStream 1), .listen false 0,
        .finish false 3 (.ok (.createOffer 0 ((), ())))],
      -- the first client does not listen yet
      Action.handling 7 1 [], [.reply false],
      Action.handling 2 1 [], [.reply true], Action.handling 8 1 [],
      [.reply true, .server (.pollPeerStream 0), .listen true 0, .server (.pollPeerStream 0),
        .listen true 2, .server (.pollChannel 2), .listen true 0, .server (.pollChannel 3),
        .listen true 1, .server (.pollChannel 0), .listen false 0, .server (.pollChannel 1),
        .listen false 1]])
    (fun c => decide (c.1.Roomy ∧ (∀ st ∈ c.1.server.streams, st.Intact) ∧
      (∃ p, Quiet c.1 true p) ∧ (∃ r, Quiet c.1 false r) ∧ c.2.any Event.links = false))
    (by decide +kernel)
  obtain ⟨hroom, hintact, ⟨p, hp⟩, ⟨r, hq⟩, hnone⟩ := of_decide_eq_true hc
  refine ⟨tr, s, p, r, hr, hroom, hintact, hp, hq, ?_⟩
  rintro (h | h)
  · simp [h.links] at hnone
  · simp [h.links] at hnone

end System

end JustWebrtc.Signalling
