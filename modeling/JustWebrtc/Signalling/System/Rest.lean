import JustWebrtc.Signalling.Client.Runs
import JustWebrtc.Signalling.System.Termination

/-!
# The system at rest

A faultless run stops only when there is nothing left to do. No request of `start_peer` is ever
refused, so every client comes to run its peer; no handler waits, so every request is answered;
and while no stream loses a message, a listener goes on for ever. What is left is that every peer
has read everything and awaits nothing.
-/

namespace JustWebrtc.Signalling

variable {ι A O C : Type*} [DecidableEq ι]

/-- `start_peer` has failed, or the peer is being closed. -/
def Client.ended : Client A O C → Bool
  | .failed _ | .closing _ _ | .closed _ => true
  | _ => false

namespace Server

/-- A request of `start_peer` fails because its identifier is taken, because it is not complete, or
because its peer has no entry or listens already. -/
theorem Moves.start_refused {s t : Server} {a : Action} {evs : List Signalling.Event}
    (hm : s.Moves a t evs) (h : s.Kept) {k : Nat} {r : Request} {phase : Phase} {status : Status}
    (hk : s.calls[k]? = some ⟨r, phase⟩) (hstage : r.stage < 5)
    (ht : t.At k (.done (.error status))) :
    s.At k (.done (.error status)) ∨ status = Status.duplicateId ∨ (∀ id, ¬ r.MadeBy id) ∨
      phase = .received ∧ ∃ slot id, r = .openListener slot (some id) ∧
        (id ∉ s.peers ∨ s.Listens slot id) := by
  rcases hm.enters (by simp) ht with ⟨_, hold⟩ | ⟨order, call, rfl, hcall, he⟩
  · exact Or.inl hold
  · refine Or.inr ?_
    rw [hk, Option.some.injEq] at hcall
    subst hcall
    have hno := (h.calls _ (List.mem_of_getElem? hk)).2
    rcases he with hresp | ⟨_, _, _, hstatus⟩ | ⟨_, _, hp, _⟩
    · cases hresp with
      | teardownMissing | discoverMissing | remoteMissing | signalMissing
      | remoteNotAdvertised _ | remoteNotListening _ _ | bufferFull _ _ _ _ =>
        simp [Request.stage] at hstage
      | removeAbsent _ => simp [Phase.departs] at hno
      | peerListenerMissing | listenerMissing =>
        exact Or.inr (Or.inl fun id hmade => by simp [Request.MadeBy] at hmade)
      | listenerNotAdvertised hl =>
        refine Or.inr (Or.inr ⟨rfl, _, _, rfl, Or.inl fun hmem => ?_⟩)
        obtain ⟨peer, hpeer⟩ := Option.isSome_iff_exists.mp (Finmap.lookup_isSome.mpr hmem)
        simp [hl] at hpeer
      | listenerExists hl htx =>
        exact Or.inr (Or.inr ⟨rfl, _, _, rfl, Or.inr (listens_iff.mpr ⟨_, _, hl, htx⟩)⟩)
    · exact Or.inl hstatus
    · simp only at hp
      simp [hp, Phase.departs] at hno

/-- A stream only ever puts more on the wire, and does not become intact again. -/
theorem Moves.wire {s t : Server} {a : Action} {evs : List Signalling.Event}
    (hm : s.Moves a t evs) {i : Nat} {st : PeerStream} (hi : s.streams[i]? = some st) :
    ∃ st', t.streams[i]? = some st' ∧ (st'.Intact → st.Intact) ∧
      st.items.length ≤ st'.items.length := by
  have hset {n : Nat} {old new : PeerStream} (hn : s.streams[n]? = some old)
      (hint : new.Intact → old.Intact) (hle : old.items.length ≤ new.items.length) :
      ∃ st', (s.streams.set n new)[i]? = some st' ∧ (st'.Intact → st.Intact) ∧
        st.items.length ≤ st'.items.length := by
    by_cases hni : n = i
    · subst hni
      obtain rfl := Option.some.inj (hi.symm.trans hn)
      exact ⟨new, List.getElem?_set_self (List.getElem?_eq_some_iff.mp hi).1, hint, hle⟩
    · exact ⟨st, by rw [List.getElem?_set_ne hni, hi], id, le_rfl⟩
  have hmore {st : PeerStream} {item : Except Status PeerListenerRsp}
      {rest : Option PeerListenerRsp} (halive : st.alive = true)
      (h : PeerStream.Intact { st with result := rest, items := st.items ++ [item] }) :
      st.Intact := by
    obtain ⟨_, hok⟩ := h
    simp only [List.all_append, Bool.and_eq_true] at hok
    exact ⟨halive, hok.1⟩
  cases hm with
  | yieldInitial hn halive _ => exact hset hn (hmore halive) (by simp)
  | yieldReceived hn halive _ _ _ => exact hset hn (hmore halive) (by simp)
  | dropPeerStream hn _ => exact hset hn (fun h => by simp [PeerStream.Intact] at h) le_rfl
  | subscribe _ =>
    refine ⟨st, ?_, id, le_rfl⟩
    change (s.streams ++ [_])[i]? = some st
    rw [List.getElem?_append_left (List.getElem?_eq_some_iff.mp hi).1, hi]
  | announce _ | depart _ _ => exact ⟨st, by simpa using hi, id, le_rfl⟩
  | _ => exact ⟨st, hi, id, le_rfl⟩

end Server

namespace Peer

variable {codecs : Codecs A O C} {p : Peer A O C}

/-- An input that breaks no listener keeps them all. -/
theorem Acts.listeners_kept {input : Input A O C} {out : Outcome A O C}
    (h : p.Acts codecs input out) (hbreak : ∀ i task, p.unorderedFuts[i]? = some task →
      task.isCallback = false → ¬ Breaks codecs task i input) (kind : Listener) :
    out.peer.unorderedFuts.countP (Task.listensTo kind) =
      p.unorderedFuts.countP (Task.listensTo kind) := by
  have hcallback {tasks : List (Task A O C)} (h : ∀ task ∈ tasks, task.isCallback = true) :
      tasks.countP (Task.listensTo kind) = 0 := by
    rw [List.countP_eq_zero]
    intro task ht
    simp [Task.listensTo, Task.listener_of_callback (h task ht)]
  have hcalled := hcallback fun task ht => h.called ht
  have hset {i : Nat} {task task' : Task A O C} (hi : p.unorderedFuts[i]? = some task)
      (hre : task.Relistens task') : (p.unorderedFuts.set i task').countP (Task.listensTo kind) =
        p.unorderedFuts.countP (Task.listensTo kind) := by
    rw [(List.set_perm_cons_eraseIdx (List.getElem?_eq_some_iff.mp hi).1 task').countP_eq,
      (futs_perm hi).countP_eq, List.countP_cons, List.countP_cons, stable_listensTo kind _ _ hre]
  cases h with
  | skipOffer _ hi | skipAnswer _ hi => exact hset hi rfl
  | @fail i task _ e _ hi hb =>
    have hcall : task.isCallback = true := by
      by_contra hno
      exact hbreak i task hi (Bool.not_eq_true _ ▸ hno) hb
    rw [(futs_perm hi).countP_eq, List.countP_cons_of_neg]
    simp [Task.listensTo, Task.listener_of_callback hcall]
  | @complete i task _ state hidle hi hc =>
    obtain ⟨_, _, hfuts, _⟩ := step_spec codecs
      { p with unorderedFuts := p.unorderedFuts.eraseIdx i } hidle state
    rw [hfuts, List.countP_append, List.countP_append, hcalled, (futs_perm hi).countP_eq,
      List.countP_cons]
    rcases relisten_of_completes hc with ⟨task', hre, hrel⟩ | ⟨hre, hcall⟩
    · simp [hre, List.countP_cons, stable_listensTo kind _ _ hrel]
    · simp [hre, Task.listensTo, Task.listener_of_callback hcall]
  | resume h =>
    obtain ⟨_, _, hfuts, _⟩ := (resume_resumes h).spec
    rw [hfuts, List.countP_append, hcalled, Nat.add_zero]

/-- A suspended step goes on with whatever the answer to its request is. -/
theorem resume_enabled {id : Id} {request : Request} {result : Except Status Response}
    (h : p.progress.Awaits id request) (hc : Call.Consistent ⟨request, .done result⟩) :
    ∃ out, p.resume result = some out := by
  unfold resume
  cases hprog : p.progress with
  | idle =>
    rw [hprog] at h
    exact h.elim
  | resyncing changes rest =>
    rw [hprog] at h
    obtain rfl : request = .peerDiscover (some id) := h
    rcases result with status | rsp
    · exact ⟨_, rfl⟩
    · cases rsp with
      | peerDiscover remotePeers => exact ⟨_, rfl⟩
      | _ => simp [Call.Consistent] at hc
  | signallingOffer remoteId =>
    rw [hprog] at h
    obtain ⟨signal, rfl, _⟩ := h
    rcases result with status | rsp
    · exact ⟨_, rfl⟩
    · cases rsp with
      | signal slot =>
        obtain rfl : slot = .offer := by simpa [Call.Consistent, eq_comm] using hc
        exact ⟨_, rfl⟩
      | _ => simp [Call.Consistent] at hc
  | signallingAnswer remoteId =>
    rw [hprog] at h
    obtain ⟨signal, rfl, _⟩ := h
    rcases result with status | rsp
    · exact ⟨_, rfl⟩
    · cases rsp with
      | signal slot =>
        obtain rfl : slot = .answer := by simpa [Call.Consistent, eq_comm] using hc
        exact ⟨_, rfl⟩
      | _ => simp [Call.Consistent] at hc

end Peer

namespace System

variable {codecs : Codecs A O C} {tr evs : List (Event ι A O C)} {s t : System ι A O C}
  {a : Action ι A O C} {j : ι} {p : Peer A O C}

/-! ## Every client comes to run its peer -/

/-- Only its own client opens the listeners of a peer. -/
theorem listens_opened (hr : (system ι codecs).Run Faultless tr s)
    (hn : allocations (serverTrace tr) < 2 ^ 64) {slot : Slot} {id : Id}
    (hj : (s.clients j).localId = some id) (h : s.server.Listens slot id) :
    ∃ k c, Event.requested j k (.openListener slot (some id)) ∈ tr ∧
      s.Returned k (.ok (.openListener slot c)) := by
  obtain ⟨peer, c, hpeer, htx⟩ := Server.listens_iff.mp h
  have hkey := (Server.deliveryInv (freeRun hr) hn).1.link id peer slot c hpeer htx
  obtain ⟨k, hk⟩ := (Server.channelsInv (freeRun hr)).handed c slot id hkey
  obtain ⟨i, hi⟩ := authors (honest hr) k _ hk
  obtain ⟨id', hid', hmade⟩ := (((clientInv hr).2 i).authored k _ hi).resolve_left (by simp)
  obtain rfl : i = j := localId_unique hr hn (by rw [hid', show some id = some id' from hmade]) hj
  exact ⟨k, c, hi, _, hk⟩

/-- No request of `start_peer` is refused. -/
theorem start_heard (hr : (system ι codecs).Run Faultless tr s)
    (hn : allocations (serverTrace tr) < 2 ^ 64) {k : Nat} {r : Request}
    (h : Event.requested j k r ∈ tr) (hstage : r.stage < 5) {status : Status} :
    ¬ s.Returned k (.error status) := by
  refine hr.invariant_while (P := fun tr => allocations (serverTrace tr) < 2 ^ 64) (I := fun tr s =>
    Event.requested j k r ∈ tr → ¬ s.Returned k (.error status)) serverTrace_allocations_lt
    (by simp) ?_ hn h
  intro tr s a t evs hr hlt hlt' ih ha hs h hret
  have hm : Moves codecs s a (t, evs) := step_moves hs
  obtain ⟨hcalls, hclients⟩ := clientInv hr
  rcases hm.effect with ⟨b, t', evs', rfl, hb, heq⟩ | ⟨_, _, _, _, heq, _, hreq⟩ |
    ⟨_, _, _, _, _, heq, _, hreq⟩
  · rw [Prod.mk.injEq] at heq
    obtain ⟨rfl, rfl⟩ := heq
    have hold : Event.requested j k r ∈ tr := by simpa using h
    obtain ⟨phase, hk⟩ := hcalls.sent j k r hold
    rcases (Server.step_moves hb).start_refused (kept hr).1 hk hstage hret with hret | rfl | hno |
      ⟨rfl, slot, id, rfl, hdeaf⟩
    · exact ih hold hret
    · exact (Server.identityInv (freeRun (hr.step ha hs)) hlt').fresh k hret
    · rcases (hclients j).authored k r hold with rfl | ⟨id, _, hmade⟩
      · exact hno 0 trivial
      · exact hno id hmade
    · -- the listener is opened in the name of an entry that stands, and for the first time
      obtain ⟨id', hid, hmade⟩ := ((hclients j).authored k _ hold).resolve_left (by simp)
      obtain rfl : id = id' := Option.some.inj hmade
      rcases hdeaf with hgone | hlisten
      · obtain ⟨n, _, hst⟩ := standing hr hlt hid
        exact hgone ((Server.entriesInv (freeRun hr)).standing n _ hst)
      · obtain ⟨k', c, hk', request, hdone⟩ := listens_opened hr hlt hid hlisten
        obtain rfl := (hclients j).once k k' _ _ hold hk' rfl hstage
        rw [hk, Option.some.injEq, Call.mk.injEq] at hdone
        simp at hdone
  · rw [put, Prod.mk.injEq] at heq
    obtain ⟨rfl, rfl⟩ := heq
    exact ih ((List.mem_append.mp h).resolve_right (hreq j k r)) hret
  · rw [send, Prod.mk.injEq] at heq
    obtain ⟨rfl, rfl⟩ := heq
    have hret' : s.Returned k (.error status) := (Server.at_receive (by simp)).mp hret
    refine ih ?_ hret'
    rcases List.mem_append.mp h with hold | hnew
    · exact hold
    · rcases List.mem_append.mp hnew with hnew | hnew
      · exact absurd hnew (hreq j k r)
      · rw [List.mem_singleton, Event.requested.injEq] at hnew
        obtain ⟨_, hk⟩ := hret'
        exact absurd (List.getElem?_eq_some_iff.mp hk).1 (by omega)

/-- A client that is starting awaits the answer to a request of `start_peer`. -/
theorem starting_request {ok : System ι A O C → Action ι A O C → Prop}
    (hr : (system ι codecs).Run ok tr s) (hst : (s.clients j).starting = true) {k : Nat}
    (hk : (s.clients j).call = some k) : ∃ r, Event.requested j k r ∈ tr ∧ r.stage < 5 := by
  obtain ⟨r, hreq, hawaits⟩ := ((clientInv hr).2 j).awaits k hk
  refine ⟨r, hreq, ?_⟩
  cases hc : s.clients j <;> simp [hc, Client.starting] at hst <;>
    rw [hc] at hawaits <;> simp only [Client.Awaits] at hawaits <;>
    simp [hawaits, Request.stage]

/-- No client fails or closes in a faultless run. -/
theorem never_ended (hr : (system ι codecs).Run Faultless tr s)
    (hn : allocations (serverTrace tr) < 2 ^ 64) (j : ι) : (s.clients j).ended = false := by
  refine hr.invariant_while (P := fun tr => allocations (serverTrace tr) < 2 ^ 64)
    (I := fun _ s => (s.clients j).ended = false) serverTrace_allocations_lt rfl ?_ hn
  intro tr s a t evs hr hlt _ ih ha hs
  have hm : Moves codecs s a (t, evs) := step_moves hs
  by_cases hown : a.client = some j
  · generalize hout : (t, evs) = out at hm
    cases hm with
    | server _ => simp [Action.client] at hown
    | @start j' _ | @advertised j' _ _ _ _ | @peerListener j' _ _ _ _ _
    | @offerListener j' _ _ _ _ _ _ =>
      obtain rfl : j' = j := Option.some.inj hown
      rw [send, Prod.mk.injEq] at hout
      rw [hout.1]
      simp [Client.ended]
    | @answerListener j' _ _ _ _ _ _ _ =>
      obtain rfl : j' = j := Option.some.inj hown
      rw [put, Prod.mk.injEq] at hout
      rw [hout.1]
      simp [Client.ended]
    | @giveUp j' k status _ hst hk hab =>
      rcases hab with rfl | ⟨rfl, hret⟩
      · simp [Faultless, Action.faulty] at ha
      · obtain ⟨r, hreq, hstage⟩ := starting_request hr hst hk
        exact absurd hret (start_heard hr hlt hreq hstage)
    | close _ => simp [Faultless, Action.faulty] at ha
    | @closed j' q k _ response hj hab =>
      obtain rfl : j' = j := by
        rcases hab with rfl | rfl <;> exact Option.some.inj hown
      simp [hj, Client.ended] at ih
    | @act j' q call _ input o _ hh _ =>
      obtain rfl : j' = j := by
        rw [hh.client] at hown
        exact Option.some.inj hown
      rw [show t = (s.apply j' o).1 from congrArg Prod.fst hout, clients_apply]
      rfl
  · rw [(hm.others hown).1]
    exact ih

/-! ## Every listener goes on -/

/-- What is on the wire of a stream stays there. -/
theorem Moves.peerWire_le (hm : Moves codecs s a (t, evs)) (i : Nat) :
    (s.server.peerWire i).length ≤ (t.server.peerWire i).length := by
  rcases hm.server_moves with ⟨hserver, _⟩ | ⟨b, hb, _⟩
  · rw [hserver]
  · unfold Server.peerWire
    cases hi : s.server.streams[i]? with
    | none => exact Nat.zero_le _
    | some st =>
      obtain ⟨st', hi', _, hle⟩ := hb.wire hi
      rw [hi']
      exact hle

/-- A peer listener has taken no more than is on the wire. -/
theorem taken_le {ok : System ι A O C → Action ι A O C → Prop}
    (hr : (system ι codecs).Run ok tr s) (hp : (s.clients j).peer? = some p) {listener : Streaming}
    (hl : Task.peerListener listener ∈ p.unorderedFuts) :
    listener.taken ≤ (s.server.peerWire listener.source).length := by
  refine hr.invariant (I := fun _ s => ∀ p ∈ (s.clients j).peer?, ∀ listener,
    Task.peerListener listener ∈ p.unorderedFuts →
      listener.taken ≤ (s.server.peerWire listener.source).length)
    (by simp [system, Client.peer?]) ?_ p hp listener hl
  intro tr s a t evs hr ih _ hs q hq listener hl
  have hm : Moves codecs s a (t, evs) := step_moves hs
  have hgrow := hm.peerWire_le listener.source
  rcases hm.peer_cases j with ⟨p, call, input, o, hj, hh, hacts, heq⟩ | ⟨_, hp⟩
  · rw [Prod.mk.injEq] at heq
    rw [hj] at ih
    rw [heq.1, clients_apply] at hq
    obtain rfl : o.peer = q := Option.some.inj hq
    have hold (hmem : Task.peerListener listener ∈ p.unorderedFuts) :
        listener.taken ≤ (t.server.peerWire listener.source).length :=
      (ih p rfl listener hmem).trans hgrow
    have hqueued {q : Peer A O C} {changes rest : List PeerChange}
        (hl : Task.peerListener listener ∈ (q.synchronise changes rest).peer.unorderedFuts) :
        Task.peerListener listener ∈ q.unorderedFuts := by
      obtain ⟨_, _, hfuts⟩ := q.synchronise_spec changes rest
      rw [hfuts, List.mem_append] at hl
      exact hl.resolve_right (q.synchronise_listener changes rest listener)
    rcases hacts.discovery with ⟨i, l, message, rfl, hi, _, rfl⟩ | ⟨_, _, _, rfl, _, rfl⟩ | hu
    · rcases List.mem_append.mp (hqueued hl) with hmem | hmem
      · exact hold ((List.eraseIdx_sublist _ _).subset hmem)
      · obtain rfl : listener = l.message := by simpa using hmem
        exact (List.getElem?_eq_some_iff.mp (hh.peer_message hi)).1.trans_le hgrow
    · have hmem := hqueued hl
      exact hold hmem
    · exact hold (hu.listener listener hl)
  · rcases hp with hp | ⟨_, _, _, _, _, hp⟩
    · exact (ih q (hp ▸ hq) listener hl).trans hgrow
    · rw [hp] at hq
      obtain rfl := Option.some.inj hq
      obtain rfl : listener = ⟨_, 0⟩ := by simpa [Peer.new] using hl
      exact Nat.zero_le _

section

variable (hr : (system ι codecs).Run Faultless tr s) (hn : allocations (serverTrace tr) < 2 ^ 64)
  (hanswer : codecs.answer.Inverts) (hoffer : codecs.offer.Inverts)
  (hcandidates : codecs.candidates.Inverts)

include hr hn hanswer hoffer hcandidates

/-- What is on the wire of a signal listener deserializes. -/
theorem wire_received {slot : Slot} {listener : Streaming} {n : Nat} {sig : Signal}
    (hp : (s.clients j).peer? = some p)
    (hl : (.signalListener slot listener : Task A O C) ∈ p.unorderedFuts)
    (h : (s.server.signalWire listener.source)[n]? = some ⟨some sig⟩) :
    ∃ task, codecs.received slot sig = some task := by
  have hreads := readsInv hr slot j
  rw [ReadsInv, hp] at hreads
  obtain ⟨c, m, hreads⟩ := hreads
  obtain rfl := hreads.listener listener hl
  obtain ⟨_, hdel⟩ := Server.deliveryInv (freeRun hr) hn
  have hkey := hreads.opened.key (clientInv hr).1 hdel
  simp only [Server.key, Option.map_eq_some_iff, Prod.mk.injEq] at hkey
  obtain ⟨sc, hsc, rfl, hpeer⟩ := hkey
  have hitem : (⟨some sig⟩ : SignalListenerRsp) ∈ sc.channel.items := by
    rw [Server.signalWire, hsc] at h
    exact List.mem_append_left _ (List.mem_of_getElem? h)
  rw [hdel.items c sc hsc, hpeer, List.mem_cons] at hitem
  obtain ⟨sig', hsig, hsame⟩ := List.mem_map.mp (hitem.resolve_left (by simp))
  obtain rfl : sig' = sig := by simpa using hsame
  obtain ⟨k, _, hk⟩ := List.mem_filterMap.mp hsig
  obtain ⟨i, hreq⟩ := carried (honest hr) hk
  obtain ⟨_, task, _, _, _, hrec⟩ := requested_source hr hanswer hoffer hcandidates hreq
  exact ⟨task, hrec⟩

/-- Without faults nothing breaks a listener but the error of a stream. -/
theorem Hears.unbroken {call : Option Nat} {input : Input A O C}
    (hj : s.clients j = .running p call) (hh : Hears s j p call a input) (ha : a.faulty = false)
    (hint : ∀ st ∈ s.server.streams, st.Intact) {i : Nat} {task : Task A O C}
    (hi : p.unorderedFuts[i]? = some task) (hcall : task.isCallback = false) :
    ¬ Breaks codecs task i input := by
  have hp : (s.clients j).peer? = some p := by
    rw [hj]
    rfl
  intro hb
  cases hb with
  | callback hyes => simp [hyes] at hcall
  | @peerListener _ listener message hno =>
    generalize hinput : Input.peerMessage i message = input at hh
    cases hh with
    | @peerMessage i' listener' item hi' hitem =>
      obtain ⟨rfl, rfl⟩ := Input.peerMessage.inj hinput
      cases item with
      | ok m => exact hno m rfl
      | error status =>
        unfold Server.peerWire at hitem
        cases hst : s.server.streams[listener'.source]? with
        | none => simp [hst] at hitem
        | some st =>
          rw [hst] at hitem
          have hok := List.all_eq_true.mp (hint st (List.mem_of_getElem? hst)).2 _
            (List.mem_of_getElem? hitem)
          simp [Except.isOk, Except.toBool] at hok
    | peerLost _ => simp [Action.faulty] at ha
    | _ => simp at hinput
  | @offerListener _ listener message hno | @answerListener _ listener message hno =>
    generalize hinput : Input.signalMessage i message = input at hh
    cases hh with
    | offerMessage _ _ | answerMessage _ _ =>
      obtain ⟨rfl, rfl⟩ := Input.signalMessage.inj hinput
      exact hno _ rfl
    | signalLost _ => simp [Action.faulty] at ha
    | _ => simp at hinput
  | @offerMalformed _ listener signal hset =>
    have hi : p.unorderedFuts[i]? = some (.signalListener .offer listener) := hi
    obtain ⟨task, hrec⟩ := wire_received hr hn hanswer hoffer hcandidates hp
      (List.mem_of_getElem? hi) (hh.signal_message hi)
    simp [Codecs.received, hset] at hrec
  | @answerMalformed _ listener signal hset =>
    have hi : p.unorderedFuts[i]? = some (.signalListener .answer listener) := hi
    obtain ⟨task, hrec⟩ := wire_received hr hn hanswer hoffer hcandidates hp
      (List.mem_of_getElem? hi) (hh.signal_message hi)
    simp [Codecs.received, hset] at hrec

/-- While no stream loses a message, every peer has its three listeners. -/
theorem listeners_single (hint : ∀ st ∈ s.server.streams, st.Intact)
    (hp : (s.clients j).peer? = some p) (kind : Listener) :
    p.unorderedFuts.countP (Task.listensTo kind) = 1 := by
  refine hr.invariant_while (P := fun tr => allocations (serverTrace tr) < 2 ^ 64)
    (I := fun _ s => (∀ st ∈ s.server.streams, st.Intact) → ∀ p ∈ (s.clients j).peer?,
      p.unorderedFuts.countP (Task.listensTo kind) = 1) serverTrace_allocations_lt
    (by simp [system, Client.peer?]) ?_ hn hint p hp
  intro tr s a t evs hr hlt _ ih ha hs hint q hq
  have hm : Moves codecs s a (t, evs) := step_moves hs
  have hbefore : ∀ st ∈ s.server.streams, st.Intact := by
    intro st hst
    rcases hm.server_moves with ⟨hserver, _⟩ | ⟨b, hb, _⟩
    · exact hint st (hserver ▸ hst)
    · obtain ⟨i, hi⟩ := List.mem_iff_getElem?.mp hst
      obtain ⟨st', hi', hold, _⟩ := hb.wire hi
      exact hold (hint st' (List.mem_of_getElem? hi'))
  rcases hm.peer_cases j with ⟨p, call, input, o, hj, hh, hacts, heq⟩ | ⟨_, hp⟩
  · rw [Prod.mk.injEq] at heq
    have hold := ih hbefore p (by rw [hj]; rfl)
    rw [heq.1, clients_apply] at hq
    obtain rfl : o.peer = q := Option.some.inj hq
    rw [hacts.listeners_kept fun i task hi hcall =>
      hh.unbroken hr hlt hanswer hoffer hcandidates hj ha.2 hbefore hi hcall, hold]
  · rcases hp with hp | ⟨_, _, _, _, _, hp⟩
    · exact ih hbefore q (hp ▸ hq)
    · rw [hp] at hq
      obtain rfl := Option.some.inj hq
      rcases kind with _ | _ | _ <;> rfl

end

/-! ## Nobody waits for ever -/

/-- A call draws one identifier. -/
theorem allocated_unique {tr : List Signalling.Event} {s : Server}
    {ok : Server → Server.Action → Prop} (hr : Signalling.server.Run ok tr s) {k : Nat} {x y : Id}
    (hx : .allocated k x ∈ tr) (hy : .allocated k y ∈ tr) : x = y := by
  have hone := List.nodup_iff_count_le_one.mp (Server.allocated_once hr).1 k
  rw [List.count_eq_countP, List.countP_filterMap] at hone
  have hsame := eq_of_countP_le_one hone hx hy (by simp [Event.allocatedCall])
    (by simp [Event.allocatedCall])
  exact (Signalling.Event.allocated.inj hsame).2

/-- An answered client goes on. -/
theorem answer_enabled (hr : (system ι codecs).Run Faultless tr s)
    (hn : allocations (serverTrace tr) < 2 ^ 64) {k : Nat} {result : Except Status Response}
    (hk : (s.clients j).call = some k) (hret : s.Returned k result) :
    ∃ out, s.answer codecs j result = some out := by
  obtain ⟨hcalls, hclients⟩ := clientInv hr
  obtain ⟨r, hreq, hawaits⟩ := (hclients j).awaits k hk
  obtain ⟨phase, hcall⟩ := hcalls.sent j k r hreq
  obtain ⟨request, hdone⟩ := hret
  have hsame := hdone.symm.trans hcall
  rw [Option.some.injEq, Call.mk.injEq] at hsame
  obtain ⟨rfl, rfl⟩ := hsame
  have hcons := Server.consistent (freeRun hr) _ (List.mem_of_getElem? hdone)
  unfold answer
  cases hc : s.clients j with
  | fresh | failed _ | closed _ => simp [hc, Client.call] at hk
  | advertising k' =>
    rcases result with status | rsp
    · exact ⟨_, rfl⟩
    · rw [hc] at hawaits
      obtain rfl : request = .advertise := hawaits
      cases rsp with
      | advertise id =>
        obtain ⟨x, rfl, _⟩ := (Server.identityInv (freeRun hr) hn).returned k id ⟨_, hdone⟩
        exact ⟨_, rfl⟩
      | _ => simp [Call.Consistent] at hcons
  | openingPeerListener id k' =>
    rcases result with status | rsp
    · exact ⟨_, rfl⟩
    · rw [hc] at hawaits
      obtain rfl : request = .openPeerListener (some id) := hawaits
      cases rsp with
      | openPeerListener i => exact ⟨_, rfl⟩
      | _ => simp [Call.Consistent] at hcons
  | openingOfferListener id i k' =>
    rcases result with status | rsp
    · exact ⟨_, rfl⟩
    · rw [hc] at hawaits
      obtain rfl : request = .openOfferListener (some id) := hawaits
      cases rsp with
      | openListener slot c =>
        obtain rfl : slot = .offer := by simpa [Call.Consistent, eq_comm] using hcons
        exact ⟨_, rfl⟩
      | _ => simp [Call.Consistent] at hcons
  | openingAnswerListener id i c k' =>
    rcases result with status | rsp
    · exact ⟨_, rfl⟩
    · rw [hc] at hawaits
      obtain rfl : request = .openAnswerListener (some id) := hawaits
      cases rsp with
      | openListener slot c =>
        obtain rfl : slot = .answer := by simpa [Call.Consistent, eq_comm] using hcons
        exact ⟨_, rfl⟩
      | _ => simp [Call.Consistent] at hcons
  | running p call =>
    rw [hc] at hawaits
    obtain ⟨out, hout⟩ := Peer.resume_enabled hawaits hcons
    exact ⟨s.apply j out, by simp [input, hc, Peer.act, hout]⟩
  | closing p k' =>
    have hended := never_ended hr hn j
    simp [hc, Client.ended] at hended

section

variable (hr : (system ι codecs).Run Faultless tr s) (hn : allocations (serverTrace tr) < 2 ^ 64)
  (hstuck : (system ι codecs).Stuck Meshes s)

include hstuck in
/-- At rest no step of a client is enabled. -/
theorem rest_step (hserver : ∀ b, a ≠ .server b) (hfinish : a.finished = none)
    (ha : a.faulty = false) : s.step codecs a = none := by
  refine hstuck a ⟨⟨⟨?_, by simp [hfinish]⟩, ha⟩, ?_⟩
  · cases a with
    | server b => exact absurd rfl (hserver b)
    | _ => rfl
  · cases a with
    | server b => exact absurd rfl (hserver b)
    | _ => exact trivial

include hr hn hstuck

/-- At rest a handler has returned, or it handles an offer to a peer that does not listen. -/
theorem rest_calls {k : Nat} {call : Call} (hk : s.server.calls[k]? = some call) :
    (∃ result, call.phase = .done result) ∨ ∃ x sig,
      call = ⟨.signalOffer (some x) (some sig), .received⟩ ∧ ¬ s.server.Listens .offer x := by
  by_cases hdone : ∃ result, call.phase = .done result
  · exact Or.inl hdone
  · obtain ⟨order, out, hs⟩ := Server.advance_enabled (Server.deliveryInv (freeRun hr) hn).1 hk
      fun result hp => hdone ⟨result, hp⟩
    have hdeaf : ¬ s.server.OffersHeard (.advance k order) := by
      intro hheard
      have hnone := hstuck (.server (.advance k order))
        ⟨⟨⟨rfl, by simp [Action.finished]⟩, rfl⟩, hheard⟩
      simp [system, step, hs] at hnone
    simp only [Server.OffersHeard, not_forall, not_or] at hdeaf
    obtain ⟨⟨x, sender⟩, hx, hdeaf, _⟩ := hdeaf
    simp only [Server.offering, Server.Action.call, Option.bind_some, hk, Option.mem_def] at hx
    refine Or.inr ?_
    split at hx
    · rename_i x' sig
      obtain ⟨rfl, rfl⟩ : x' = x ∧ sig.sender = sender := by simpa using hx
      exact ⟨x', sig, rfl, hdeaf⟩
    · simp at hx

/-- At rest no answer waits for its client. -/
theorem rest_unanswered {k : Nat} (hk : (s.clients j).call = some k)
    {result : Except Status Response} : ¬ s.Returned k result := by
  intro hret
  obtain ⟨out, hout⟩ := answer_enabled hr hn hk hret
  have hnone := rest_step hstuck (a := .reply j) (by simp) rfl rfl
  obtain ⟨request, hcall⟩ := hret
  simp [step, hk, hcall, hout] at hnone

/-- At rest every client runs its peer. -/
theorem rest_running (j : ι) : ∃ p call, s.clients j = .running p call := by
  have hstarting {k : Nat} (hst : (s.clients j).starting = true)
      (hk : (s.clients j).call = some k) : False := by
    obtain ⟨r, hreq, hstage⟩ := starting_request hr hst hk
    obtain ⟨phase, hcall⟩ := (clientInv hr).1.sent j k r hreq
    rcases rest_calls hr hn hstuck hcall with ⟨result, rfl⟩ | ⟨x, sig, hoffer, _⟩
    · exact rest_unanswered hr hn hstuck hk ⟨r, hcall⟩
    · rw [(Call.mk.inj hoffer).1] at hstage
      simp [Request.stage] at hstage
  have hended := never_ended hr hn j
  cases hc : s.clients j with
  | fresh =>
    have hnone := rest_step hstuck (a := .start j) (by simp) rfl rfl
    simp [step, hc] at hnone
  | advertising k | openingPeerListener _ k | openingOfferListener _ _ k
  | openingAnswerListener _ _ _ k =>
    exact (hstarting (k := k) (by rw [hc]; rfl) (by rw [hc]; rfl)).elim
  | running p call => exact ⟨p, call, rfl⟩
  | failed _ | closing _ _ | closed _ => simp [hc, Client.ended] at hended

/-- At rest whoever has been inserted is the peer of a client. -/
theorem rest_inserted {n : Nat} {x : Id} (h : .inserted n x ∈ serverTrace tr) :
    ∃ j p call, s.clients j = .running p call ∧ p.localId = x := by
  have hserver := freeRun hr
  have hid := Server.identityInv hserver hn
  have halloc := hid.inserted n x h
  obtain ⟨phase, hcall, _⟩ := (Server.allocated_once hserver).2 n
    (List.mem_filterMap.mpr ⟨_, halloc, rfl⟩)
  obtain ⟨j, hj⟩ := authors (honest hr) n _ hcall
  obtain ⟨p, call, hrun⟩ := rest_running hr hn hstuck j
  have hlocal : (s.clients j).localId = some p.localId := by
    rw [hrun]
    rfl
  -- the client has advertised once, and was given the identifier that was inserted
  obtain ⟨n', hn', hret⟩ := ((clientInv hr).2 j).source _ hlocal
  obtain rfl := ((clientInv hr).2 j).once n n' _ _ hj hn' rfl (by simp [Request.stage])
  obtain ⟨y, hy, hins⟩ := hid.returned n _ hret
  obtain rfl : p.localId = y := Option.some.inj hy
  exact ⟨j, p, call, hrun, allocated_unique hserver (hid.inserted n _ hins) halloc⟩

section

variable (hanswer : codecs.answer.Inverts) (hoffer : codecs.offer.Inverts)
  (hcandidates : codecs.candidates.Inverts)

include hanswer hoffer hcandidates

/-- At rest every peer that is offered to listens. -/
theorem rest_listens {i : ι} {k : Nat} {x : Id} {sig : Signal}
    (h : Event.requested i k (.signalOffer (some x) (some sig)) ∈ tr) :
    s.server.Listens .offer x := by
  obtain ⟨n, hins⟩ := createOffer_inserted hr hn
    (offer_called (honest hr) hanswer hoffer hcandidates h)
  obtain ⟨j, p, call, hrun, rfl⟩ := rest_inserted hr hn hstuck hins
  exact listens hr hn (by rw [hrun]; rfl) .offer

/-- At rest every handler has returned. -/
theorem rest_returned {k : Nat} {call : Call} (hk : s.server.calls[k]? = some call) :
    ∃ result, call.phase = .done result := by
  rcases rest_calls hr hn hstuck hk with hdone | ⟨x, sig, rfl, hdeaf⟩
  · exact hdone
  · obtain ⟨i, hi⟩ := authors (honest hr) k _ hk
    exact absurd (rest_listens hr hn hstuck hanswer hoffer hcandidates hi) hdeaf

/-- At rest every client runs its peer and awaits nothing. -/
theorem rest_idle (j : ι) : ∃ p, s.clients j = .running p none ∧ p.progress = .idle := by
  obtain ⟨p, call, hrun⟩ := rest_running hr hn hstuck j
  obtain ⟨hcalls, hclients⟩ := clientInv hr
  cases call with
  | none =>
    have hclient := hclients j
    rw [hrun] at hclient
    exact ⟨p, hrun, hclient.holds.2 rfl⟩
  | some k =>
    have hk : (s.clients j).call = some k := by
      rw [hrun]
      rfl
    obtain ⟨r, hreq, _⟩ := (hclients j).awaits k hk
    obtain ⟨phase, hcall⟩ := hcalls.sent j k r hreq
    obtain ⟨result, rfl⟩ := rest_returned hr hn hstuck hanswer hoffer hcandidates hcall
    exact absurd ⟨r, hcall⟩ (rest_unanswered hr hn hstuck hk)

end

end

/-- A callback that is called for a remote peer can succeed. -/
theorem exists_yields [Nonempty A] [Nonempty O] [Nonempty C] {task : Task A O C}
    (h : task.isCallback = true) :
    ∃ state, task.yields state = true ∧ state.remoteId = task.remoteId := by
  obtain ⟨answer⟩ := ‹Nonempty A›
  obtain ⟨offer⟩ := ‹Nonempty O›
  obtain ⟨candidates⟩ := ‹Nonempty C›
  cases task with
  | peerListener _ | offerListener _ | answerListener _ => simp [Task.isCallback] at h
  | createOffer x => exact ⟨.createOffer x (offer, candidates), rfl, rfl⟩
  | receiveAnswer x _ => exact ⟨.receiveAnswer x, rfl, rfl⟩
  | localSigCplt x => exact ⟨.localSigCplt x, rfl, rfl⟩
  | receiveOffer x _ => exact ⟨.receiveOffer x (answer, candidates), rfl, rfl⟩
  | remoteSigCplt x => exact ⟨.remoteSigCplt x, rfl, rfl⟩

omit [DecidableEq ι] in
/-- An idle peer takes the next message of any of its listeners. -/
theorem nextMessage_enabled (hidle : p.progress = .idle) {i : Nat} {message : Input A O C}
    (h : s.nextMessage p i = some message) : ∃ out, p.act codecs message = some out := by
  unfold nextMessage at h
  split at h
  · rename_i listener hi
    obtain ⟨item, _, rfl⟩ := Option.map_eq_some_iff.mp h
    exact ⟨_, by simp only [Peer.act, hidle, hi]; rfl⟩
  · rename_i listener hi
    obtain ⟨item, _, rfl⟩ := Option.map_eq_some_iff.mp h
    exact ⟨_, by simp only [Peer.act, hidle, hi]; rfl⟩
  · rename_i listener hi
    obtain ⟨item, _, rfl⟩ := Option.map_eq_some_iff.mp h
    exact ⟨_, by simp only [Peer.act, hidle, hi]; rfl⟩
  · simp at h

section

variable (hr : (system ι codecs).Run Faultless tr s) (hstuck : (system ι codecs).Stuck Meshes s)
  (hj : s.clients j = .running p none) (hidle : p.progress = .idle)

include hstuck hj hidle

/-- At rest no message waits for a listener. -/
theorem rest_read (i : Nat) : s.nextMessage p i = none := by
  by_contra hsome
  obtain ⟨message, hmessage⟩ := Option.ne_none_iff_exists'.mp hsome
  obtain ⟨out, hout⟩ : ∃ out, p.act codecs message = some out :=
    nextMessage_enabled hidle hmessage
  have hnone := rest_step hstuck (a := .listen j i) (by simp) rfl rfl
  simp [step, hj, Client.peer?, hmessage, input, hout] at hnone

/-- At rest no callback is queued. -/
theorem rest_callback [Nonempty A] [Nonempty O] [Nonempty C] {task : Task A O C}
    (ht : task ∈ p.unorderedFuts) : task.isCallback = false := by
  by_contra hcall
  rw [Bool.not_eq_false] at hcall
  obtain ⟨i, hi⟩ := List.mem_iff_getElem?.mp ht
  obtain ⟨state, hyield, hremote⟩ := exists_yields hcall
  have hnone := hstuck (.finish j i (.ok state)) ⟨⟨⟨rfl, ?_⟩, rfl⟩, trivial⟩
  · simp [system, step, input, hj, Peer.act, hidle, hi, hcall, hyield, Except.toOption] at hnone
  · intro q hq p' hp' task' ht'
    obtain rfl := Option.some.inj hq
    rw [hj] at hp'
    obtain rfl := Option.some.inj hp'
    obtain rfl := Option.some.inj (hi.symm.trans ht')
    exact hremote

include hr

/-- At rest the futures of a peer are listeners that have read everything. -/
theorem rest_drained [Nonempty A] [Nonempty O] [Nonempty C] {task : Task A O C}
    (ht : task ∈ p.unorderedFuts) : task.Drained s.server := by
  have hp : (s.clients j).peer? = some p := by
    rw [hj]
    rfl
  have hcall := rest_callback hstuck hj hidle ht
  obtain ⟨i, hi⟩ := List.mem_iff_getElem?.mp ht
  have hpoll {b : Server.Action} (hdrop : b.drops = false) (hcall : b.call = none)
      (hrec : ∀ r, b ≠ .receive r) : s.server.step b = none := by
    have hnone := hstuck (.server b) ⟨⟨⟨?_, by simp [Action.finished]⟩, hdrop⟩, ?_⟩
    · simpa [system, step] using hnone
    · cases b with
      | receive r => exact absurd rfl (hrec r)
      | _ => rfl
    · intro x hx
      simp [Server.offering, hcall] at hx
  have hchannel (slot : Slot) {listener : Streaming}
      (hl : (.signalListener slot listener : Task A O C) ∈ p.unorderedFuts)
      (hread : (s.server.signalWire listener.source)[listener.taken]? = none) :
      (s.server.pollChannel listener.source).isNone = true ∧
        listener.taken = (s.server.signalWire listener.source).length := by
    have hreads := readsInv hr slot j
    rw [ReadsInv, hp] at hreads
    obtain ⟨c, n, hreads⟩ := hreads
    obtain rfl := hreads.listener listener hl
    have hnone := hpoll (b := .pollChannel c) rfl rfl (by simp)
    refine ⟨by simpa [Server.step] using hnone, le_antisymm hreads.bound ?_⟩
    exact List.getElem?_eq_none_iff.mp hread
  have hread := rest_read hstuck hj hidle i
  cases task with
  | peerListener listener =>
    have hnone := hpoll (b := .pollPeerStream listener.source) rfl rfl (by simp)
    simp only [nextMessage, hi, Option.map_eq_none_iff] at hread
    exact ⟨by simpa [Server.Drained, Server.step] using hnone,
      le_antisymm (taken_le hr hp ht) (List.getElem?_eq_none_iff.mp hread)⟩
  | offerListener listener =>
    simp only [nextMessage, hi, Option.map_eq_none_iff] at hread
    exact hchannel .offer ht hread
  | answerListener listener =>
    simp only [nextMessage, hi, Option.map_eq_none_iff] at hread
    exact hchannel .answer ht hread
  | _ => simp [Task.isCallback] at hcall

end

/-- At rest every peer is quiet: where nothing more can happen in a faultless run but the handling
of offers that nobody would hear, and no stream has lost a message, every client runs its peer, no
request is under way, and the peer's three listeners have read everything. -/
theorem rest_quiet [Nonempty A] [Nonempty O] [Nonempty C]
    (hr : (system ι codecs).Run Faultless tr s) (hn : allocations (serverTrace tr) < 2 ^ 64)
    (hanswer : codecs.answer.Inverts) (hoffer : codecs.offer.Inverts)
    (hcandidates : codecs.candidates.Inverts) (hstuck : (system ι codecs).Stuck Meshes s)
    (hint : ∀ st ∈ s.server.streams, st.Intact) (j : ι) : ∃ p, Quiet s j p := by
  obtain ⟨p, hj, hidle⟩ := rest_idle hr hn hstuck hanswer hoffer hcandidates j
  exact ⟨p, hj, listeners_single hr hn hanswer hoffer hcandidates hint (by rw [hj]; rfl),
    fun task ht => rest_drained hr hstuck hj hidle ht⟩

/-- Every faultless run, under whatever further condition, goes on until it is stuck. -/
theorem comes_to_rest [Fintype ι] {ok : System ι A O C → Action ι A O C → Prop}
    {xs : List (Machine.Transition (System ι A O C) (Action ι A O C) (Event ι A O C))}
    (hr : (system ι codecs).recorded.Run ok xs s) (hok : ∀ s a, ok s a → s.Faultless a)
    (hcard : Fintype.card ι < 2 ^ 64) (hanswer : codecs.answer.Inverts)
    (hoffer : codecs.offer.Inverts) (hcandidates : codecs.candidates.Inverts) :
    ∃ more t, (system ι codecs).recorded.Run ok (xs ++ more) t ∧ (system ι codecs).Stuck ok t := by
  have hbound {xs : List (Machine.Transition (System ι A O C) (Action ι A O C) (Event ι A O C))}
      {s : System ι A O C} (hr : (system ι codecs).recorded.Run ok xs s) :
      xs.length ≤ 42 * Fintype.card ι ^ 2 + 38 * Fintype.card ι := by
    have hfaultless := hr.mono hok
    exact ((Nat.le_add_right _ _).trans (length_le_credit hfaultless hcard)).trans
      (credit_le hfaultless.forget (allocations_small hfaultless.forget hcard) hanswer hoffer
        hcandidates)
  exact Machine.Run.completes hbound hr

/-- The streams of sixteen clients lose nothing. -/
theorem intact_of_card [Fintype ι] (hr : (system ι codecs).Run Faultless tr s)
    (hcard : Fintype.card ι ≤ 16) : ∀ st ∈ s.server.streams, st.Intact := by
  intro st hst
  by_contra hlag
  exact absurd (lagged_card hr hst hlag) (by omega)

/-- Faultless runs come to rest with quiet peers: where nothing more can happen without a fault,
and no stream has lost a message, every client runs its peer, no request is under way, and the
three listeners of the peer have read everything. -/
theorem runs_rest [Fintype ι] [Nonempty A] [Nonempty O] [Nonempty C]
    (hr : (system ι codecs).Run Faultless tr s) (hcard : Fintype.card ι < 2 ^ 64)
    (hanswer : codecs.answer.Inverts) (hoffer : codecs.offer.Inverts)
    (hcandidates : codecs.candidates.Inverts) (hstuck : (system ι codecs).Stuck Faultless s)
    (hint : ∀ st ∈ s.server.streams, st.Intact) (j : ι) : ∃ p, Quiet s j p :=
  rest_quiet hr (lt_of_le_of_lt (allocations_le_card (honest hr)) hcard) hanswer hoffer
    hcandidates (fun a ha => hstuck a ha.1) hint j

/-- A faultless run of two clients comes to rest. -/
theorem runs_rest_two : ∃ tr s, (system Bool Codecs.unit).Run Faultless tr s ∧
    (system Bool Codecs.unit).Stuck Faultless s ∧ ∀ j, ∃ p, Quiet s j p := by
  obtain ⟨more, s, hr, hstuck⟩ := comes_to_rest (Machine.Run.init :
    (system Bool Codecs.unit).recorded.Run Faultless [] _) (fun _ _ h => h) (by simp)
      (fun _ _ _ => rfl) (fun _ _ _ => rfl) fun _ _ _ => rfl
  have hrun := hr.forget
  refine ⟨_, s, hrun, hstuck, runs_rest hrun (by simp) (fun _ _ _ => rfl) (fun _ _ _ => rfl)
    (fun _ _ _ => rfl) hstuck (intact_of_card hrun (by simp))⟩

end System

end JustWebrtc.Signalling
