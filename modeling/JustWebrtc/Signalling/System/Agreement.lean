import JustWebrtc.Signalling.System.Discovery
import JustWebrtc.Signalling.System.Relay

/-!
# Agreement

Where a completion callback has been called, both descriptions have gone the whole way: each
was returned by a callback of one client, accepted by the server for the other client, and, up
to the last hop, handed to a callback of the other client unchanged. Every callback is called
at most once for each remote peer, because an offer is created at most once and each further
hop happens at most as often as the one before it.
-/

namespace JustWebrtc.Signalling

variable {ι A O C : Type*} [DecidableEq ι]

/-- The callbacks of a client. -/
inductive Callback
  | createOffer
  | receiveAnswer
  | localSigCplt
  | receiveOffer
  | remoteSigCplt
  deriving DecidableEq, Repr

/-- The callback of a future and the remote peer it was called for. -/
def Task.callback : Task A O C → Option (Callback × Id)
  | .createOffer remoteId => some (.createOffer, remoteId)
  | .receiveAnswer remoteId _ => some (.receiveAnswer, remoteId)
  | .localSigCplt remoteId => some (.localSigCplt, remoteId)
  | .receiveOffer remoteId _ => some (.receiveOffer, remoteId)
  | .remoteSigCplt remoteId => some (.remoteSigCplt, remoteId)
  | .peerListener _ | .offerListener _ | .answerListener _ => none

/-- The callback that returned a state and the remote peer it returned. -/
def SignallingState.callback : SignallingState A O C → Option (Callback × Id)
  | .createOffer remoteId _ => some (.createOffer, remoteId)
  | .receiveAnswer remoteId => some (.receiveAnswer, remoteId)
  | .localSigCplt remoteId => some (.localSigCplt, remoteId)
  | .receiveOffer remoteId _ => some (.receiveOffer, remoteId)
  | .remoteSigCplt remoteId => some (.remoteSigCplt, remoteId)
  | .peerListener _ _ | .offerListener _ _ _ | .answerListener _ _ _ => none

theorem Task.isCallback_of_callback {task : Task A O C} {x : Callback × Id}
    (h : task.callback = some x) : task.isCallback = true := by
  cases task <;> simp_all [Task.callback, Task.isCallback]

/-- The callback that returns the description of the signals of a slot. -/
def Slot.creator : Slot → Callback
  | .offer => .createOffer
  | .answer => .receiveOffer

/-- The callback that is called with the description of the signals of a slot. -/
def Slot.receiver : Slot → Callback
  | .offer => .receiveOffer
  | .answer => .receiveAnswer

theorem Task.slot_of_callback {slot : Slot} {task : Task A O C} {x : Id}
    (h : task.callback = some (slot.receiver, x)) :
    task.slot = some slot ∧ task.remoteId = some x := by
  cases slot <;> cases task <;> simp_all [Task.callback, Slot.receiver, Task.slot, Task.remoteId]

theorem SignallingState.callback_of_relayed {state : SignallingState A O C} {task : Task A O C}
    {slot : Slot} {x q : Id} (hq : state.remoteId = some q) (hrelay : state.relayed x = some task)
    (hslot : task.slot = some slot) : state.callback = some (slot.creator, q) := by
  cases state <;> simp only [SignallingState.relayed, Option.some.injEq, reduceCtorEq] at hrelay
  all_goals
    subst hrelay
    rw [Task.slot, Option.some.injEq] at hslot
    subst hslot
    rw [SignallingState.remoteId, Option.some.injEq] at hq
    rw [SignallingState.callback, Slot.creator, hq]

namespace System

variable {codecs : Codecs A O C} {tr evs : List (Event ι A O C)} {s t : System ι A O C}
  {a : Action ι A O C} {j : ι}

/-! ## At most once -/

/-- How often client `j` has called a callback for a remote peer. -/
def calls (j : ι) (x : Callback × Id) (tr : List (Event ι A O C)) : Nat :=
  tr.countP (Event.Calls j fun task => decide (task.callback = some x))

/-- How often client `j` has consumed what a callback returned for a remote peer. -/
def results (j : ι) (x : Callback × Id) (tr : List (Event ι A O C)) : Nat :=
  tr.countP (Event.Consumes j fun state => decide (state.callback = some x))

/-- A callback returns at most as often as it is called. -/
theorem results_le_calls (hr : (system ι codecs).Run Honest tr s) (j : ι) (x : Callback × Id) :
    results j x tr ≤ calls j x tr := by
  refine (Nat.le_add_right _ _).trans (consumed_le_called hr j ?_ ?_ ?_)
  · intro task h
    exact Task.isCallback_of_callback (of_decide_eq_true h)
  · intro state h
    replace h := of_decide_eq_true h
    cases state <;> simp [SignallingState.callback] at h <;> rfl
  · intro task state hyield hid h
    replace h := of_decide_eq_true h
    refine decide_eq_true ?_
    cases task <;> cases state <;>
      simp_all [Task.yields, Task.callback, SignallingState.callback, Task.remoteId,
        SignallingState.remoteId]

/-- Offers are created to different peers. -/
theorem createdOffers_nodup {ok : System ι A O C → Action ι A O C → Prop}
    (hr : (system ι codecs).Run ok tr s) (j : ι) : (createdOffers j tr).Nodup := by
  rcases discoveryInv hr j with h | ⟨p, initial, rest, h⟩
  · rw [h.offers]
    exact List.nodup_nil
  · obtain ⟨i, st, ho, hi, hhead⟩ := h.handed
    obtain ⟨st', initial', hi', _, hhead', hnodup, _⟩ :=
      ho.hands_out (clientInv hr).1 (Server.handsOut (freeRun hr))
    rw [hi, Option.some.injEq] at hi'
    subst hi'
    rw [hhead, Option.some.injEq, Except.ok.injEq, PeerListenerRsp.mk.injEq] at hhead'
    rw [h.offers, Change.add_injective.list_map hhead']
    exact hnodup

/-- An offer to a peer is created at most once. -/
theorem createOffer_once {ok : System ι A O C → Action ι A O C → Prop}
    (hr : (system ι codecs).Run ok tr s) (j : ι) (x : Id) : calls j (.createOffer, x) tr ≤ 1 := by
  have hcount : calls j (.createOffer, x) tr = (createdOffers j tr).count x := by
    rw [calls, createdOffers, List.count_eq_countP, List.countP_filterMap]
    congr 1
    funext e
    cases e with
    | called i task =>
      by_cases h : i = j
      · cases task <;> simp [Event.Calls, h, Task.offered, Task.callback]
        rfl
      · simp [Event.Calls, h]
    | _ => rfl
  rw [hcount]
  exact List.nodup_iff_count_le_one.mp (createdOffers_nodup hr j) x

/-- The callback for the signals of a remote peer is called at most once, if the callback that
returns the description of these signals is. -/
theorem received_once (hr : (system ι codecs).Run Honest tr s)
    (hn : allocations (serverTrace tr) < 2 ^ 64) (hanswer : codecs.answer.Inverts)
    (hoffer : codecs.offer.Inverts) (hcandidates : codecs.candidates.Inverts) (slot : Slot)
    (honce : ∀ i q, calls i (slot.creator, q) tr ≤ 1) (j : ι) (x : Id) :
    calls j (slot.receiver, x) tr ≤ 1 := by
  have hslot : ∀ task : Task A O C, decide (task.callback = some (slot.receiver, x)) = true →
      task.slot = some slot ∧ task.remoteId = some x :=
    fun task h => Task.slot_of_callback (of_decide_eq_true h)
  rcases Nat.eq_zero_or_pos (calls j (slot.receiver, x) tr) with hzero | hpos
  · omega
  · obtain ⟨e, hm, he⟩ := List.countP_pos_iff.mp hpos
    cases e with
    | called j' task =>
      simp only [Event.Calls, Bool.and_eq_true, decide_eq_true_eq] at he
      obtain ⟨rfl, htask⟩ := he
      obtain ⟨ht, hx⟩ := Task.slot_of_callback htask
      obtain ⟨q, hj⟩ := received_localId hr hm ht
      obtain ⟨i, _, _, hi, _⟩ := relayed hr hn hanswer hoffer hcandidates hj hm ht hx
      refine (received_le_consumed hr hn hanswer hoffer hcandidates hi hj hslot ?_).trans
        ((results_le_calls hr i (slot.creator, q)).trans (honce i q))
      intro state task hq hrelay h
      exact decide_eq_true (SignallingState.callback_of_relayed hq hrelay (hslot task h).1)
    | _ => simp [Event.Calls] at he

/-- Each callback of a client is called at most once for each remote peer. -/
theorem called_once (hr : (system ι codecs).Run Honest tr s)
    (hn : allocations (serverTrace tr) < 2 ^ 64) (hanswer : codecs.answer.Inverts)
    (hoffer : codecs.offer.Inverts) (hcandidates : codecs.candidates.Inverts) (j : ι)
    (callback : Callback) (x : Id) : calls j (callback, x) tr ≤ 1 := by
  have hreceiveOffer (i : ι) (x : Id) : calls i (.receiveOffer, x) tr ≤ 1 :=
    received_once hr hn hanswer hoffer hcandidates .offer (createOffer_once hr) i x
  have hreceiveAnswer (i : ι) (x : Id) : calls i (.receiveAnswer, x) tr ≤ 1 :=
    received_once hr hn hanswer hoffer hcandidates .answer hreceiveOffer i x
  cases callback with
  | createOffer => exact createOffer_once hr j x
  | receiveOffer => exact hreceiveOffer j x
  | receiveAnswer => exact hreceiveAnswer j x
  | localSigCplt =>
    have hle : calls j (.localSigCplt, x) tr ≤ results j (.receiveAnswer, x) tr := by
      refine localSigCplt_le_consumed hr j (fun task h => ?_) fun y h => ?_
      · replace h := of_decide_eq_true h
        cases task <;> simp_all [Task.callback]
      · simpa [Task.callback, SignallingState.callback] using h
    exact hle.trans ((results_le_calls hr j _).trans (hreceiveAnswer j x))
  | remoteSigCplt =>
    let R (request : Request) : Bool := (request.signalTo .answer x).isSome
    have hle : calls j (.remoteSigCplt, x) tr ≤ tr.countP (Event.Requests j R) := by
      refine (Nat.le_add_right _ _).trans
        (remoteSigCplt_le_requested hr j (fun task h => ?_) fun y sig h => ?_)
      · replace h := of_decide_eq_true h
        cases task <;> simp_all [Task.callback]
      · simpa [Task.callback, R, Request.signalTo] using h
    have hle' : tr.countP (Event.Requests j R) ≤ results j (.receiveOffer, x) tr := by
      refine requested_le_consumed hr hanswer hoffer hcandidates j (fun request h => ?_) ?_
      · cases request <;> simp_all [R, Request.signalTo, Request.isSignal]
      · intro slot state sig task hR hrelay hrec
        have hslot := (Codecs.received_spec hrec).1
        obtain ⟨sig', hsig⟩ := Option.isSome_iff_exists.mp hR
        obtain ⟨rfl, hx, _⟩ := Request.signal.inj (Request.signalTo_eq hsig)
        exact decide_eq_true (SignallingState.callback_of_relayed hx hrelay hslot)
    exact hle.trans (hle'.trans ((results_le_calls hr j _).trans (hreceiveOffer j x)))

/-! ## Causes -/

/-- A queued callback has been called. -/
theorem called_of_queued (hr : (system ι codecs).Run Honest tr s) {p : Peer A O C}
    (hp : (s.clients j).peer? = some p) {task : Task A O C} (ht : task ∈ p.unorderedFuts)
    (hc : task.isCallback = true) : Event.called j task ∈ tr := by
  classical
  have hle := consumed_le_called hr j (P := fun task' => decide (task' = task))
    (Q := fun _ => false) (fun task' h => of_decide_eq_true h ▸ hc) (by simp) (by simp)
  rw [hp, Option.elim_some] at hle
  have hpos : 0 < p.unorderedFuts.countP fun task' => decide (task' = task) :=
    List.countP_pos_iff.mpr ⟨task, ht, decide_eq_true rfl⟩
  obtain ⟨e, hm, he⟩ := List.countP_pos_iff.mp ((hpos.trans_le (Nat.le_add_left _ _)).trans_le hle)
  cases e with
  | called i task' =>
    simp only [Event.Calls, Bool.and_eq_true, decide_eq_true_eq] at he
    rwa [he.1, he.2] at hm
  | _ => simp [Event.Calls] at he

/-- A callback whose result has been consumed has been called. -/
theorem called_of_consumed (hr : (system ι codecs).Run Honest tr s) {state : SignallingState A O C}
    (h : Event.consumed j state ∈ tr) (hlisten : state.relisten = none) :
    ∃ task, Event.called j task ∈ tr ∧ task.yields state = true ∧
      task.remoteId = state.remoteId := by
  classical
  have hle := consumed_le_called hr j
    (P := fun task => decide (task.yields state = true ∧ task.remoteId = state.remoteId))
    (Q := fun state' => decide (state' = state)) ?_ ?_ ?_
  · have hpos : 0 < tr.countP (Event.Consumes j fun state' => decide (state' = state)) :=
      List.countP_pos_iff.mpr ⟨_, h, by simp [Event.Consumes]⟩
    obtain ⟨e, hm, he⟩ :=
      List.countP_pos_iff.mp ((hpos.trans_le (Nat.le_add_right _ _)).trans_le hle)
    cases e with
    | called i task =>
      simp only [Event.Calls, Bool.and_eq_true, decide_eq_true_eq] at he
      obtain ⟨rfl, hyield, hid⟩ := he
      exact ⟨task, hm, hyield, hid⟩
    | _ => simp [Event.Calls] at he
  · intro task ht
    have hyield := (of_decide_eq_true ht).1
    cases task <;> simp_all [Task.yields, Task.isCallback]
  · intro state' hs
    rw [of_decide_eq_true hs, hlisten]
  · intro task state' hyield hid hs
    obtain rfl := of_decide_eq_true hs
    exact decide_eq_true ⟨hyield, hid.symm⟩

/-- The offer of the peer `p` of client `i` has reached the peer `r` of client `j`, and the answer
has come back. -/
structure Exchanged (codecs : Codecs A O C) (tr : List (Event ι A O C)) (i j : ι) (p r : Id)
    (offerSet : O × C) (answerSet : A × C) : Prop where
  offerer : Event.advertised i p ∈ tr
  answerer : Event.advertised j r ∈ tr
  offer : Event.consumed i (.createOffer r offerSet) ∈ tr
  offered : ∃ sig, sig.sender = p ∧ codecs.offerSet sig = some offerSet ∧ Accepted tr .offer r sig
  received : Event.called j (.receiveOffer p offerSet) ∈ tr
  answer : Event.consumed j (.receiveOffer p answerSet) ∈ tr
  answered : ∃ sig, sig.sender = r ∧ codecs.answerSet sig = some answerSet ∧
    Accepted tr .answer p sig
  completed : Event.called i (.receiveAnswer r answerSet) ∈ tr

omit [DecidableEq ι] in
theorem Accepted.mono {slot : Slot} {q : Id} {sig : Signal} (h : Accepted tr slot q sig) :
    Accepted (tr ++ evs) slot q sig := by
  obtain ⟨i, k, hreq, hacc⟩ := h
  exact ⟨i, k, List.mem_append_left _ hreq, List.mem_append_left _ hacc⟩

omit [DecidableEq ι] in
theorem Exchanged.mono {i : ι} {p r : Id} {offerSet : O × C} {answerSet : A × C}
    (h : Exchanged codecs tr i j p r offerSet answerSet) :
    Exchanged codecs (tr ++ evs) i j p r offerSet answerSet where
  offerer := List.mem_append_left _ h.offerer
  answerer := List.mem_append_left _ h.answerer
  offer := List.mem_append_left _ h.offer
  offered := by
    obtain ⟨sig, hs, hset, hacc⟩ := h.offered
    exact ⟨sig, hs, hset, hacc.mono⟩
  received := List.mem_append_left _ h.received
  answer := List.mem_append_left _ h.answer
  answered := by
    obtain ⟨sig, hs, hset, hacc⟩ := h.answered
    exact ⟨sig, hs, hset, hacc.mono⟩
  completed := List.mem_append_left _ h.completed

/-- An answer that is handed to a client answers the offer that the client has created. -/
theorem exchanged (hr : (system ι codecs).Run Honest tr s)
    (hn : allocations (serverTrace tr) < 2 ^ 64) (hanswer : codecs.answer.Inverts)
    (hoffer : codecs.offer.Inverts) (hcandidates : codecs.candidates.Inverts) {i : ι} {p r : Id}
    {answerSet : A × C} (hi : (s.clients i).localId = some p)
    (h : Event.called i (.receiveAnswer r answerSet) ∈ tr) :
    ∃ j offerSet, Exchanged codecs tr i j p r offerSet answerSet := by
  obtain ⟨hcalls, hclients⟩ := clientInv hr
  obtain ⟨j, sig, state, hj, hsender, hrec, hacc, hcons, hremote, hrelay⟩ :=
    relayed hr hn hanswer hoffer hcandidates hi h rfl rfl
  obtain rfl : state = .receiveOffer p answerSet := by
    cases state <;> simp_all [SignallingState.relayed, SignallingState.remoteId]
  obtain ⟨task, hcalled, hyield, hid⟩ := called_of_consumed hr hcons rfl
  obtain ⟨offerSet, rfl⟩ : ∃ offerSet, task = .receiveOffer p offerSet := by
    cases task <;> simp_all [Task.yields, Task.remoteId, SignallingState.remoteId]
  obtain ⟨i', sig', state', hi', hsender', hrec', hacc', hcons', hremote', hrelay'⟩ :=
    relayed hr hn hanswer hoffer hcandidates hj hcalled rfl rfl
  obtain rfl := localId_unique hr hn hi' hi
  obtain rfl : state' = .createOffer r offerSet := by
    cases state' <;> simp_all [SignallingState.relayed, SignallingState.remoteId]
  refine ⟨j, offerSet, ((hclients i').given p).mpr hi, ((hclients j).given r).mpr hj, hcons',
    ⟨sig', hsender', ?_, hacc'⟩, hcalled, hcons, ⟨sig, hsender, ?_, hacc⟩, h⟩
  · simpa [Codecs.received, hsender'] using hrec'
  · simpa [Codecs.received, hsender] using hrec

/-- A local signalling completion is called by a step that completes an answer. -/
theorem Moves.completes (hm : Moves codecs s a (t, evs)) (ha : s.Honest a) {r : Id}
    (h : Event.called j (.localSigCplt r) ∈ evs) :
    ∃ p answerSet, (s.clients j).peer? = some p ∧
      Task.receiveAnswer r answerSet ∈ p.unorderedFuts := by
  rcases hm.peer_cases j with ⟨p, call, input, o, hj, hh, hacts, heq⟩ | ⟨he, _⟩
  · have hmem : Task.localSigCplt r ∈ o.called := by
      rw [Prod.mk.injEq] at heq
      rw [heq.2] at h
      exact (called_apply.mp h).2
    have hin := ha.input hj hh
    rcases hacts.called_cases with hc | ⟨_, _, _, _, task, _, _, hrec, hc⟩ |
      ⟨k, x, y, answerSet, rfl, hk, hc, _⟩ | ⟨x, _, _, hc, _⟩
    · obtain ⟨id, hid⟩ := hc _ hmem
      simp at hid
    · rw [hc, List.mem_singleton] at hmem
      have hslot := (Codecs.received_spec hrec).1
      simp [← hmem, Task.slot] at hslot
    · rw [hc, List.mem_singleton, Task.localSigCplt.injEq] at hmem
      subst hmem
      have hid := hin _ hk
      simp only [SignallingState.remoteId, Task.remoteId, Option.some.injEq] at hid
      subst hid
      exact ⟨p, answerSet, by rw [hj]; rfl, List.mem_of_getElem? hk⟩
    · simp [hc] at hmem
  · simpa [Event.ofPeer] using he _ h

/-- A remote signalling completion is called by a step whose signalled answer has succeeded. -/
theorem Moves.answers (hm : Moves codecs s a (t, evs))
    (hclient : ClientInv tr s j (s.clients j)) {p : Id}
    (h : Event.called j (.remoteSigCplt p) ∈ evs) :
    ∃ r k sig, (s.clients j).localId = some r ∧ sig.sender = r ∧
      Event.requested j k (.signalAnswer (some p) (some sig)) ∈ tr ∧
      s.server.At k (.done (.ok (.signal .answer))) := by
  rcases hm.peer_cases j with ⟨q, call, input, o, hj, hh, hacts, heq⟩ | ⟨he, _⟩
  · have hmem : Task.remoteSigCplt p ∈ o.called := by
      rw [Prod.mk.injEq] at heq
      rw [heq.2] at h
      exact (called_apply.mp h).2
    rcases hacts.called_cases with hc | ⟨_, _, _, _, task, _, _, hrec, hc⟩ |
      ⟨k, x, y, answerSet, rfl, hk, hc, _⟩ | ⟨x, rfl, hprog, hc, _⟩
    · obtain ⟨id, hid⟩ := hc _ hmem
      simp at hid
    · rw [hc, List.mem_singleton] at hmem
      have hslot := (Codecs.received_spec hrec).1
      simp [← hmem, Task.slot] at hslot
    · simp [hc] at hmem
    · rw [hc, List.mem_singleton, Task.remoteSigCplt.injEq] at hmem
      subst hmem
      cases hh with
      | @response k _ hcall hret =>
        rw [hj] at hclient
        obtain ⟨request, hreq, hawaits⟩ := hclient.awaits k hcall
        rw [Client.Awaits, hprog] at hawaits
        obtain ⟨sig, rfl, hsender⟩ := hawaits
        exact ⟨q.localId, k, sig, by rw [hj]; rfl, hsender, hreq, hret⟩
  · simpa [Event.ofPeer] using he _ h

/-- An accepted signal is in the channel of the peer and the slot that its request names. -/
theorem Accepted.queued {ok : System ι A O C → Action ι A O C → Prop}
    (hr : (system ι codecs).Run ok tr s) (hn : allocations (serverTrace tr) < 2 ^ 64) {slot : Slot}
    {q : Id} {sig : Signal} (h : Accepted tr slot q sig) :
    ∃ (c : Nat) (sc : SignalChannel), s.server.channels[c]? = some sc ∧ sc.slot = slot ∧
      sc.peer = q ∧ ⟨some sig⟩ ∈ sc.channel.items := by
  obtain ⟨i, k, hreq, hacc⟩ := h
  obtain ⟨_, hdel⟩ := Server.deliveryInv (freeRun hr) hn
  have hk := mem_acceptances.mpr hacc
  obtain ⟨slot', q', sig', phase, c, hcall, hkey⟩ := hdel.routed k hk
  obtain ⟨phase', hcall'⟩ := (clientInv hr).1.sent i k _ hreq
  rw [hcall, Option.some.injEq, Call.mk.injEq, Request.signal.injEq, Option.some.injEq,
    Option.some.injEq] at hcall'
  obtain ⟨⟨rfl, rfl, rfl⟩, _⟩ := hcall'
  simp only [Server.key, Option.map_eq_some_iff, Prod.mk.injEq] at hkey
  obtain ⟨sc, hsc, rfl, rfl⟩ := hkey
  refine ⟨c, sc, hsc, rfl, rfl, ?_⟩
  rw [hdel.items c sc hsc]
  refine List.mem_cons_of_mem _ (List.mem_map.mpr ⟨sig', ?_, rfl⟩)
  exact List.mem_filterMap.mpr ⟨k, hk, by simp [hcall, Request.signalTo]⟩

/-- Where a local signalling completion has been called, the offer and the answer had gone the
whole way before. -/
theorem exchanged_before (hr : (system ι codecs).Run Honest tr s)
    (hn : allocations (serverTrace tr) < 2 ^ 64) (hanswer : codecs.answer.Inverts)
    (hoffer : codecs.offer.Inverts) (hcandidates : codecs.candidates.Inverts) {i : ι} {r : Id}
    {before after : List (Event ι A O C)}
    (h : tr = before ++ .called i (.localSigCplt r) :: after) :
    ∃ p j offerSet answerSet, Exchanged codecs before i j p r offerSet answerSet := by
  have hcaused := hr.caused (Q := fun tr => allocations (serverTrace tr) < 2 ^ 64 →
    ∃ p j offerSet answerSet, Exchanged codecs tr i j p r offerSet answerSet)
    (e := .called i (.localSigCplt r)) ?_ ?_ before after h
  · rw [h] at hn
    exact hcaused (serverTrace_allocations_lt _ _ hn)
  · intro tr evs hq hn
    obtain ⟨p, j, offerSet, answerSet, hex⟩ := hq (serverTrace_allocations_lt _ _ hn)
    exact ⟨p, j, offerSet, answerSet, hex.mono⟩
  · intro tr s a t evs hr ha hs he hn
    have hm : Moves codecs s a (t, evs) := step_moves hs
    obtain ⟨p, answerSet, hp, hqueued⟩ := hm.completes ha he
    have hcalled := called_of_queued hr hp hqueued rfl
    obtain ⟨j, offerSet, hex⟩ := exchanged hr hn hanswer hoffer hcandidates
      (Client.localId_of_peer? hp) hcalled
    exact ⟨p.localId, j, offerSet, answerSet, hex⟩

/-- An answer is sent after `receive_offer` has returned it. -/
theorem answer_source {ok : System ι A O C → Action ι A O C → Prop}
    (hr : (system ι codecs).Run ok tr s) (hanswer : codecs.answer.Inverts)
    (hoffer : codecs.offer.Inverts) (hcandidates : codecs.candidates.Inverts) {k : Nat} {p : Id}
    {sig : Signal} (h : Event.requested j k (.signalAnswer (some p) (some sig)) ∈ tr) :
    ∃ answerSet, codecs.answerSet sig = some answerSet ∧
      Event.consumed j (.receiveOffer p answerSet) ∈ tr := by
  obtain ⟨state, task, hcons, hremote, hrelay, hrec⟩ :=
    requested_source hr hanswer hoffer hcandidates h
  simp only [Codecs.received, Option.map_eq_some_iff] at hrec
  obtain ⟨answerSet, hset, rfl⟩ := hrec
  obtain rfl : state = .receiveOffer p answerSet := by
    cases state <;> simp_all [SignallingState.relayed, SignallingState.remoteId]
  exact ⟨answerSet, hset, hcons⟩

/-- Where a remote signalling completion has been called, the answer had been returned and its
signal been accepted before. -/
theorem answered_before (hr : (system ι codecs).Run Honest tr s)
    (hn : allocations (serverTrace tr) < 2 ^ 64) (hanswer : codecs.answer.Inverts)
    (hoffer : codecs.offer.Inverts) (hcandidates : codecs.candidates.Inverts) {p : Id}
    {before after : List (Event ι A O C)}
    (h : tr = before ++ .called j (.remoteSigCplt p) :: after) :
    ∃ r answerSet sig, Event.advertised j r ∈ before ∧
      Event.consumed j (.receiveOffer p answerSet) ∈ before ∧ sig.sender = r ∧
      codecs.answerSet sig = some answerSet ∧ Accepted before .answer p sig := by
  have hcaused := hr.caused (Q := fun tr => allocations (serverTrace tr) < 2 ^ 64 →
    ∃ r answerSet sig, Event.advertised j r ∈ tr ∧
      Event.consumed j (.receiveOffer p answerSet) ∈ tr ∧ sig.sender = r ∧
      codecs.answerSet sig = some answerSet ∧ Accepted tr .answer p sig)
    (e := .called j (.remoteSigCplt p)) ?_ ?_ before after h
  · rw [h] at hn
    exact hcaused (serverTrace_allocations_lt _ _ hn)
  · intro tr evs hq hn
    obtain ⟨r, answerSet, sig, hadv, hcons, hsender, hset, hacc⟩ :=
      hq (serverTrace_allocations_lt _ _ hn)
    exact ⟨r, answerSet, sig, List.mem_append_left _ hadv, List.mem_append_left _ hcons, hsender,
      hset, hacc.mono⟩
  · intro tr s a t evs hr ha hs he hn
    have hm : Moves codecs s a (t, evs) := step_moves hs
    have hclient := (clientInv hr).2 j
    obtain ⟨r, k, sig, hlocal, hsender, hreq, hdone⟩ := hm.answers hclient he
    obtain ⟨answerSet, hset, hcons⟩ := answer_source hr hanswer hoffer hcandidates hreq
    have hacc := ((Server.deliveryInv (freeRun hr) hn).2.accepted k).mpr ⟨.answer, hdone⟩
    exact ⟨r, answerSet, sig, (hclient.given r).mpr hlocal, hcons, hsender, hset,
      ⟨j, k, hreq, mem_acceptances.mp hacc⟩⟩

/-- End-to-end agreement. Where `local_sig_cplt(r)` has been called at `p`, the offer that `p`
created for `r` had been accepted for `r` and handed to its `receive_offer`, and the answer that
this returned had come back to the `receive_answer` of `p`. Where `remote_sig_cplt(p)` has been
called at `r`, its `receive_offer` for `p` had completed and the answer been accepted for `p`.
What has been accepted is in the channel of its addressee. Each callback is called at most once
for each remote peer. -/
theorem end_to_end_agreement (hr : (system ι codecs).Run Honest tr s)
    (hn : allocations (serverTrace tr) < 2 ^ 64) (hanswer : codecs.answer.Inverts)
    (hoffer : codecs.offer.Inverts) (hcandidates : codecs.candidates.Inverts) :
    (∀ (i : ι) (p r : Id) (before after : List (Event ι A O C)), Event.advertised i p ∈ tr →
      tr = before ++ .called i (.localSigCplt r) :: after →
      ∃ j offerSet answerSet, Exchanged codecs before i j p r offerSet answerSet) ∧
      (∀ (j : ι) (p r : Id) (before after : List (Event ι A O C)), Event.advertised j r ∈ tr →
        tr = before ++ .called j (.remoteSigCplt p) :: after →
        ∃ answerSet sig, Event.consumed j (.receiveOffer p answerSet) ∈ before ∧
          sig.sender = r ∧ codecs.answerSet sig = some answerSet ∧
          Accepted before .answer p sig) ∧
      (∀ (slot : Slot) (q : Id) (sig : Signal), Accepted tr slot q sig →
        ∃ (c : Nat) (sc : SignalChannel), s.server.channels[c]? = some sc ∧ sc.slot = slot ∧
          sc.peer = q ∧ ⟨some sig⟩ ∈ sc.channel.items) ∧
      ∀ (i : ι) (callback : Callback) (x : Id), calls i (callback, x) tr ≤ 1 := by
  have hgiven {i : ι} {id id' : Id} {before after : List (Event ι A O C)}
      (htr : tr = before ++ after)
      (h : Event.advertised i id ∈ tr) (h' : Event.advertised i id' ∈ before) : id' = id := by
    have hclient := (clientInv hr).2 i
    have hlocal := (hclient.given id).mp h
    have hlocal' := (hclient.given id').mp (htr ▸ List.mem_append_left _ h')
    rw [hlocal, Option.some.injEq] at hlocal'
    exact hlocal'.symm
  refine ⟨?_, ?_, fun slot q sig h => h.queued hr hn,
    called_once hr hn hanswer hoffer hcandidates⟩
  · intro i p r before after hadv h
    obtain ⟨p', j, offerSet, answerSet, hex⟩ :=
      exchanged_before hr hn hanswer hoffer hcandidates h
    obtain rfl := hgiven h hadv hex.offerer
    exact ⟨j, offerSet, answerSet, hex⟩
  · intro j p r before after hadv h
    obtain ⟨r', answerSet, sig, hadv', hcons, hsender, hset, hacc⟩ :=
      answered_before hr hn hanswer hoffer hcandidates h
    obtain rfl := hgiven h hadv hadv'
    exact ⟨answerSet, sig, hcons, hsender, hset, hacc⟩

/-- The second client offers to the first, which answers; both are told of the completion. -/
theorem end_to_end_agreement_linked : ∃ tr s before after j,
    (system Bool Codecs.unit).Run Honest tr s ∧
      tr = before ++ .called false (.localSigCplt 0) :: after ∧
      Exchanged Codecs.unit before false j 1 0 ((), ()) ((), ()) ∧
      calls true (.remoteSigCplt, 1) tr = 1 := by
  obtain ⟨tr, s, hr, hc⟩ := (system Bool Codecs.unit).exec_reaches Honest
    (List.flatten [[.start true], Action.handling 0 3 [], [.reply true], Action.handling 1 2 [],
      [.reply true], Action.handling 2 1 [], [.reply true], Action.handling 3 1 [],
      [.reply true, .start false], Action.handling 4 3 [], [.reply false],
      Action.handling 5 2 [0], [.reply false], Action.handling 6 1 [], [.reply false],
      Action.handling 7 1 [],
      [.reply false, .server (.pollPeerStream 1), .listen false 0,
        .finish false 3 (.ok (.createOffer 0 ((), ())))],
      Action.handling 8 1 [],
      [.reply false, .server (.pollChannel 0), .listen true 1, .server (.pollChannel 0),
        .listen true 1, .finish true 3 (.ok (.receiveOffer 1 ((), ())))],
      Action.handling 9 1 [],
      [.reply true, .server (.pollChannel 3), .listen false 1, .server (.pollChannel 3),
        .listen false 1, .finish false 3 (.ok (.receiveAnswer 0))]])
    (fun c => decide (allocations (serverTrace c.2) = 2 ∧ Event.advertised false 1 ∈ c.2 ∧
      Event.called false (.localSigCplt 0) ∈ c.2 ∧ 0 < calls true (.remoteSigCplt, 1) c.2))
    (by decide +kernel)
  obtain ⟨hn, hadv, hcalled, hpos⟩ := of_decide_eq_true hc
  have hlt : allocations (serverTrace tr) < 2 ^ 64 := by
    rw [hn]
    decide
  obtain ⟨hlocal, _, _, honce⟩ := end_to_end_agreement hr hlt (fun _ _ _ => rfl) (fun _ _ _ => rfl)
    (fun _ _ _ => rfl)
  obtain ⟨before, after, htr⟩ := List.append_of_mem hcalled
  obtain ⟨j, offerSet, answerSet, hex⟩ := hlocal false 1 0 before after hadv htr
  exact ⟨tr, s, before, after, j, hr, htr, hex, le_antisymm (honce true .remoteSigCplt 1) hpos⟩

end System

end JustWebrtc.Signalling
