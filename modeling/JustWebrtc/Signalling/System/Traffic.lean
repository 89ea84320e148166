import JustWebrtc.Signalling.Server.Progress
import JustWebrtc.Signalling.System.Capacity
import JustWebrtc.Signalling.System.Convergence

/-!
# How much the clients have to do

A client goes through `start_peer` once, calls each callback at most once for each identifier that
was ever drawn, takes one message for each change, and asks for the peers again at most once for
each message. So what all clients request and consume in a faultless run grows with the square of
their number.
-/

namespace JustWebrtc.Signalling

variable {ι A O C : Type*} [DecidableEq ι]

/-- The request asks for the peers again. -/
def Request.discovers : Request → Bool
  | .peerDiscover _ => true
  | _ => false

/-- The state has come over a signal channel. -/
def SignallingState.isSignal : SignallingState A O C → Bool
  | .offerListener _ _ _ | .answerListener _ _ _ => true
  | _ => false

/-- A number for each callback. -/
def Callback.index : Callback → Nat
  | .createOffer => 0
  | .receiveAnswer => 1
  | .localSigCplt => 2
  | .receiveOffer => 3
  | .remoteSigCplt => 4

theorem Callback.index_lt (callback : Callback) : callback.index < 5 := by
  cases callback <;> simp [Callback.index]

theorem Callback.index_injective {c c' : Callback} (h : c.index = c'.index) : c = c' := by
  cases c <;> cases c' <;> first | rfl | simp [Callback.index] at h

/-- A number for each callback with each remote peer. -/
def Callback.number (key : Callback × Id) : Nat := 5 * key.2.toNat + key.1.index

theorem Callback.number_injective {key key' : Callback × Id}
    (h : Callback.number key = Callback.number key') : key = key' := by
  have hlt := key.1.index_lt
  have hlt' := key'.1.index_lt
  unfold Callback.number at h
  exact Prod.ext (Callback.index_injective (by omega)) (UInt64.toNat_inj.mp (by omega))

namespace Server

variable {s : Server} {tr : List Signalling.Event} {ok : Server → Action → Prop}

/-- Whoever is in a snapshot has been inserted. -/
theorem snapshot_inserted (hr : server.Run ok tr s) (hn : allocations tr < 2 ^ 64) {k : Nat}
    {initial : List Id} (h : s.Snapshot k initial) {x : Id} (hx : x ∈ initial) :
    ∃ n, Event.inserted n x ∈ tr := by
  refine hr.invariant_while (P := fun tr => allocations tr < 2 ^ 64) (I := fun tr s =>
    s.Snapshot k initial → ∃ n, Event.inserted n x ∈ tr) allocations_lt ?_ ?_ hn h
  · rintro (⟨_, _, hk⟩ | ⟨_, _, _, ⟨_, hk⟩, _⟩) <;> simp [server, Server.new] at hk
  · intro tr s a t evs hr hlt _ ih _ hs h
    rcases (step_moves hs).snapshot (handsOut hr) h with hold | ⟨_, id, _, _, hit, _⟩
    · obtain ⟨n, hins⟩ := ih hold
      exact ⟨n, List.mem_append_left _ hins⟩
    · have hmem : x ∈ s.peers.keys.erase id := hit.2 ▸ List.mem_toFinset.mpr hx
      obtain ⟨n, hins⟩ := (identityInv hr hlt).keys x
        (Finmap.mem_keys.mp (Finset.mem_of_mem_erase hmem))
      exact ⟨n, List.mem_append_left _ hins⟩

end Server

namespace System

/-- The number of the callback that the event calls. -/
def Event.number : Event ι A O C → Nat
  | .called _ task => task.callback.elim 0 Callback.number
  | _ => 0

variable {codecs : Codecs A O C} {tr evs : List (Event ι A O C)} {s t : System ι A O C}
  {a : Action ι A O C} {j : ι}

/-! ## Requests -/

/-- Every call of an honest run is the request of one client. -/
theorem countP_calls_le [Fintype ι] (hr : (system ι codecs).Run Honest tr s) (R : Request → Bool) :
    (s.server.calls.countP fun c => R c.request) ≤ ∑ j, tr.countP (Event.Requests j R) := by
  refine hr.invariant (I := fun tr s => (s.server.calls.countP fun c => R c.request) ≤
    ∑ j, tr.countP (Event.Requests j R)) (by simp [system, Server.new]) ?_
  intro tr s a t evs _ ih ha hs
  have hm : Moves codecs s a (t, evs) := step_moves hs
  simp only [List.countP_append, Finset.sum_add_distrib]
  rcases hm.effect with ⟨b, t', evs', rfl, hb, heq⟩ | ⟨_, _, _, _, heq, _⟩ |
    ⟨i, f, r, evs', _, heq, _⟩
  · rw [Prod.mk.injEq] at heq
    obtain ⟨rfl, rfl⟩ := heq
    refine (le_of_eq ?_).trans (ih.trans (Nat.le_add_right _ _))
    rcases (Server.step_moves hb).calls with ⟨r, rfl, _⟩ | ⟨k, _, call, phase, _, hk, ht⟩ |
      ⟨_, _, ht⟩
    · exact absurd ha.1 (by simp [Action.outside])
    · have hcount := Server.countP_setPhase phase rfl hk fun c => R c.request
      rw [ht]
      exact Nat.add_right_cancel hcount
    · rw [ht]
  · rw [put, Prod.mk.injEq] at heq
    obtain ⟨rfl, rfl⟩ := heq
    exact ih.trans (Nat.le_add_right _ _)
  · rw [send, Prod.mk.injEq] at heq
    obtain ⟨rfl, rfl⟩ := heq
    have hnew : (if R r then 1 else 0) ≤ ∑ j, (evs' ++
        [Event.requested i s.server.calls.length r]).countP (Event.Requests j R) := by
      refine le_trans ?_ (Finset.single_le_sum (fun _ _ => Nat.zero_le _) (Finset.mem_univ i))
      rw [List.countP_append, List.countP_singleton]
      simp [Event.Requests]
    simp only [Server.receive, List.countP_append, List.countP_singleton,
      Finset.sum_add_distrib] at hnew ⊢
    omega

/-- A client never goes back in `start_peer`, and sends a request of a stage when it comes to the
stage. -/
theorem Moves.stages {out : System ι A O C × List (Event ι A O C)} (hm : Moves codecs s a out)
    (j : ι) : (s.clients j).stage ≤ (out.1.clients j).stage ∧ ∀ n < 5,
      out.2.countP (Event.Requests j fun r => decide (r.stage = n)) ≤
        if (s.clients j).stage < n ∧ n ≤ (out.1.clients j).stage then 1 else 0 := by
  by_cases hown : a.client = some j
  · cases hm with
    | server _ => simp [Action.client] at hown
    | @start j' hj | @advertised j' _ _ hj _ | @peerListener j' _ _ _ hj _
    | @offerListener j' _ _ _ _ hj _ | @close j' _ hj =>
      obtain rfl : j' = j := Option.some.inj hown
      simp only [send, Function.update_self, hj, Client.stage]
      refine ⟨by omega, fun n hn => ?_⟩
      simp only [List.nil_append, List.cons_append, List.countP_cons, List.countP_nil,
        Event.Requests, decide_true, Bool.true_and, Bool.false_eq_true, if_false]
      split
      · rename_i he
        have hstage := of_decide_eq_true he
        simp only [Request.stage] at hstage
        rw [if_pos (by omega)]
      · exact Nat.zero_le _
    | @answerListener j' _ _ _ _ _ hj _ =>
      obtain rfl : j' = j := Option.some.inj hown
      simp [put, hj, Client.stage]
    | @giveUp j' k status _ hst _ ha =>
      obtain rfl : j' = j := by
        rcases ha with rfl | ⟨rfl, _⟩ <;> exact Option.some.inj hown
      refine ⟨?_, by simp [put]⟩
      cases hc : s.clients j' <;> simp [put, Client.stage]
    | @closed j' p k _ response hj ha =>
      obtain rfl : j' = j := by
        rcases ha with rfl | rfl <;> exact Option.some.inj hown
      simp [put, hj, Client.stage]
    | @act j' p call _ input o hj hh hacts =>
      obtain rfl : j' = j := by
        rw [hh.client] at hown
        exact Option.some.inj hown
      rw [clients_apply, hj]
      refine ⟨le_rfl, fun n hn => (le_of_eq ?_).trans (Nat.zero_le _)⟩
      rw [(countP_apply s j' o).2.2]
      have hset := hacts.spec.2
      unfold Outcome.Settled at hset
      rw [List.countP_eq_zero]
      intro r hr
      rw [Option.mem_toList] at hr
      rw [hr] at hset
      rw [decide_eq_true_eq, hset.stage]
      omega
  · obtain ⟨hc, he⟩ := hm.others hown
    rw [hc]
    refine ⟨le_rfl, fun n _ => (le_of_eq ?_).trans (Nat.zero_le _)⟩
    rw [List.countP_eq_zero]
    intro e hmem hreq
    have hne := he e hmem
    cases e <;> simp_all [Event.client, Event.Requests]

/-- A client sends no more than one request of each stage of `start_peer`. -/
theorem started_once {ok : System ι A O C → Action ι A O C → Prop}
    (hr : (system ι codecs).Run ok tr s) (j : ι) {n : Nat} (hn : n < 5) :
    tr.countP (Event.Requests j fun r => decide (r.stage = n)) ≤
      if n ≤ (s.clients j).stage then 1 else 0 := by
  refine hr.invariant (I := fun tr s => tr.countP (Event.Requests j fun r => decide (r.stage = n)) ≤
    if n ≤ (s.clients j).stage then 1 else 0) (by simp) ?_
  intro tr s a t evs _ ih _ hs
  obtain ⟨hstage, hnew⟩ := Moves.stages (step_moves hs) j
  have hcount := hnew n hn
  rw [List.countP_append]
  simp only at hstage hcount
  split at ih <;> split at hcount <;> split <;> omega

/-! ## Callbacks -/

/-- An identifier that a client was given has been drawn. -/
theorem localId_below {ok : System ι A O C → Action ι A O C → Prop}
    (hr : (system ι codecs).Run ok tr s) (hn : allocations (serverTrace tr) < 2 ^ 64) {x : Id}
    (h : (s.clients j).localId = some x) : x.toNat < allocations (serverTrace tr) := by
  have hid := Server.identityInv (freeRun hr) hn
  obtain ⟨k, _, hret⟩ := ((clientInv hr).2 j).source x h
  obtain ⟨_, hx, hins⟩ := hid.returned k _ hret
  obtain rfl := Option.some.inj hx
  exact hid.below k x (hid.inserted k x hins)

/-- A client creates offers for peers that have been inserted. -/
theorem createOffer_inserted {ok : System ι A O C → Action ι A O C → Prop}
    (hr : (system ι codecs).Run ok tr s) (hn : allocations (serverTrace tr) < 2 ^ 64) {x : Id}
    (h : Event.called j (.createOffer x) ∈ tr) : ∃ n, .inserted n x ∈ serverTrace tr := by
  rw [← mem_createdOffers] at h
  rcases discoveryInv hr j with hnone | ⟨p, initial, rest, hdisc⟩
  · rw [hnone.offers] at h
    exact absurd h List.not_mem_nil
  · obtain ⟨i, st, ho, hi, hhead⟩ := hdisc.handed
    obtain ⟨k, _, hsnap⟩ := ho.snapshot hi hhead
    rw [hdisc.offers] at h
    exact Server.snapshot_inserted (freeRun hr) hn hsnap h

/-- An identifier for which a client creates an offer has been drawn. -/
theorem createOffer_below {ok : System ι A O C → Action ι A O C → Prop}
    (hr : (system ι codecs).Run ok tr s) (hn : allocations (serverTrace tr) < 2 ^ 64) {x : Id}
    (h : Event.called j (.createOffer x) ∈ tr) : x.toNat < allocations (serverTrace tr) := by
  obtain ⟨n, hins⟩ := createOffer_inserted hr hn h
  have hid := Server.identityInv (freeRun hr) hn
  exact hid.below n x (hid.inserted n x hins)

section

variable (hr : (system ι codecs).Run Honest tr s) (hn : allocations (serverTrace tr) < 2 ^ 64)
  (hanswer : codecs.answer.Inverts) (hoffer : codecs.offer.Inverts)
  (hcandidates : codecs.candidates.Inverts)

include hr hn hanswer hoffer hcandidates

/-- An identifier whose signal a client has received has been drawn. -/
theorem received_below {task : Task A O C} (h : Event.called j task ∈ tr) {slot : Slot}
    (hslot : task.slot = some slot) {x : Id} (hx : task.remoteId = some x) :
    x.toNat < allocations (serverTrace tr) := by
  obtain ⟨q, hq⟩ := received_localId hr h hslot
  obtain ⟨i, _, _, hi, _⟩ := relayed hr hn hanswer hoffer hcandidates hq h hslot hx
  exact localId_below hr hn hi

/-- Callbacks are called for identifiers that have been drawn. -/
theorem called_below {task : Task A O C} (h : Event.called j task ∈ tr) {key : Callback × Id}
    (hkey : task.callback = some key) : key.2.toNat < allocations (serverTrace tr) := by
  -- a completion is called after the callback that received the description
  have hcause {callback : Callback} (hdone : Done tr j (callback, key.2))
      (hslot : ∀ task : Task A O C, task.callback = some (callback, key.2) →
        ∃ slot, task.slot = some slot ∧ task.remoteId = some key.2) :
      key.2.toNat < allocations (serverTrace tr) := by
    obtain ⟨task', h', hkey'⟩ := called_of_done hr hdone
    obtain ⟨slot, hs, hx⟩ := hslot task' hkey'
    exact received_below hr hn hanswer hoffer hcandidates h' hs hx
  cases task with
  | peerListener _ | offerListener _ | answerListener _ => simp [Task.callback] at hkey
  | createOffer x =>
    obtain rfl := Option.some.inj hkey
    exact createOffer_below hr hn h
  | receiveAnswer x _ | receiveOffer x _ =>
    obtain rfl := Option.some.inj hkey
    exact received_below hr hn hanswer hoffer hcandidates h rfl rfl
  | localSigCplt x =>
    obtain rfl := Option.some.inj hkey
    exact hcause (receiveAnswer_done hr h) fun task ht =>
      ⟨.answer, Task.slot_of_callback ht⟩
  | remoteSigCplt x =>
    obtain rfl := Option.some.inj hkey
    exact hcause (receiveOffer_done hr hn hanswer hoffer hcandidates h) fun task ht =>
      ⟨.offer, Task.slot_of_callback ht⟩

/-- A client calls at most five callbacks for each identifier that was drawn. -/
theorem called_le (j : ι) :
    tr.countP (Event.Calls j Task.isCallback) ≤ 5 * allocations (serverTrace tr) := by
  have hkeyed {e : Event ι A O C} (h : Event.Calls j Task.isCallback e = true) :
      ∃ task key, e = .called j task ∧ task.callback = some key ∧
        e.number = Callback.number key := by
    cases e with
    | called i task =>
      rw [Event.Calls, Bool.and_eq_true, decide_eq_true_eq] at h
      obtain ⟨rfl, hcall⟩ := h
      obtain ⟨key, hkey⟩ : ∃ key, task.callback = some key := by
        cases task <;> simp [Task.isCallback] at hcall <;> exact ⟨_, rfl⟩
      exact ⟨task, key, rfl, hkey, by simp [Event.number, hkey]⟩
    | _ => simp [Event.Calls] at h
  refine countP_le_of_keys Event.number (fun e he h => ?_) fun m _ => ?_
  · obtain ⟨task, key, rfl, hkey, hnum⟩ := hkeyed h
    have hlt := called_below hr hn hanswer hoffer hcandidates he hkey
    have hindex := key.1.index_lt
    rw [hnum, Callback.number]
    omega
  · by_cases hex : ∃ key, Callback.number key = m
    · obtain ⟨key, rfl⟩ := hex
      refine le_trans (List.countP_mono_left fun e _ h => ?_)
        (called_once hr hn hanswer hoffer hcandidates j key.1 key.2)
      rw [Bool.and_eq_true, decide_eq_true_eq] at h
      obtain ⟨task, key', rfl, hkey, hnum⟩ := hkeyed h.1
      rw [h.2] at hnum
      simp [Event.Calls, hkey, Callback.number_injective hnum]
    · refine (le_of_eq (List.countP_eq_zero.mpr fun e _ h => hex ?_)).trans (Nat.zero_le _)
      rw [Bool.and_eq_true, decide_eq_true_eq] at h
      obtain ⟨_, key, _, _, hnum⟩ := hkeyed h.1
      exact ⟨key, hnum.symm.trans h.2⟩

end

/-! ## Changes -/

/-- All changes of a message before a resync are applied. -/
theorem resync_last {ok : System ι A O C → Action ι A O C → Prop}
    (hr : (system ι codecs).Run ok tr s) {p : Peer A O C} (hp : (s.clients j).peer? = some p)
    {changes rest : List PeerChange} (h : p.progress = .resyncing changes rest) : rest = [] := by
  refine hr.invariant (I := fun _ s => ∀ p ∈ (s.clients j).peer?, ∀ changes rest,
    p.progress = .resyncing changes rest → rest = []) (by simp [system, Client.peer?]) ?_
    p hp changes rest h
  intro tr s a t evs hr ih _ hs q hq
  have hm : Moves codecs s a (t, evs) := step_moves hs
  rcases hm.peer_cases j with ⟨p, call, input, o, hj, hh, hacts, heq⟩ | ⟨_, hp⟩
  · obtain ⟨hcalls, hclients⟩ := clientInv hr
    have hclient := hclients j
    rw [hj] at hclient ih
    rw [Prod.mk.injEq] at heq
    rw [heq.1, clients_apply] at hq
    obtain rfl : o.peer = q := Option.some.inj hq
    rcases hh.discovers hacts (Server.broadcastInv (freeRun hr))
        (Server.single_changes (freeRun hr)) hcalls (Server.handsOut (freeRun hr)) hj
        hclient.holds.1 (discoveryInv hr j) (ih p rfl) with
      ⟨_, _, _, _, _, _, _, _, _, hlast⟩ | ⟨_, _, _, _, _, _, _, hidle, _⟩ | hu
    · exact hlast
    · simp [hidle]
    · exact fun changes rest h => absurd h (hu.progress changes rest)
  · rcases hp with hp | ⟨_, _, _, _, _, hp⟩
    · exact ih q (hp ▸ hq)
    · rw [hp] at hq
      obtain rfl := Option.some.inj hq
      simp [Peer.new]

/-- Without a change left the branch asks for nothing. -/
theorem request_synchronise_nil (p : Peer A O C) (changes : List PeerChange) :
    (p.synchronise changes []).request = none := by
  obtain ⟨_, _, _, _, hrequest, _⟩ := Peer.discover_spec { p with progress := .idle } changes
  exact hrequest

/-- A client asks for the peers again only from a step of its peer. -/
theorem Moves.discover_request {out : System ι A O C × List (Event ι A O C)}
    (hm : Moves codecs s a out) {k : Nat} {id : Option Id}
    (h : Event.requested j k (.peerDiscover id) ∈ out.2) :
    ∃ p call input o, s.clients j = .running p call ∧ Hears s j p call a input ∧
      p.Acts codecs input o ∧ out = s.apply j o := by
  cases hm with
  | server _ => simp at h
  | answerListener _ _ | giveUp _ _ _ | closed _ _ => simp [put] at h
  | start _ | advertised _ _ | peerListener _ _ | offerListener _ _ | close _ => simp [send] at h
  | act hj hh hacts =>
    obtain ⟨rfl, _, _⟩ := requested_apply.mp h
    exact ⟨_, _, _, _, hj, hh, hacts, rfl⟩

/-- A client asks for the peers again at most once for each message of its peer listener. -/
theorem resyncs_le {ok : System ι A O C → Action ι A O C → Prop}
    (hr : (system ι codecs).Run ok tr s) (j : ι) :
    tr.countP (Event.Requests j Request.discovers) ≤ (peerMessages j tr).length := by
  refine hr.invariant (I := fun tr _ =>
    tr.countP (Event.Requests j Request.discovers) ≤ (peerMessages j tr).length) (by simp) ?_
  intro tr s a t evs hr ih _ hs
  have hm : Moves codecs s a (t, evs) := step_moves hs
  rw [List.countP_append, peerMessages_append, List.length_append]
  refine Nat.add_le_add ih ?_
  by_cases hnone : evs.countP (Event.Requests j Request.discovers) = 0
  · rw [hnone]
    exact Nat.zero_le _
  obtain ⟨e, he, hreq⟩ := List.countP_pos_iff.mp (Nat.pos_of_ne_zero hnone)
  obtain ⟨k, id, rfl⟩ : ∃ k id, e = .requested j k (.peerDiscover id) := by
    cases e with
    | requested i k request =>
      cases request <;> simp [Event.Requests, Request.discovers] at hreq
      exact ⟨k, _, by rw [hreq]⟩
    | _ => simp [Event.Requests] at hreq
  obtain ⟨p, call, input, o, hj, hh, hacts, heq⟩ := hm.discover_request he
  rw [Prod.mk.injEq] at heq
  obtain ⟨rfl, rfl⟩ := heq
  have hrequest := (requested_apply.mp he).2.2
  rcases hacts.discovery with ⟨i, listener, message, rfl, hi, _, rfl⟩ |
    ⟨changes, rest, remotePeers, rfl, hprog, rfl⟩ | hu
  · rw [(countP_apply s j _).2.2, (discoveries_apply s j _).1]
    exact List.countP_le_length.trans (Option.length_toList_le ..)
  · obtain rfl := resync_last hr (by rw [hj]; rfl) hprog
    rw [request_synchronise_nil] at hrequest
    simp at hrequest
  · exact absurd hrequest (hu.request id)

/-- The peer listener of a client has taken as many messages as the client. -/
theorem DiscoveryInv.taken (h : DiscoveryInv tr s j) {p : Peer A O C}
    (hp : (s.clients j).peer? = some p) {listener : Streaming}
    (hl : Task.peerListener listener ∈ p.unorderedFuts) :
    (peerMessages j tr).length = listener.taken := by
  rcases h with hnone | ⟨p', initial, rest, hdisc⟩
  · rw [hnone.messages, ((hnone.peer p hp).listener listener hl)]
    rfl
  · obtain rfl := Option.some.inj (hdisc.peer.symm.trans hp)
    rw [hdisc.messages, hdisc.taken listener hl, List.length_cons]

/-- A client takes one message for each change, and the first one. -/
theorem peerMessages_le {ok : System ι A O C → Action ι A O C → Prop}
    (hr : (system ι codecs).Run ok tr s) (j : ι) :
    (peerMessages j tr).length ≤ (changeLog (serverTrace tr)).length + 1 := by
  refine hr.invariant (I := fun tr _ =>
    (peerMessages j tr).length ≤ (changeLog (serverTrace tr)).length + 1)
    (by simp [peerMessages]) ?_
  intro tr s a t evs hr ih ha hs
  have hm : Moves codecs s a (t, evs) := step_moves hs
  rw [peerMessages_append, List.length_append]
  have hlog : (changeLog (serverTrace tr)).length ≤
      (changeLog (serverTrace (tr ++ evs))).length := by
    rw [serverTrace_append, changeLog_append, List.length_append]
    exact Nat.le_add_right _ _
  have hrest (hnil : peerMessages j evs = []) :
      (peerMessages j tr).length + (peerMessages j evs).length ≤
        (changeLog (serverTrace (tr ++ evs))).length + 1 := by
    rw [hnil, List.length_nil]
    omega
  rcases hm.peer_cases j with ⟨p, call, input, o, hj, hh, hacts, heq⟩ | ⟨hnone, _⟩
  · rw [Prod.mk.injEq] at heq
    obtain ⟨rfl, rfl⟩ := heq
    have hmessages := (discoveries_apply s j o).1
    rcases hacts.discovery with ⟨i, listener, message, rfl, hi, _, rfl⟩ |
      ⟨changes, rest, remotePeers, rfl, _, rfl⟩ | hu
    · -- the message is on the wire of the listener's stream
      have hp : (s.clients j).peer? = some p := by
        rw [hj]
        rfl
      have htaken := (discoveryInv hr j).taken hp (List.mem_of_getElem? hi)
      have hlt := (List.getElem?_eq_some_iff.mp (hh.peer_message hi)).1
      have hwire : (s.server.peerWire listener.source).length ≤
          (changeLog (serverTrace tr)).length + 1 := by
        unfold Server.peerWire
        cases hst : s.server.streams[listener.source]? with
        | none => exact Nat.zero_le _
        | some st =>
          exact Server.items_le_changes (freeRun hr) st (List.mem_of_getElem? hst)
      rw [hmessages]
      refine (Nat.add_le_add_left (Option.length_toList_le ..) _).trans ?_
      omega
    · exact hrest (hmessages.trans (by rw [Peer.synchronise_consumed]; rfl))
    · refine hrest (hmessages.trans ?_)
      cases hc : o.consumed with
      | none => rfl
      | some state =>
        cases state with
        | peerListener listener changes => exact absurd hc (hu.consumed listener changes)
        | _ => rfl
  · refine hrest (discoveries_nil fun e he => ⟨?_, ?_⟩).1
    · rintro state rfl
      simpa [Event.ofPeer] using hnone _ he
    · rintro task rfl
      simpa [Event.ofPeer] using hnone _ he

/-! ## Totals -/

/-- A client consumes results of callbacks, signals and messages of its peer listener. -/
theorem consumed_kinds (j : ι) (tr : List (Event ι A O C)) :
    tr.countP (Event.Consumes j fun _ => true) ≤
      tr.countP (Event.Consumes j fun state => state.relisten.isNone) +
        tr.countP (Event.Consumes j SignallingState.isSignal) + (peerMessages j tr).length := by
  induction tr with
  | nil => simp
  | cons e tr ih =>
    have hcons : peerMessages j (e :: tr) = peerMessages j [e] ++ peerMessages j tr :=
      peerMessages_append j [e] tr
    rw [hcons, List.length_append]
    simp only [List.countP_cons]
    have hone : (if Event.Consumes j (fun _ => true) e = true then 1 else 0) ≤
        (if Event.Consumes j (fun state => state.relisten.isNone) e = true then 1 else 0) +
          (if Event.Consumes j SignallingState.isSignal e = true then 1 else 0) +
          (peerMessages j [e]).length := by
      cases e with
      | consumed i state =>
        by_cases hij : i = j
        · cases state <;> simp [Event.Consumes, peerMessages, hij, SignallingState.relisten,
            SignallingState.isSignal, SignallingState.changes]
        · simp [Event.Consumes, hij]
      | _ => simp [Event.Consumes]
    omega

/-- A client sends the requests of `start_peer`, signals, resyncs and teardowns. -/
theorem requests_kinds (j : ι) (tr : List (Event ι A O C)) :
    tr.countP (Event.Requests j fun _ => true) ≤
      (∑ n ∈ Finset.range 4, tr.countP (Event.Requests j fun r => decide (r.stage = n + 1))) +
        tr.countP (Event.Requests j Request.isSignal) +
        tr.countP (Event.Requests j Request.discovers) +
        tr.countP (Event.Requests j Request.tearsDown) := by
  induction tr with
  | nil => simp
  | cons e tr ih =>
    simp only [List.countP_cons, Finset.sum_add_distrib]
    have hone : (if Event.Requests j (fun _ => true) e = true then 1 else 0) ≤
        (∑ n ∈ Finset.range 4,
            if Event.Requests j (fun r => decide (r.stage = n + 1)) e = true then 1 else 0) +
          (if Event.Requests j Request.isSignal e = true then 1 else 0) +
          (if Event.Requests j Request.discovers e = true then 1 else 0) +
          (if Event.Requests j Request.tearsDown e = true then 1 else 0) := by
      cases e with
      | requested i k request =>
        by_cases hij : i = j
        · rcases request with _ | _ | _ | _ | _ | ⟨_ | _, _⟩ <;>
            simp [Event.Requests, hij, Request.stage, Request.isSignal,
              Request.discovers, Request.tearsDown]
        · simp [Event.Requests, hij]
      | _ => simp [Event.Requests]
    omega

/-- A client calls a callback for every signal that it consumes. -/
theorem signals_le_called {ok : System ι A O C → Action ι A O C → Prop}
    (hr : (system ι codecs).Run ok tr s) (j : ι) :
    tr.countP (Event.Consumes j SignallingState.isSignal) ≤
      tr.countP (Event.Calls j Task.isCallback) := by
  refine (Nat.le_add_right _ _).trans
    (ledger hr j (m := fun _ => 0) (fun e he => ?_) (fun _ _ _ _ => rfl) ?_)
  · cases e <;> simp_all [Event.Consumes, Event.ofPeer]
  · intro s a p call input out _ _ _ hacts
    obtain ⟨hcalls, hconsumes, _⟩ := countP_apply s j out
    rw [hcalls, hconsumes, Nat.add_zero, Nat.zero_add]
    cases hcons : out.consumed with
    | none => simp
    | some state =>
      obtain ⟨p', rfl⟩ := hacts.of_consumed hcons
      cases state <;> simp [SignallingState.isSignal, Peer.step, Task.isCallback]

/-- Nobody requests a teardown in a faultless run. -/
theorem no_teardowns (hr : (system ι codecs).Run Faultless tr s) (j : ι) :
    tr.countP (Event.Requests j Request.tearsDown) = 0 := by
  refine hr.invariant (I := fun tr _ => tr.countP (Event.Requests j Request.tearsDown) = 0)
    (by simp) ?_
  intro tr s a t evs _ ih ha hs
  rw [List.countP_append, ih, Nat.zero_add, List.countP_eq_zero]
  intro e he hreq
  cases e with
  | requested i k request =>
    rw [Event.Requests, Bool.and_eq_true] at hreq
    rw [(step_moves hs).requests ha.2 he] at hreq
    simp at hreq
  | _ => simp [Event.Requests] at hreq

section

variable (hr : (system ι codecs).Run Faultless tr s) (hn : allocations (serverTrace tr) < 2 ^ 64)
  (hanswer : codecs.answer.Inverts) (hoffer : codecs.offer.Inverts)
  (hcandidates : codecs.candidates.Inverts)

include hr hn hanswer hoffer hcandidates

/-- A client completes no more callbacks than five for each identifier that was drawn. -/
theorem completed_le (j : ι) :
    tr.countP (Event.Consumes j fun state => state.relisten.isNone) ≤
      5 * allocations (serverTrace tr) := by
  have hledger := consumed_le_called (honest hr) j (P := Task.isCallback)
    (Q := fun state => state.relisten.isNone) (fun _ h => h)
    (fun _ h => Option.isNone_iff_eq_none.mp h)
    fun task state hyield _ _ => by cases task <;> simp_all [Task.yields, Task.isCallback]
  exact (Nat.le_add_right _ _).trans
    (hledger.trans (called_le (honest hr) hn hanswer hoffer hcandidates j))

/-- What a client consumes is bounded by the identifiers that were drawn. -/
theorem consumed_le (j : ι) :
    tr.countP (Event.Consumes j fun _ => true) ≤ 11 * allocations (serverTrace tr) + 1 := by
  have hkinds := consumed_kinds j tr
  have hcompleted := completed_le hr hn hanswer hoffer hcandidates j
  have hsignals := (signals_le_called hr j).trans
    (called_le (honest hr) hn hanswer hoffer hcandidates j)
  have hmessages := peerMessages_le hr j
  have hchanges := changes_le_allocations hr
  omega

/-- What a client requests is bounded by the identifiers that were drawn. -/
theorem requests_le (j : ι) :
    tr.countP (Event.Requests j fun _ => true) ≤ 6 * allocations (serverTrace tr) + 5 := by
  have hkinds := requests_kinds j tr
  have hstages : (∑ n ∈ Finset.range 4,
      tr.countP (Event.Requests j fun r => decide (r.stage = n + 1))) ≤ 4 := by
    refine (Finset.sum_le_card_nsmul (Finset.range 4) _ 1 fun n hmem => ?_).trans (by simp)
    rw [Finset.mem_range] at hmem
    refine (started_once hr j (by omega)).trans ?_
    split <;> omega
  have hsignals : tr.countP (Event.Requests j Request.isSignal) ≤
      tr.countP (Event.Consumes j fun state => state.relisten.isNone) := by
    refine requested_le_consumed hr hanswer hoffer hcandidates j (fun _ h => h) ?_
    intro slot state sig task _ hrelay _
    cases state <;> simp_all [SignallingState.relayed, SignallingState.relisten]
  have hcompleted := completed_le hr hn hanswer hoffer hcandidates j
  have hresyncs := (resyncs_le hr j).trans (peerMessages_le hr j)
  have hchanges := changes_le_allocations hr
  have hteardowns := no_teardowns hr j
  omega

end

end System

end JustWebrtc.Signalling
