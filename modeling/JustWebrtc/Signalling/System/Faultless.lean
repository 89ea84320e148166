import JustWebrtc.Signalling.Server.Listening
import JustWebrtc.Signalling.System.Agreement

/-!
# Runs without faults

Where no stream is dropped, no client closes its peer, the transport loses nothing and callbacks
succeed, a client that has a peer listens. A callback that it has called is queued until its
state is consumed, a description is signalled once it has been returned, and the client is told
what has become of the signal.
-/

namespace JustWebrtc.Signalling

variable {ι A O C : Type*} [DecidableEq ι]

/-- What a suspended step awaits is no teardown. -/
theorem Progress.Awaits.tearsDown {id : Id} {progress : Progress} {request : Request}
    (h : progress.Awaits id request) : request.tearsDown = false := by
  cases progress with
  | idle => exact h.elim
  | resyncing _ _ =>
    rw [show request = .peerDiscover (some id) from h]
    rfl
  | signallingOffer _ | signallingAnswer _ =>
    obtain ⟨signal, rfl, _⟩ := h
    rfl

namespace System

/-- A stream is dropped, the transport or a callback fails, or a client closes its peer. -/
def Action.faulty : Action ι A O C → Bool
  | .server a => a.drops
  | .fail _ _ | .lose _ _ _ | .finish _ _ (.error _) | .close _ => true
  | .start _ | .reply _ | .listen _ _ | .finish _ _ (.ok _) => false

/-- An honest step without a fault. -/
def Faultless (s : System ι A O C) (a : Action ι A O C) : Prop := s.Honest a ∧ a.faulty = false

instance (s : System ι A O C) (a : Action ι A O C) : Decidable (s.Faultless a) :=
  inferInstanceAs (Decidable (s.Honest a ∧ _ = false))

variable {codecs : Codecs A O C} {tr evs : List (Event ι A O C)} {s t : System ι A O C}
  {a : Action ι A O C} {j : ι} {slot : Slot}

/-- A faultless run is honest. -/
theorem honest (hr : (system ι codecs).Run Faultless tr s) : (system ι codecs).Run Honest tr s :=
  hr.mono fun _ _ h => h.1

/-! ## The server of a faultless run -/

/-- Only a client that closes requests a teardown. -/
theorem Moves.requests {out : System ι A O C × List (Event ι A O C)} (hm : Moves codecs s a out)
    (ha : a.faulty = false) {k : Nat} {request : Request}
    (h : Event.requested j k request ∈ out.2) : request.tearsDown = false := by
  cases hm with
  | server _ => simp at h
  | answerListener _ _ | giveUp _ _ _ | closed _ _ => simp [put] at h
  | start _ | advertised _ _ | peerListener _ _ | offerListener _ _ =>
    simp only [send, List.cons_append, List.nil_append, List.mem_cons, List.not_mem_nil,
      Event.requested.injEq, reduceCtorEq, or_false, false_or] at h
    rw [h.2.2]
    rfl
  | close _ => simp [Action.faulty] at ha
  | act _ _ hacts =>
    obtain ⟨_, _, hreq⟩ := requested_apply.mp h
    have hset := hacts.spec.2
    rw [Outcome.Settled, hreq] at hset
    exact hset.tearsDown

/-- A faultless run keeps everything at the server and removes no entry. -/
theorem kept (hr : (system ι codecs).Run Faultless tr s) :
    s.server.Kept ∧ ∀ id, Event.server (.removed id) ∉ tr := by
  refine hr.invariant (I := fun tr s => s.server.Kept ∧ ∀ id, Event.server (.removed id) ∉ tr)
    ?_ ?_
  · exact ⟨⟨by simp [system, Server.new], by simp [system, Server.new],
      by simp [system, Server.new]⟩, by simp⟩
  · intro tr s a t evs _ h ha hs
    have hm : Moves codecs s a (t, evs) := step_moves hs
    have hnone {id : Id} (he : Signalling.Event.removed id ∉ serverTrace evs) :
        Event.server (.removed id) ∉ tr ++ evs := by
      rw [List.mem_append, not_or]
      exact ⟨h.2 id, fun hmem => he (mem_serverTrace.mpr hmem)⟩
    rcases hm.server_moves with ⟨hserver, hnil⟩ | ⟨b, hb, hab⟩
    · exact ⟨hserver ▸ h.1, fun id => hnone (by simp [hnil])⟩
    · have hgood : b.drops = false ∧ b.tearsDown = false := by
        rcases hab with rfl | ⟨i, r, rfl, hreq⟩
        · refine ⟨ha.2, ?_⟩
          cases b with
          | receive request => exact absurd ha.1.1 (by simp [Action.outside])
          | _ => rfl
        · exact ⟨rfl, hm.requests ha.2 hreq⟩
      obtain ⟨hkept, hrem⟩ := hb.kept hgood.1 hgood.2 h.1
      exact ⟨hkept, fun id => hnone (hrem id)⟩

/-- What a client was given stands in a faultless run. -/
theorem standing (hr : (system ι codecs).Run Faultless tr s)
    (hn : allocations (serverTrace tr) < 2 ^ 64) {id : Id} (hj : (s.clients j).localId = some id) :
    Standing tr j id := by
  obtain ⟨k, hk, hret⟩ := ((clientInv hr).2 j).source id hj
  obtain ⟨x, hx, hins⟩ := (Server.identityInv (freeRun hr) hn).returned k _ hret
  obtain rfl := Option.some.inj hx
  obtain ⟨before, after, htr⟩ := List.append_of_mem hins
  refine ⟨k, hk, before, after, htr, fun hrem => (kept hr).2 id ?_⟩
  rw [← mem_serverTrace, htr]
  exact List.mem_append_right _ (List.mem_cons_of_mem _ hrem)

/-- A client that has a peer listens in both slots. -/
theorem listens (hr : (system ι codecs).Run Faultless tr s)
    (hn : allocations (serverTrace tr) < 2 ^ 64) {p : Peer A O C}
    (hp : (s.clients j).peer? = some p) (slot : Slot) : s.server.Listens slot p.localId := by
  obtain ⟨htab, hdel⟩ := Server.deliveryInv (freeRun hr) hn
  obtain ⟨n, _, hst⟩ := standing hr hn (Client.localId_of_peer? hp)
  have hmem := (Server.entriesInv (freeRun hr)).standing n _ hst
  obtain ⟨peer, hpeer⟩ := Option.isSome_iff_exists.mp (Finmap.lookup_isSome.mpr hmem)
  have hreads := readsInv hr slot j
  rw [ReadsInv, hp] at hreads
  obtain ⟨c, m, hreads⟩ := hreads
  exact Server.listens_iff.mpr ⟨peer, c, hpeer,
    htab.back _ peer slot c (hreads.opened.key (clientInv hr).1 hdel) hpeer⟩

/-! ## The clients of a faultless run -/

/-- A client of whose peer something is recorded has a peer. -/
theorem peer_of_event {ok : System ι A O C → Action ι A O C → Prop}
    (hr : (system ι codecs).Run ok tr s) {e : Event ι A O C} (he : e ∈ tr)
    (hj : e.ofPeer j = true) : ∃ p, (s.clients j).peer? = some p := by
  refine hr.invariant (I := fun tr s => e ∈ tr → ∃ p, (s.clients j).peer? = some p) (by simp) ?_ he
  intro tr s a t evs _ h _ hs he
  have hm : Moves codecs s a (t, evs) := step_moves hs
  rcases hm.peer_cases j with ⟨p, call, input, o, _, _, _, heq⟩ | ⟨hnone, hp⟩
  · rw [Prod.mk.injEq] at heq
    rw [heq.1, clients_apply]
    exact ⟨o.peer, rfl⟩
  · rcases hp with hp | ⟨_, id, i, c, c', hp⟩
    · rw [hp]
      refine h ((List.mem_append.mp he).resolve_right fun hmem => ?_)
      rw [hnone e hmem] at hj
      simp at hj
    · exact ⟨_, hp⟩

/-- A client that runs after a step has taken an input, or it has recorded nothing and ran
before or had no peer. -/
theorem Moves.running {out : System ι A O C × List (Event ι A O C)} (hm : Moves codecs s a out)
    {p : Peer A O C} {call : Option Nat} (hj : out.1.clients j = .running p call) :
    (∃ p' call' input o, s.clients j = .running p' call' ∧ Hears s j p' call' a input ∧
        p'.Acts codecs input o ∧ out = s.apply j o) ∨
      ((∀ e ∈ out.2, e.ofPeer j = false) ∧
        (s.clients j = .running p call ∨ (s.clients j).peer? = none)) := by
  rcases hm.peer_cases j with hact | ⟨hnone, _⟩
  · exact Or.inl hact
  · by_cases hown : a.client = some j
    · cases hm with
      | server _ => simp [Action.client] at hown
      | @start j' _ | @advertised j' _ _ _ _ | @peerListener j' _ _ _ _ _
      | @offerListener j' _ _ _ _ _ _ | @close j' _ _ =>
        obtain rfl : j' = j := Option.some.inj hown
        simp [send] at hj
      | @answerListener j' _ _ _ _ _ hj' _ =>
        obtain rfl : j' = j := Option.some.inj hown
        exact Or.inr ⟨hnone, Or.inr (by rw [hj']; rfl)⟩
      | @giveUp j' k status _ _ _ ha =>
        obtain rfl : j' = j := by
          rcases ha with rfl | ⟨rfl, _⟩ <;> exact Option.some.inj hown
        simp [put] at hj
      | @closed j' q k _ response _ ha =>
        obtain rfl : j' = j := by
          rcases ha with rfl | rfl <;> exact Option.some.inj hown
        simp [put] at hj
      | @act j' q call' _ input o hj' hh hacts =>
        obtain rfl : j' = j := by
          rw [hh.client] at hown
          exact Option.some.inj hown
        exact Or.inl ⟨q, call', input, o, hj', hh, hacts, rfl⟩
    · rw [(hm.others hown).1] at hj
      exact Or.inr ⟨hnone, Or.inl hj⟩

/-- What every step that consumes a state records, is recorded once it has been consumed. -/
theorem of_consumed {ok : System ι A O C → Action ι A O C → Prop}
    (hr : (system ι codecs).Run ok tr s) {state : SignallingState A O C}
    {R : Event ι A O C → Prop}
    (hstep : ∀ {s : System ι A O C} {p : Peer A O C} {input : Input A O C} {out : Outcome A O C},
      p.Acts codecs input out → out.consumed = some state → ∃ e ∈ (s.apply j out).2, R e)
    (h : Event.consumed j state ∈ tr) : ∃ e ∈ tr, R e := by
  refine hr.invariant (I := fun tr _ => Event.consumed j state ∈ tr → ∃ e ∈ tr, R e) (by simp)
    ?_ h
  intro tr s a t evs _ ih _ hs h
  have hm : Moves codecs s a (t, evs) := step_moves hs
  rcases List.mem_append.mp h with hold | hnew
  · obtain ⟨e, he, hR⟩ := ih hold
    exact ⟨e, List.mem_append_left _ he, hR⟩
  · rcases hm.peer_cases j with ⟨p, call, input, o, _, _, hacts, heq⟩ | ⟨hnone, _⟩
    · rw [Prod.mk.injEq] at heq
      rw [heq.2] at hnew ⊢
      obtain ⟨e, he, hR⟩ := hstep (s := s) hacts (consumed_apply.mp hnew).2
      exact ⟨e, List.mem_append_right _ he, hR⟩
    · simpa [Event.ofPeer] using hnone _ hnew

/-- Where all payloads survive the wire, a description that a callback has returned has been
signalled to the peer it was returned for. -/
theorem signalled {ok : System ι A O C → Action ι A O C → Prop}
    (hr : (system ι codecs).Run ok tr s) (hcodecs : codecs.Faithful)
    {state : SignallingState A O C} (h : Event.consumed j state ∈ tr) (id : Id)
    (hrelay : (state.relayed id).isSome = true) :
    ∃ slot k r sig task, Event.requested j k (.signal slot (some r) (some sig)) ∈ tr ∧
      state.remoteId = some r ∧ state.relayed sig.sender = some task ∧
      codecs.received slot sig = some task := by
  have hrequested : ∃ e ∈ tr, ∃ slot k r sig task,
      e = Event.requested j k (.signal slot (some r) (some sig)) ∧
        state.remoteId = some r ∧ state.relayed sig.sender = some task ∧
        codecs.received slot sig = some task := by
    refine of_consumed hr (fun {s p input out} hacts hcons => ?_) h
    obtain ⟨slot, remotePeer, signal, hreq⟩ := hacts.signals hcodecs hcons hrelay
    obtain ⟨state', task, sig, hcons', hr, rfl, hsender, hrelayed, hrec⟩ :=
      hacts.sends hcodecs.answer.inverts hcodecs.offer.inverts hcodecs.candidates.inverts hreq
    obtain rfl := Option.some.inj (hcons.symm.trans hcons')
    obtain ⟨r, rfl⟩ : ∃ r, remotePeer = some r := by
      cases state <;> simp_all [SignallingState.relayed, SignallingState.remoteId]
    exact ⟨_, requested_apply.mpr ⟨rfl, rfl, hreq⟩, slot, _, r, sig, task, rfl, hr.symm,
      hsender ▸ hrelayed, hrec⟩
  obtain ⟨_, he, slot, k, r, sig, task, rfl, hrest⟩ := hrequested
  exact ⟨slot, k, r, sig, task, he, hrest⟩

/-- Once `receive_answer` has completed, `local_sig_cplt` has been called. -/
theorem localSigCplt_called {ok : System ι A O C → Action ι A O C → Prop}
    (hr : (system ι codecs).Run ok tr s) {r : Id}
    (h : Event.consumed j (.receiveAnswer r) ∈ tr) :
    Event.called j (.localSigCplt r) ∈ tr := by
  have hcalled : ∃ e ∈ tr, e = Event.called j (.localSigCplt r) := by
    refine of_consumed hr (fun {s p input out} hacts hcons => ?_) h
    obtain ⟨p', rfl⟩ := hacts.of_consumed hcons
    exact ⟨_, called_apply.mpr ⟨rfl, by simp [Peer.step]⟩, rfl⟩
  obtain ⟨_, he, rfl⟩ := hcalled
  exact he

/-- What a client has called is a callback. -/
theorem called_isCallback {ok : System ι A O C → Action ι A O C → Prop}
    (hr : (system ι codecs).Run ok tr s) {task : Task A O C} (h : Event.called j task ∈ tr) :
    task.isCallback = true := by
  refine hr.invariant (I := fun tr _ => Event.called j task ∈ tr → task.isCallback = true)
    (by simp) ?_ h
  intro tr s a t evs _ ih _ hs h
  have hm : Moves codecs s a (t, evs) := step_moves hs
  rcases List.mem_append.mp h with hold | hnew
  · exact ih hold
  · rcases hm.peer_cases j with ⟨p, call, input, o, _, _, hacts, heq⟩ | ⟨hnone, _⟩
    · rw [Prod.mk.injEq] at heq
      rw [heq.2, called_apply] at hnew
      exact hacts.called hnew.2
    · simpa [Event.ofPeer] using hnone _ hnew

/-- A callback that a client has called is queued, or its state has been consumed. -/
theorem queued_or_consumed (hr : (system ι codecs).Run Faultless tr s) {task : Task A O C}
    (h : Event.called j task ∈ tr) :
    (∃ p ∈ (s.clients j).peer?, task ∈ p.unorderedFuts) ∨
      ∃ state, Event.consumed j state ∈ tr ∧ task.yields state = true ∧
        state.remoteId = task.remoteId := by
  refine hr.invariant (I := fun tr s => Event.called j task ∈ tr →
    (∃ p ∈ (s.clients j).peer?, task ∈ p.unorderedFuts) ∨
      ∃ state, Event.consumed j state ∈ tr ∧ task.yields state = true ∧
        state.remoteId = task.remoteId) (by simp) ?_ h
  intro tr s a t evs hr ih ha hs h
  have hm : Moves codecs s a (t, evs) := step_moves hs
  have hcall := called_isCallback (hr.step ha hs) h
  have hdone (hex : ∃ state, Event.consumed j state ∈ tr ∧ task.yields state = true ∧
      state.remoteId = task.remoteId) : ∃ state, Event.consumed j state ∈ tr ++ evs ∧
      task.yields state = true ∧ state.remoteId = task.remoteId := by
    obtain ⟨state, hcons, hrest⟩ := hex
    exact ⟨state, List.mem_append_left _ hcons, hrest⟩
  rcases hm.peer_cases j with ⟨p, call, input, o, hj, hh, hacts, heq⟩ | ⟨hnone, hp⟩
  · rw [Prod.mk.injEq] at heq
    obtain ⟨rfl, rfl⟩ := heq
    have hok : ∀ i e, input ≠ .callback i (.error e) := by
      rintro i e rfl
      cases hh
      exact absurd ha.2 (by simp [Action.faulty])
    have hmem : (∃ state, Event.consumed j state ∈ tr ∧ task.yields state = true ∧
        state.remoteId = task.remoteId) ∨ task ∈ p.unorderedFuts ∨ task ∈ o.called := by
      rcases List.mem_append.mp h with hold | hnew
      · rw [hj] at ih
        rcases ih hold with ⟨_, ⟨⟩, hq⟩ | hex
        · exact Or.inr (Or.inl hq)
        · exact Or.inl hex
      · exact Or.inr (Or.inr (called_apply.mp hnew).2)
    rcases hmem with hold | hmem
    · exact Or.inr (hdone hold)
    · rw [clients_apply]
      rcases hacts.keeps (ha.1.input hj hh) hok hcall hmem with hq | ⟨state, hcons, hrest⟩
      · exact Or.inl ⟨o.peer, rfl, hq⟩
      · exact Or.inr ⟨state, List.mem_append_right _ (consumed_apply.mpr ⟨rfl, hcons⟩), hrest⟩
  · have hold : Event.called j task ∈ tr := by
      refine (List.mem_append.mp h).resolve_right fun hmem => ?_
      simpa [Event.ofPeer] using hnone _ hmem
    rcases ih hold with ⟨p, hmem, hq⟩ | hex
    · rcases hp with hp | ⟨hp, _⟩
      · exact Or.inl ⟨p, hp ▸ hmem, hq⟩
      · rw [hp] at hmem
        simp at hmem
    · exact Or.inr (hdone hex)

omit [DecidableEq ι] in
/-- A peer that takes an input while it awaits the answer to a signal is answered. -/
theorem Hears.answered {p : Peer A O C} {k : Nat} {input : Input A O C} {out : Outcome A O C}
    (hh : Hears s j p (some k) a input) (ha : a.faulty = false) (hacts : p.Acts codecs input out)
    {x : Id} {sig : Signal}
    (hwait : p.progress.Awaits p.localId (.signal slot (some x) (some sig))) :
    ∃ result, s.Returned k result ∧
      (result = .ok (.signal .answer) → Task.remoteSigCplt x ∈ out.called) := by
  have hbusy : p.progress ≠ .idle := by
    intro hidle
    rw [hidle] at hwait
    exact hwait
  cases hacts with
  | skipOffer hidle _ | skipAnswer hidle _ | fail hidle _ _ | complete hidle _ _ =>
    exact absurd hidle hbusy
  | @resume response _ hres =>
    cases hh with
    | failure _ => simp [Action.faulty] at ha
    | response hk hret =>
      rw [Option.some.injEq] at hk
      subst hk
      refine ⟨response, hret, ?_⟩
      rintro rfl
      cases Peer.resume_resumes hres with
      | answered hprog =>
        rw [hprog] at hwait
        obtain ⟨sig', heq, _⟩ := hwait
        obtain ⟨_, hx, _⟩ := Request.signal.inj heq
        rw [Option.some.inj hx]
        exact List.mem_singleton_self _

/-- A client that has sent a signal awaits the answer, or it has been answered, and after a
signalled answer `remote_sig_cplt` has been called. -/
theorem signal_answered (hr : (system ι codecs).Run Faultless tr s) {p : Peer A O C}
    {call : Option Nat} (hj : s.clients j = .running p call) {k : Nat} {x : Id} {sig : Signal}
    (h : Event.requested j k (.signal slot (some x) (some sig)) ∈ tr) :
    call = some k ∨ ∃ result, s.Returned k result ∧
      (result = .ok (.signal .answer) → Event.called j (.remoteSigCplt x) ∈ tr) := by
  refine hr.invariant (I := fun tr s => ∀ p call, s.clients j = .running p call →
    Event.requested j k (.signal slot (some x) (some sig)) ∈ tr →
    call = some k ∨ ∃ result, s.Returned k result ∧
      (result = .ok (.signal .answer) → Event.called j (.remoteSigCplt x) ∈ tr))
    (by simp) ?_ p call hj h
  intro tr s a t evs hr ih ha hs p call hj h
  have hm : Moves codecs s a (t, evs) := step_moves hs
  have hkept (hex : ∃ result, s.Returned k result ∧
      (result = .ok (.signal .answer) → Event.called j (.remoteSigCplt x) ∈ tr)) :
      ∃ result, t.Returned k result ∧
        (result = .ok (.signal .answer) → Event.called j (.remoteSigCplt x) ∈ tr ++ evs) := by
    obtain ⟨result, hret, hcalled⟩ := hex
    exact ⟨result, hm.returned hret, fun hok => List.mem_append_left _ (hcalled hok)⟩
  rcases hm.running hj with ⟨p', call', input, o, hj', hh, hacts, heq⟩ | ⟨hnone, hbefore⟩
  · rw [Prod.mk.injEq] at heq
    obtain ⟨rfl, rfl⟩ := heq
    rcases List.mem_append.mp h with hold | hnew
    · rcases ih p' call' hj' hold with rfl | hex
      · obtain ⟨hcalls, hclients⟩ := clientInv hr
        have hclient := hclients j
        rw [hj'] at hclient
        obtain ⟨result, hret, hcalled⟩ :=
          hh.answered ha.2 hacts (hclient.awaits_request hcalls rfl hold)
        exact Or.inr ⟨result, hm.returned hret, fun hok =>
          List.mem_append_right _ (called_apply.mpr ⟨rfl, hcalled hok⟩)⟩
      · exact Or.inr (hkept hex)
    · obtain ⟨_, rfl, hreq⟩ := requested_apply.mp hnew
      rw [clients_apply, hreq] at hj
      exact Or.inl (Client.running.inj hj).2.symm
  · have hold : Event.requested j k (.signal slot (some x) (some sig)) ∈ tr := by
      refine (List.mem_append.mp h).resolve_right fun hmem => ?_
      simpa [Event.ofPeer, Request.isSignal] using hnone _ hmem
    rcases hbefore with hj' | hno
    · exact (ih p call hj' hold).imp_right hkept
    · obtain ⟨q, hq⟩ := peer_of_event hr hold (j := j) (by simp [Event.ofPeer, Request.isSignal])
      simp [hno] at hq

end System

end JustWebrtc.Signalling
