import JustWebrtc.Signalling.Client.Peer

/-!
# What a step does to the queued futures

A step takes the completed future out of the queue, puts a listener back after its
message, and queues one future for each callback it calls. It is suspended exactly when it
has sent a request, and remembers which one it awaits.
-/

namespace JustWebrtc.Signalling

variable {A O C : Type*}

/-- The listener future that is queued again after its message. -/
def SignallingState.relisten : SignallingState A O C → Option (Task A O C)
  | .peerListener listener _ => some (.peerListener listener)
  | .offerListener listener _ _ => some (.offerListener listener)
  | .answerListener listener _ _ => some (.answerListener listener)
  | _ => none

/-- A callback's state puts no listener back. -/
theorem Task.relisten_of_yields {task : Task A O C} {state : SignallingState A O C}
    (h : task.yields state = true) : state.relisten = none := by
  cases state with
  | peerListener _ _ | offerListener _ _ _ | answerListener _ _ _ =>
    cases task <;> simp [Task.yields] at h
  | _ => rfl

/-- A listener future and the same one after a message. -/
def Task.Relistens : Task A O C → Task A O C → Prop
  | .peerListener listener, .peerListener listener' => listener' = listener.message
  | .offerListener listener, .offerListener listener' => listener' = listener.message
  | .answerListener listener, .answerListener listener' => listener' = listener.message
  | _, _ => False

/-- The kinds of listener futures. -/
inductive Listener
  | peer
  | signal (slot : Slot)
  deriving DecidableEq, Repr

/-- The kind and the stream of a listener future. -/
def Task.listener : Task A O C → Option (Listener × Streaming)
  | .peerListener listener => some (.peer, listener)
  | .offerListener listener => some (.signal .offer, listener)
  | .answerListener listener => some (.signal .answer, listener)
  | _ => none

/-- The future is a listener of this kind. -/
def Task.listensTo (kind : Listener) (task : Task A O C) : Bool :=
  task.listener.any fun l => l.1 = kind

theorem Task.listener_of_callback {task : Task A O C} (h : task.isCallback = true) :
    task.listener = none := by
  cases task <;> simp_all [Task.isCallback, Task.listener]

theorem Task.Relistens.listener {task task' : Task A O C} (h : task.Relistens task') :
    ∃ kind listener, task.listener = some (kind, listener) ∧
      task'.listener = some (kind, listener.message) := by
  cases task <;> cases task' <;> simp_all [Task.Relistens, Task.listener]

/-- A suspended step of the peer `id` awaits the response to this request. -/
def Progress.Awaits (id : Id) : Progress → Request → Prop
  | .idle, _ => False
  | .resyncing _ _, request => request = .peerDiscover (some id)
  | .signallingOffer remoteId, request =>
    ∃ signal, request = .signalOffer (some remoteId) (some signal) ∧ signal.sender = id
  | .signallingAnswer remoteId, request =>
    ∃ signal, request = .signalAnswer (some remoteId) (some signal) ∧ signal.sender = id

/-- The step has sent what it awaits, or awaits nothing. -/
def Outcome.Settled (id : Id) (out : Outcome A O C) : Prop :=
  match out.request with
  | none => out.peer.progress = .idle
  | some request => out.peer.progress.Awaits id request

namespace Peer

variable {codecs : Codecs A O C} {p : Peer A O C}

@[simp] theorem localId_push (p : Peer A O C) (tasks : List (Task A O C)) :
    (p.push tasks).localId = p.localId := rfl

@[simp] theorem progress_push (p : Peer A O C) (tasks : List (Task A O C)) :
    (p.push tasks).progress = p.progress := rfl

@[simp] theorem discoveredPeers_push (p : Peer A O C) (tasks : List (Task A O C)) :
    (p.push tasks).discoveredPeers = p.discoveredPeers := rfl

@[simp] theorem firstDiscovery_push (p : Peer A O C) (tasks : List (Task A O C)) :
    (p.push tasks).firstDiscovery = p.firstDiscovery := rfl

@[simp] theorem unorderedFuts_push (p : Peer A O C) (tasks : List (Task A O C)) :
    (p.push tasks).unorderedFuts = p.unorderedFuts ++ tasks := rfl

/-- The end of the peer listener branch calls what it queues, and the step has returned. -/
theorem discover_spec (p : Peer A O C) (peerChanges : List PeerChange) :
    (p.discover peerChanges).peer.localId = p.localId ∧
      (p.discover peerChanges).peer.progress = p.progress ∧
      (p.discover peerChanges).peer.discoveredPeers = p.discoveredPeers ∧
      (p.discover peerChanges).peer.firstDiscovery = false ∧
      (p.discover peerChanges).request = none ∧
      (p.discover peerChanges).peer.unorderedFuts =
        p.unorderedFuts ++ (p.discover peerChanges).called ∧
      (p.discover peerChanges).called =
        if p.firstDiscovery then createOfferTasks peerChanges else [] := by
  unfold discover
  by_cases hfirst : p.firstDiscovery = true
  · simp [hfirst]
  · rw [Bool.not_eq_true] at hfirst
    simp [hfirst]

/-- The peer listener branch calls what it queues and is suspended only by a resync. -/
theorem synchronise_spec (p : Peer A O C) (peerChanges rest : List PeerChange) :
    (p.synchronise peerChanges rest).peer.localId = p.localId ∧
      (p.synchronise peerChanges rest).Settled p.localId ∧
      (p.synchronise peerChanges rest).peer.unorderedFuts =
        p.unorderedFuts ++ (p.synchronise peerChanges rest).called := by
  rcases p.synchronise_cases peerChanges rest with ⟨discovered, h, _⟩ | ⟨discovered, rest', h, _⟩
  · rw [h]
    obtain ⟨hid, hprog, _, _, hreq, hfuts, _⟩ :=
      discover_spec { p with discoveredPeers := discovered, progress := .idle } peerChanges
    refine ⟨hid, ?_, hfuts⟩
    rw [Outcome.Settled, hreq]
    exact hprog
  · rw [h]
    exact ⟨rfl, rfl, (List.append_nil _).symm⟩

/-- The requests of a peer carry its own identifier. -/
theorem signalOffer_eq {id remoteId : Id} {offerSet : O × C} {request : Request}
    (h : signalOffer codecs id remoteId offerSet = some request) :
    ∃ offer candidates, codecs.offer.serialize offerSet.1 = some offer ∧
      codecs.candidates.serialize offerSet.2 = some candidates ∧
      request = .signalOffer (some remoteId) (some ⟨id, offer, candidates⟩) := by
  unfold signalOffer at h
  split at h
  · rename_i candidates offer hc ho
    rw [Option.some.injEq] at h
    exact ⟨offer, candidates, ho, hc, h.symm⟩
  · simp only [reduceCtorEq] at h

@[inherit_doc signalOffer_eq]
theorem signalAnswer_eq {id remoteId : Id} {answerSet : A × C} {request : Request}
    (h : signalAnswer codecs id remoteId answerSet = some request) :
    ∃ answer candidates, codecs.answer.serialize answerSet.1 = some answer ∧
      codecs.candidates.serialize answerSet.2 = some candidates ∧
      request = .signalAnswer (some remoteId) (some ⟨id, answer, candidates⟩) := by
  unfold signalAnswer at h
  split at h
  · rename_i candidates answer hc ha
    rw [Option.some.injEq] at h
    exact ⟨answer, candidates, ha, hc, h.symm⟩
  · simp only [reduceCtorEq] at h

/-- A step queues its listener again and one future for each callback it calls. -/
theorem step_spec (codecs : Codecs A O C) (p : Peer A O C) (hidle : p.progress = .idle)
    (state : SignallingState A O C) :
    (step codecs p state).peer.localId = p.localId ∧
      (step codecs p state).Settled p.localId ∧
      (step codecs p state).peer.unorderedFuts =
        p.unorderedFuts ++ (state.relisten.toList ++ (step codecs p state).called) ∧
      (step codecs p state).consumed = some state := by
  cases state with
  | peerListener listener peerChanges =>
    obtain ⟨hid, hset, hfuts⟩ :=
      synchronise_spec (p.push [.peerListener listener]) peerChanges peerChanges
    refine ⟨hid, hset, ?_, rfl⟩
    exact hfuts.trans (List.append_assoc _ _ _)
  | createOffer remoteId offerSet =>
    simp only [step]
    cases h : signalOffer codecs p.localId remoteId offerSet with
    | none => simp [Outcome.Settled, SignallingState.relisten, hidle]
    | some request =>
      obtain ⟨offer, candidates, _, _, rfl⟩ := signalOffer_eq h
      simp [Outcome.Settled, SignallingState.relisten, Progress.Awaits]
  | receiveOffer remoteId answerSet =>
    simp only [step]
    cases h : signalAnswer codecs p.localId remoteId answerSet with
    | none => simp [Outcome.Settled, SignallingState.relisten, hidle]
    | some request =>
      obtain ⟨answer, candidates, _, _, rfl⟩ := signalAnswer_eq h
      simp [Outcome.Settled, SignallingState.relisten, Progress.Awaits]
  | _ => simp [step, Outcome.Settled, SignallingState.relisten, hidle]

/-- What the answer to a suspended step's request does. -/
inductive Resumes (p : Peer A O C) : Except Status Response → Outcome A O C → Prop
  | resync {peerChanges rest remotePeers} : p.progress = .resyncing peerChanges rest →
      Resumes p (.ok (.peerDiscover remotePeers))
        ({ p with discoveredPeers := remotePeers.toFinset }.synchronise peerChanges rest)
  | offered {remoteId} : p.progress = .signallingOffer remoteId →
      Resumes p (.ok (.signal .offer))
        { peer := { p with progress := .idle }, returned := some (.ok ()) }
  | answered {remoteId} : p.progress = .signallingAnswer remoteId →
      Resumes p (.ok (.signal .answer))
        { peer := { p with progress := .idle }.push [.remoteSigCplt remoteId]
          called := [.remoteSigCplt remoteId]
          returned := some (.ok ()) }
  | refused {status result} : p.progress ≠ .idle →
      Resumes p (.error status) { peer := { p with progress := .idle }, returned := some result }

/-- A suspended step goes on in one of these ways. -/
theorem resume_resumes {response : Except Status Response} {out : Outcome A O C}
    (h : p.resume response = some out) : p.Resumes response out := by
  unfold resume at h
  split at h
  · rename_i peerChanges rest remotePeers hprog
    rw [Option.some.injEq] at h
    subst h
    exact .resync hprog
  · rename_i peerChanges rest status hprog
    rw [Option.some.injEq] at h
    subst h
    exact .refused (by simp [hprog])
  · rename_i remoteId hprog
    rw [Option.some.injEq] at h
    subst h
    exact .offered hprog
  · rename_i remoteId status hprog
    rw [Option.some.injEq] at h
    subst h
    unfold signalFailed
    split
    · exact .refused (by simp [hprog])
    · exact .refused (by simp [hprog])
  · rename_i remoteId hprog
    rw [Option.some.injEq] at h
    subst h
    exact .answered hprog
  · rename_i remoteId status hprog
    rw [Option.some.injEq] at h
    subst h
    unfold signalFailed
    split
    · exact .refused (by simp [hprog])
    · exact .refused (by simp [hprog])
  · simp only [reduceCtorEq] at h

/-- A resumed step queues one future for each callback it calls. -/
theorem Resumes.spec {response : Except Status Response} {out : Outcome A O C}
    (h : p.Resumes response out) :
    out.peer.localId = p.localId ∧ out.Settled p.localId ∧
      out.peer.unorderedFuts = p.unorderedFuts ++ out.called ∧ out.consumed = none := by
  cases h with
  | @resync peerChanges rest remotePeers hprog =>
    obtain ⟨hid, hset, hfuts⟩ := synchronise_spec
      { p with discoveredPeers := remotePeers.toFinset } peerChanges rest
    refine ⟨hid, hset, hfuts, ?_⟩
    rw [synchronise]
    split
    · rw [discover]
      split <;> rfl
    · rfl
  | offered _ | answered _ | refused _ => simp [Outcome.Settled]

/-- What an input does to the peer, whatever it is. -/
theorem Acts.spec {input : Input A O C} {out : Outcome A O C} (h : p.Acts codecs input out) :
    out.peer.localId = p.localId ∧ out.Settled p.localId := by
  cases h with
  | skipOffer hidle _ | skipAnswer hidle _ | fail hidle _ _ => exact ⟨rfl, hidle⟩
  | @complete i task _ state hidle _ _ =>
    obtain ⟨hid, hset, _⟩ := step_spec codecs
      { p with unorderedFuts := p.unorderedFuts.eraseIdx i } hidle state
    exact ⟨hid, hset⟩
  | resume h =>
    obtain ⟨hid, hset, _⟩ := (resume_resumes h).spec
    exact ⟨hid, hset⟩

/-- The queue is one of its futures and the rest. -/
theorem futs_perm {i : Nat} {task : Task A O C} (h : p.unorderedFuts[i]? = some task) :
    p.unorderedFuts.Perm (task :: p.unorderedFuts.eraseIdx i) := by
  obtain ⟨hlt, rfl⟩ := List.getElem?_eq_some_iff.mp h
  exact (List.getElem_cons_eraseIdx_perm hlt).symm

/-- What the end of the peer listener branch calls are offers to create. -/
theorem createOfferTasks_callback {peerChanges : List PeerChange} {task : Task A O C}
    (h : task ∈ createOfferTasks peerChanges) :
    ∃ id, task = .createOffer id ∧ .add id ∈ peerChanges := by
  rw [createOfferTasks, List.mem_filterMap] at h
  obtain ⟨change, hmem, hc⟩ := h
  cases change with
  | add id => exact ⟨id, (Option.some.inj hc).symm, hmem⟩
  | remove id => simp at hc

/-- The peer listener branch calls nothing but the creation of offers. -/
theorem synchronise_called {peerChanges rest : List PeerChange} {task : Task A O C}
    (h : task ∈ (p.synchronise peerChanges rest).called) : task.isCallback = true := by
  rcases p.synchronise_cases peerChanges rest with ⟨discovered, he, _⟩ | ⟨discovered, rest', he, _⟩
  · rw [he, (discover_spec _ peerChanges).2.2.2.2.2.2] at h
    split at h
    · obtain ⟨id, rfl, _⟩ := createOfferTasks_callback h
      rfl
    · simp at h
  · rw [he] at h
    simp at h

/-- What a step calls are callbacks. -/
theorem Acts.called {input : Input A O C} {out : Outcome A O C} (h : p.Acts codecs input out)
    {task : Task A O C} (ht : task ∈ out.called) : task.isCallback = true := by
  cases h with
  | skipOffer _ _ | skipAnswer _ _ | fail _ _ _ => simp at ht
  | @complete i _ _ state _ _ _ =>
    cases state with
    | peerListener listener peerChanges => exact synchronise_called ht
    | createOffer remoteId offerSet =>
      simp only [step] at ht
      split at ht <;> simp at ht
    | receiveOffer remoteId answerSet =>
      simp only [step] at ht
      split at ht <;> simp at ht
    | localSigCplt _ | remoteSigCplt _ => simp [step] at ht
    | _ =>
      simp only [step, List.mem_singleton] at ht
      rw [ht]
      rfl
  | resume h =>
    cases resume_resumes h with
    | resync _ => exact synchronise_called ht
    | offered _ | refused _ => simp at ht
    | answered _ =>
      simp only [List.mem_singleton] at ht
      rw [ht]
      rfl

/-- An input takes at most one future out of the queue. What is put back beside the called
callbacks is the same listener after its message. -/
theorem Acts.futs {input : Input A O C} {out : Outcome A O C} (h : p.Acts codecs input out) :
    ∃ taken put rest, p.unorderedFuts.Perm (taken ++ rest) ∧
      out.peer.unorderedFuts.Perm (rest ++ (put ++ out.called)) ∧
      (put = [] ∨ ∃ task task' : Task A O C, taken = [task] ∧ put = [task'] ∧
        task.Relistens task') := by
  have hset {i : Nat} {task task' : Task A O C} (hi : p.unorderedFuts[i]? = some task) :
      (p.unorderedFuts.set i task').Perm (p.unorderedFuts.eraseIdx i ++ [task']) :=
    (List.set_perm_cons_eraseIdx (List.getElem?_eq_some_iff.mp hi).1 task').trans
      (List.perm_append_singleton _ _).symm
  cases h with
  | @skipOffer i listener _ hi =>
    refine ⟨[.offerListener listener], [.offerListener listener.message], _, futs_perm hi, ?_,
      Or.inr ⟨_, _, rfl, rfl, rfl⟩⟩
    rw [List.append_nil]
    exact hset hi
  | @skipAnswer i listener _ hi =>
    refine ⟨[.answerListener listener], [.answerListener listener.message], _, futs_perm hi, ?_,
      Or.inr ⟨_, _, rfl, rfl, rfl⟩⟩
    rw [List.append_nil]
    exact hset hi
  | @fail i task _ e _ hi _ =>
    refine ⟨[task], [], _, futs_perm hi, ?_, Or.inl rfl⟩
    rw [List.append_nil, List.append_nil]
  | @complete i task _ state hidle hi hc =>
    obtain ⟨_, _, hfuts, _⟩ := step_spec codecs
      { p with unorderedFuts := p.unorderedFuts.eraseIdx i } hidle state
    refine ⟨[task], state.relisten.toList, p.unorderedFuts.eraseIdx i, futs_perm hi,
      List.Perm.of_eq hfuts, ?_⟩
    cases hc with
    | peerListener | offerListener _ | answerListener _ =>
      exact Or.inr ⟨_, _, rfl, rfl, rfl⟩
    | callback hcall hyield =>
      rw [Task.relisten_of_yields hyield]
      exact Or.inl rfl
  | resume h =>
    obtain ⟨_, _, hfuts, _⟩ := (resume_resumes h).spec
    exact ⟨[], [], p.unorderedFuts, List.Perm.refl _, List.Perm.of_eq hfuts, Or.inl rfl⟩

/-- No input adds a listener. -/
theorem Acts.listeners {input : Input A O C} {out : Outcome A O C} (h : p.Acts codecs input out)
    (kind : Listener) :
    out.peer.unorderedFuts.countP (Task.listensTo kind) ≤
      p.unorderedFuts.countP (Task.listensTo kind) := by
  obtain ⟨taken, put, rest, hp, ho, hput⟩ := h.futs
  have hcalled : out.called.countP (Task.listensTo kind) = 0 := by
    rw [List.countP_eq_zero]
    intro task ht
    simp [Task.listensTo, Task.listener_of_callback (h.called ht)]
  have hle : put.countP (Task.listensTo kind) ≤ taken.countP (Task.listensTo kind) := by
    rcases hput with rfl | ⟨task, task', rfl, rfl, hr⟩
    · exact Nat.zero_le _
    · obtain ⟨kind', listener, ht, ht'⟩ := hr.listener
      simp [List.countP_cons, Task.listensTo, ht, ht']
  rw [hp.countP_eq, ho.countP_eq, List.countP_append, List.countP_append, List.countP_append,
    hcalled]
  omega

/-- Every listener of the peer after an input listens to a stream it listened to before. -/
theorem Acts.streams {input : Input A O C} {out : Outcome A O C} (h : p.Acts codecs input out)
    {task : Task A O C} (ht : task ∈ out.peer.unorderedFuts) {kind : Listener}
    {listener : Streaming} (hl : task.listener = some (kind, listener)) :
    ∃ task' ∈ p.unorderedFuts, ∃ listener', task'.listener = some (kind, listener') ∧
      listener'.source = listener.source := by
  obtain ⟨taken, put, rest, hp, ho, hput⟩ := h.futs
  rcases List.mem_append.mp (ho.subset ht) with hr | hr
  · exact ⟨task, hp.symm.subset (List.mem_append_right _ hr), listener, hl, rfl⟩
  · rcases List.mem_append.mp hr with hr | hr
    · rcases hput with rfl | ⟨old, new, rfl, rfl, hre⟩
      · simp at hr
      · obtain ⟨kind', listener', ho', hn⟩ := hre.listener
        rw [List.mem_singleton.mp hr, hn, Option.some.injEq, Prod.mk.injEq] at hl
        refine ⟨old, hp.symm.subset (by simp), listener', ?_, ?_⟩
        · rw [ho', hl.1]
        · rw [← hl.2]
          rfl
    · rw [Task.listener_of_callback (h.called hr)] at hl
      simp only [reduceCtorEq] at hl

end Peer

end JustWebrtc.Signalling
