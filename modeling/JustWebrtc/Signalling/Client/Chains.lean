import JustWebrtc.Signalling.Client.Runs

/-!
# The signalling chains of a peer

The local chain of a peer goes from an answer to `receive_answer` and on to `local_sig_cplt`, the
remote chain from an offer to `receive_offer`, to the signalling of the answer and on to
`remote_sig_cplt`. A run hands every completed stage to the next one exactly once, in the order
of the completions, and calls nothing else but `create_offer`. What a stage has started is still
queued or was consumed with its result.
-/

namespace JustWebrtc.Signalling

variable {A O C : Type*}

/-- The peer that a signal is sent to. -/
def Request.remotePeer : Request → Option Id
  | .signal _ remotePeer _ => remotePeer
  | _ => none

/-- The stages of the signalling chains, each with its callback. -/
inductive Stage
  | createOffer
  | receiveAnswer
  | localSigCplt
  | receiveOffer
  | remoteSigCplt
  deriving DecidableEq, Repr

/-- The stage whose callback a future is. -/
def Task.stage : Task A O C → Option Stage
  | .createOffer _ => some .createOffer
  | .receiveAnswer _ _ => some .receiveAnswer
  | .localSigCplt _ => some .localSigCplt
  | .receiveOffer _ _ => some .receiveOffer
  | .remoteSigCplt _ => some .remoteSigCplt
  | .peerListener _ | .offerListener _ | .answerListener _ => none

/-- The future is the callback of this stage. -/
def Task.atStage (stage : Stage) (task : Task A O C) : Bool := task.stage = some stage

/-- A stage has a callback. -/
theorem Task.isCallback_of_atStage {stage : Stage} {task : Task A O C}
    (h : task.atStage stage = true) : task.isCallback = true := by
  cases task <;> first | rfl | simp [Task.atStage, Task.stage] at h

namespace Peer

variable {codecs : Codecs A O C} {localId : Id} {i c c' : Nat}
  {ok : Peer A O C → Input A O C → Prop} {tr : List (Peer.Event A O C)} {p q : Peer A O C}

/-- The callback that an event hands its result to. -/
def Event.handsOver : Peer.Event A O C → Option (Task A O C)
  | .completed _ (.ok (.answerListener _ remoteId answerSet)) =>
    some (.receiveAnswer remoteId answerSet)
  | .completed _ (.ok (.receiveAnswer remoteId)) => some (.localSigCplt remoteId)
  | .completed _ (.ok (.offerListener _ remoteId offerSet)) =>
    some (.receiveOffer remoteId offerSet)
  | .answered (.signallingAnswer remoteId) (.ok _) => some (.remoteSigCplt remoteId)
  | _ => none

/-- The signalling of the answer that a consumed `receive_offer` returned, if it serializes. -/
def Event.answers (codecs : Codecs A O C) (id : Id) : Peer.Event A O C → Option Request
  | .completed _ (.ok (.receiveOffer remoteId answerSet)) =>
    signalAnswer codecs id remoteId answerSet
  | _ => none

/-- The request of an event that signals an answer. -/
def Event.signalled : Peer.Event A O C → Option Request
  | .requested (.signal .answer remotePeer signal) => some (.signal .answer remotePeer signal)
  | _ => none

/-- The peer of whose answer's signalling an event is the end. -/
def Event.settled : Peer.Event A O C → Option Id
  | .answered (.signallingAnswer remoteId) _ => some remoteId
  | _ => none

/-- The peer that an answer is being signalled to. -/
def answering (p : Peer A O C) : Option Id :=
  match p.progress with
  | .signallingAnswer remoteId => some remoteId
  | _ => none

/-- A step consumes the result of a stage's callback, a state or an error. -/
def Event.consumedOk (stage : Stage) : Peer.Event A O C → Bool
  | .completed task (.ok _) => task.atStage stage
  | _ => false

@[inherit_doc Event.consumedOk]
def Event.consumedErr (stage : Stage) : Peer.Event A O C → Bool
  | .completed task (.error _) => task.atStage stage
  | _ => false

/-! ## What one step hands over -/

/-- An outcome is read through its request by what knows neither calls nor returns. -/
theorem filterMap_events {β : Type*} {f : Peer.Event A O C → Option β}
    (hcalled : ∀ task, f (.called task) = none) (hreturned : ∀ result, f (.returned result) = none)
    (out : Outcome A O C) :
    out.events.filterMap f = (out.request.bind fun request => f (.requested request)).toList := by
  have hcall : (out.called.map Event.called).filterMap f = [] := by
    rw [List.filterMap_eq_nil_iff]
    intro e he
    obtain ⟨task, _, rfl⟩ := List.mem_map.mp he
    exact hcalled task
  have hreturn : (out.returned.toList.map Event.returned).filterMap f = [] := by
    rw [List.filterMap_eq_nil_iff]
    intro e he
    obtain ⟨result, _, rfl⟩ := List.mem_map.mp he
    exact hreturned result
  rw [Outcome.events, List.filterMap_append, List.filterMap_append, hcall, hreturn,
    List.nil_append, List.append_nil]
  cases out.request with
  | none => rfl
  | some request =>
    rw [Option.toList_some, List.map_singleton, List.filterMap_cons, Option.bind_some]
    cases f (.requested request) <;> rfl

/-- An outcome by itself hands nothing over. -/
@[simp] theorem handsOver_events (out : Outcome A O C) :
    out.events.filterMap Event.handsOver = [] := by
  rw [filterMap_events (fun _ => rfl) fun _ => rfl]
  cases out.request <;> rfl

/-- The request of an outcome is no answer that was consumed. -/
@[simp] theorem answers_events (codecs : Codecs A O C) (id : Id) (out : Outcome A O C) :
    out.events.filterMap (Event.answers codecs id) = [] := by
  rw [filterMap_events (fun _ => rfl) fun _ => rfl]
  cases out.request <;> rfl

/-- An outcome by itself ends no signalling. -/
@[simp] theorem settled_events (out : Outcome A O C) :
    out.events.filterMap Event.settled = [] := by
  rw [filterMap_events (fun _ => rfl) fun _ => rfl]
  cases out.request <;> rfl

/-- Calls of `create_offer` are left out. -/
theorem filter_createOffer {tasks : List (Task A O C)}
    (h : ∀ task ∈ tasks, ∃ id, task = .createOffer id) :
    tasks.filter (fun task => task.stage ≠ some .createOffer) = [] := by
  rw [List.filter_eq_nil_iff]
  intro task ht
  obtain ⟨id, rfl⟩ := h task ht
  simp [Task.stage]

/-- Every step calls what it hands over, and `create_offer`. -/
theorem Moves.handsOver {input : Input A O C} {evs : List (Peer.Event A O C)}
    (hm : p.Moves codecs input (q, evs)) :
    (started evs).filter (fun task => task.stage ≠ some .createOffer) =
      evs.filterMap Event.handsOver := by
  generalize hout : (q, evs) = out at hm
  cases hm with
  | skip _ _ =>
    rw [Prod.mk.injEq] at hout
    rw [hout.2]
    rfl
  | fail _ _ _ =>
    rw [Prod.mk.injEq] at hout
    rw [hout.2]
    rfl
  | @complete j task _ state hidle hj hc =>
    rw [Prod.mk.injEq] at hout
    rw [hout.2, ← List.singleton_append, started_append, started_events, List.filterMap_append,
      handsOver_events, List.append_nil]
    cases state with
    | peerListener listener changes => exact filter_createOffer (synchronise_offers _ _ _)
    | createOffer remoteId offerSet =>
      simp only [step]
      split <;> rfl
    | receiveOffer remoteId answerSet =>
      simp only [step]
      split <;> rfl
    | _ => rfl
  | @resume response out hr =>
    rw [Prod.mk.injEq] at hout
    rw [hout.2, ← List.singleton_append, started_append, started_events, List.filterMap_append,
      handsOver_events, List.append_nil]
    cases hr with
    | resync hprog =>
      rw [hprog]
      exact filter_createOffer (synchronise_offers _ _ _)
    | offered hprog | answered hprog =>
      rw [hprog]
      rfl
    | refused _ => cases p.progress <;> rfl

/-- The peer listener branch signals no answer. -/
theorem synchronise_signalled (p : Peer A O C) (changes rest : List PeerChange) :
    (p.synchronise changes rest).request.bind
      (fun request => Event.signalled (.requested request : Peer.Event A O C)) = none := by
  rw [Option.bind_eq_none_iff]
  intro request hreq
  have hno := @synchronise_request A O C p changes rest .answer
  rw [hreq] at hno
  cases request with
  | signal slot remotePeer signal =>
    cases slot with
    | answer => exact absurd rfl hno
    | offer => rfl
  | _ => rfl

/-- Every step signals the answer that it consumes. -/
theorem Moves.answers {input : Input A O C} {evs : List (Peer.Event A O C)}
    (hm : p.Moves codecs input (q, evs)) :
    evs.filterMap Event.signalled = evs.filterMap (Event.answers codecs p.localId) := by
  generalize hout : (q, evs) = out at hm
  cases hm with
  | skip _ _ =>
    rw [Prod.mk.injEq] at hout
    rw [hout.2]
    rfl
  | fail _ _ _ =>
    rw [Prod.mk.injEq] at hout
    rw [hout.2]
    rfl
  | @complete j task _ state hidle hj hc =>
    rw [Prod.mk.injEq] at hout
    rw [hout.2, ← List.singleton_append, List.filterMap_append, List.filterMap_append,
      answers_events, List.append_nil, filterMap_events (fun _ => rfl) fun _ => rfl]
    cases state with
    | peerListener listener changes =>
      have hsync := synchronise_signalled
        (({ p with unorderedFuts := p.unorderedFuts.eraseIdx j } : Peer A O C).push
          [.peerListener listener]) changes changes
      simp only [step]
      rw [hsync]
      rfl
    | createOffer remoteId offerSet =>
      simp only [step]
      split
      · rfl
      · rename_i request hreq
        obtain ⟨offer, candidates, _, _, rfl⟩ := signalOffer_eq hreq
        rfl
    | receiveOffer remoteId answerSet =>
      simp only [step]
      split
      · rename_i hreq
        simp [Event.answers, Event.signalled, hreq]
      · rename_i request hreq
        obtain ⟨answer, candidates, _, _, rfl⟩ := signalAnswer_eq hreq
        simp [Event.answers, hreq, Event.signalled]
    | _ => rfl
  | @resume response out hr =>
    rw [Prod.mk.injEq] at hout
    rw [hout.2, ← List.singleton_append, List.filterMap_append, List.filterMap_append,
      answers_events, List.append_nil, filterMap_events (fun _ => rfl) fun _ => rfl]
    cases hr with
    | resync hprog =>
      rw [synchronise_signalled]
      rfl
    | offered _ | answered _ | refused _ => rfl

/-- The answer that an outcome signals is the one that its peer then awaits. -/
theorem answering_of_settled {out : Outcome A O C} {id : Id} (h : out.Settled id) :
    (out.events.filterMap Event.signalled).filterMap Request.remotePeer =
      out.peer.answering.toList := by
  rw [filterMap_events (fun _ => rfl) fun _ => rfl]
  rw [Outcome.Settled] at h
  cases hreq : out.request with
  | none =>
    rw [hreq] at h
    simp only at h
    simp [answering, h]
  | some request =>
    rw [hreq] at h
    simp only at h
    cases hprog : out.peer.progress with
    | idle =>
      rw [hprog] at h
      exact h.elim
    | resyncing changes rest =>
      rw [hprog, Progress.Awaits] at h
      simp [answering, hprog, h, Event.signalled]
    | signallingOffer remoteId =>
      rw [hprog, Progress.Awaits] at h
      obtain ⟨signal, rfl, _⟩ := h
      simp [answering, hprog, Event.signalled]
    | signallingAnswer remoteId =>
      rw [hprog, Progress.Awaits] at h
      obtain ⟨signal, rfl, _⟩ := h
      simp [answering, hprog, Event.signalled, Request.remotePeer]

/-- Every step ends the signalling of an answer or leaves it pending. -/
theorem Moves.settled {input : Input A O C} {evs : List (Peer.Event A O C)}
    (hm : p.Moves codecs input (q, evs)) :
    p.answering.toList ++ (evs.filterMap Event.signalled).filterMap Request.remotePeer =
      evs.filterMap Event.settled ++ q.answering.toList := by
  generalize hout : (q, evs) = out at hm
  cases hm with
  | skip _ _ =>
    rw [Prod.mk.injEq] at hout
    obtain ⟨rfl, rfl⟩ := hout
    exact List.append_nil _
  | fail _ _ _ =>
    rw [Prod.mk.injEq] at hout
    obtain ⟨rfl, rfl⟩ := hout
    exact List.append_nil _
  | @complete j task _ state hidle hj hc =>
    rw [Prod.mk.injEq] at hout
    obtain ⟨rfl, rfl⟩ := hout
    obtain ⟨_, hset, _⟩ := step_spec codecs
      { p with unorderedFuts := p.unorderedFuts.eraseIdx j } hidle state
    have hnone : p.answering = none := by simp [answering, hidle]
    rw [hnone, ← List.singleton_append, List.filterMap_append, List.filterMap_append,
      List.filterMap_append, answering_of_settled hset, settled_events]
    rfl
  | @resume response out hr =>
    rw [Prod.mk.injEq] at hout
    obtain ⟨rfl, rfl⟩ := hout
    obtain ⟨_, hset, _⟩ := hr.spec
    have hends : p.answering.toList = [Event.answered p.progress response].filterMap
        (Event.settled : Peer.Event A O C → Option Id) := by
      cases hprog : p.progress <;> simp [answering, hprog, Event.settled]
    have hevs : Event.answered p.progress response :: out.events =
        [Event.answered p.progress response] ++ out.events := rfl
    rw [hevs, List.filterMap_append, List.filterMap_append, List.filterMap_append,
      answering_of_settled hset, settled_events, List.append_nil, hends]
    rfl

/-! ## Runs -/

/-- A peer keeps its identifier. -/
theorem localId_eq (hr : (peer codecs localId i c c').Run ok tr p) : p.localId = localId := by
  refine hr.invariant (I := fun _ p => p.localId = localId) rfl fun _ h _ hs => ?_
  simp only [peer, Option.map_eq_some_iff, Prod.mk.injEq] at hs
  obtain ⟨out, hact, rfl, rfl⟩ := hs
  rw [(act_acts hact).spec.1, h]

/-- The retired futures of a stage are those consumed with a state or with an error. -/
theorem countP_retired (h : ∀ task state, .completed task (.ok state) ∈ tr →
      (state.relisten = none ↔ task.isCallback = true)) (stage : Stage) :
    (retired tr).countP (Task.atStage stage) =
      tr.countP (Event.consumedOk stage) + tr.countP (Event.consumedErr stage) := by
  induction tr with
  | nil => rfl
  | cons e tr ih =>
    have ih := ih fun task state he => h task state (List.mem_cons_of_mem _ he)
    have hone : (retired [e]).countP (Task.atStage stage) =
        [e].countP (Event.consumedOk stage) + [e].countP (Event.consumedErr stage) := by
      cases e with
      | completed task result =>
        cases result with
        | error e =>
          by_cases hat : task.atStage stage = true <;>
            simp [retired, Event.retired, Event.consumedOk, Event.consumedErr, hat]
        | ok state =>
          have hre := h task state List.mem_cons_self
          by_cases hat : task.atStage stage = true
          · simp [retired, Event.retired, Event.consumedOk, Event.consumedErr,
              hre.mpr (Task.isCallback_of_atStage hat), hat]
          · cases hn : state.relisten.isNone <;>
              simp [retired, Event.retired, Event.consumedOk, Event.consumedErr, hn, hat]
      | _ => rfl
    rw [← List.singleton_append, retired_append, List.countP_append, List.countP_append,
      List.countP_append, ih, hone]
    omega

/-- What a stage's callback has started is still queued or was consumed with its result. -/
theorem started_stage (hr : (peer codecs localId i c c').Run ok tr p) (stage : Stage) :
    (started tr).countP (Task.atStage stage) = p.unorderedFuts.countP (Task.atStage stage) +
      tr.countP (Event.consumedOk stage) + tr.countP (Event.consumedErr stage) := by
  have hcons := conserved hr (P := Task.atStage stage)
    (stable_of_callback fun _ ht => Task.isCallback_of_atStage ht)
  have hnew : (Peer.new localId i c c' : Peer A O C).unorderedFuts.countP
      (Task.atStage stage) = 0 := rfl
  have hretired := countP_retired (fun _ _ => completed_ok hr) stage
  omega

/-- Every stage of the chains hands over exactly what it completes: the calls other than of
`create_offer` are the results handed over, in order; an answer is signalled for each
`receive_offer` that was consumed and serializes, and each of these signallings has ended in order
but for the one that is pending; and a stage's calls are queued or consumed. -/
theorem chains_conserved (hr : (peer codecs localId i c c').Run Machine.Free tr p) :
    (started tr).filter (fun task => task.stage ≠ some .createOffer) =
        tr.filterMap Event.handsOver ∧
      tr.filterMap Event.signalled = tr.filterMap (Event.answers codecs localId) ∧
      (tr.filterMap Event.signalled).filterMap Request.remotePeer =
        tr.filterMap Event.settled ++ p.answering.toList ∧
      ∀ stage, (started tr).countP (Task.atStage stage) =
        p.unorderedFuts.countP (Task.atStage stage) +
          tr.countP (Event.consumedOk stage) + tr.countP (Event.consumedErr stage) := by
  refine ⟨?_, ?_, ?_, started_stage hr⟩
  · refine hr.invariant (I := fun tr _ => (started tr).filter
      (fun task => task.stage ≠ some .createOffer) = tr.filterMap Event.handsOver) rfl
      fun _ h _ hs => ?_
    rw [started_append, List.filter_append, List.filterMap_append, h, (step_moves hs).handsOver]
  · refine hr.invariant (I := fun tr _ => tr.filterMap Event.signalled =
      tr.filterMap (Event.answers codecs localId)) rfl fun hr h _ hs => ?_
    rw [List.filterMap_append, List.filterMap_append, h, (step_moves hs).answers, localId_eq hr]
  · refine hr.invariant (I := fun tr p => (tr.filterMap Event.signalled).filterMap
      Request.remotePeer = tr.filterMap Event.settled ++ p.answering.toList) rfl
      fun _ h _ hs => ?_
    rw [List.filterMap_append, List.filterMap_append, List.filterMap_append, h, List.append_assoc,
      List.append_assoc, (step_moves hs).settled]

/-- An offer goes through the remote chain to its end, and an answer is being received. -/
theorem chains_conserved_once : ∃ tr, ∃ p : Peer Unit Unit Unit,
    (peer Codecs.unit 1 0 0 1).Run Machine.Free tr p ∧
      started tr = [.receiveOffer 7 ((), ()), .remoteSigCplt 7, .receiveAnswer 8 ((), ())] ∧
      tr.filterMap Event.handsOver = started tr ∧
      tr.filterMap Event.signalled = [.signalAnswer (some 7) (some ⟨1, [], []⟩)] ∧
      tr.filterMap Event.settled = [7] ∧
      p.unorderedFuts.countP (Task.atStage .receiveAnswer) = 1 := by
  obtain ⟨tr, p, hr, hc⟩ := (peer Codecs.unit 1 0 0 1).exec_reaches Machine.Free
    [.signalMessage 1 (.ok (some ⟨some ⟨7, [], []⟩⟩)), .callback 3 (.ok (.receiveOffer 7 ((), ()))),
      .response (.ok (.signal .answer)), .signalMessage 1 (.ok (some ⟨some ⟨8, [], []⟩⟩))]
    (fun c => decide (
      started c.2 = [.receiveOffer 7 ((), ()), .remoteSigCplt 7, .receiveAnswer 8 ((), ())] ∧
      c.2.filterMap (Event.answers Codecs.unit 1) =
        [.signalAnswer (some 7) (some ⟨1, [], []⟩)] ∧
      c.1.answering = none ∧ c.2.countP (Event.consumedOk .receiveAnswer) = 0 ∧
      c.2.countP (Event.consumedErr .receiveAnswer) = 0)) (by decide +kernel)
  obtain ⟨hstarted, hanswers, hanswering, hok, herr⟩ := of_decide_eq_true hc
  obtain ⟨hhands, hsignalled, hsettled, hstage⟩ := chains_conserved hr
  rw [hanswers] at hsignalled
  rw [hsignalled, hanswering] at hsettled
  refine ⟨tr, p, hr, hstarted, ?_, hsignalled, ?_, ?_⟩
  · rw [← hhands, hstarted]
    rfl
  · simpa [Request.remotePeer] using hsettled.symm
  · have hone := hstage .receiveAnswer
    rw [hstarted, hok, herr] at hone
    exact hone.symm

end Peer

end JustWebrtc.Signalling
