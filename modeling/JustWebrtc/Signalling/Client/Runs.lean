import JustWebrtc.Core.Machine
import JustWebrtc.Signalling.Client.Signals

/-!
# Runs of a peer

A peer in an arbitrary environment: any messages, errors and ends of its streams, any results
of its callbacks in any order, any responses, and a caller that calls `step` again whatever
the last call has returned. A run records which futures have completed and how, what was
called and requested, and what the steps have returned.
-/

namespace JustWebrtc.Signalling

variable {A O C : Type*}

/-- What a run of a peer records. -/
inductive Peer.Event (A O C : Type*)
  /-- A queued future has completed, and a step has taken it out of the queue. -/
  | completed (task : Task A O C) (result : Except ClientError (SignallingState A O C))
  | called (task : Task A O C)
  | requested (request : Request)
  /-- The request that a suspended step awaits was answered. -/
  | answered (awaited : Progress) (response : Except Status Response)
  | returned (result : Except ClientError Unit)
  deriving DecidableEq

/-- The completion of a future that was polled. -/
def Polled.events (task : Task A O C) : Polled A O C → List (Peer.Event A O C)
  | .pending _ => []
  | .ready result => [.completed task result]

/-- What is recorded of an outcome. -/
def Outcome.events (out : Outcome A O C) : List (Peer.Event A O C) :=
  out.called.map .called ++ out.request.toList.map .requested ++
    out.returned.toList.map .returned

namespace Peer

/-- What is recorded of an input. -/
def inputEvents (codecs : Codecs A O C) (p : Peer A O C) :
    Input A O C → List (Peer.Event A O C)
  | .peerMessage i message =>
    match p.unorderedFuts[i]? with
    | some (.peerListener listener) =>
      (peerListenerTask listener message).events (.peerListener listener)
    | _ => []
  | .signalMessage i message =>
    match p.unorderedFuts[i]? with
    | some (.offerListener listener) =>
      (offerListenerTask codecs listener message).events (.offerListener listener)
    | some (.answerListener listener) =>
      (answerListenerTask codecs listener message).events (.answerListener listener)
    | _ => []
  | .callback i result => (p.unorderedFuts[i]?).toList.map fun task => .completed task result
  | .response response => [.answered p.progress response]

end Peer

/-- The peer `localId` with its three streams, in any environment. -/
def peer (codecs : Codecs A O C) (localId : Id)
    (peerListener offerListener answerListener : Nat) :
    Machine (Peer A O C) (Input A O C) (Peer.Event A O C) where
  init := Peer.new localId peerListener offerListener answerListener
  step p input := (p.act codecs input).map fun out =>
    (out.peer, p.inputEvents codecs input ++ out.events)

namespace Peer

/-- The steps of a peer, each with its guards and what it records. -/
inductive Moves (codecs : Codecs A O C) (p : Peer A O C) :
    Input A O C → Peer A O C × List (Peer.Event A O C) → Prop
  | skip {slot i listener} : p.progress = .idle →
      p.unorderedFuts[i]? = some (.signalListener slot listener) →
      Moves codecs p (.signalMessage i (.ok (some ⟨none⟩)))
        ({ p with
            unorderedFuts := p.unorderedFuts.set i (.signalListener slot listener.message) }, [])
  | fail {i task input e} : p.progress = .idle → p.unorderedFuts[i]? = some task →
      Breaks codecs task i input →
      Moves codecs p input ({ p with unorderedFuts := p.unorderedFuts.eraseIdx i },
        [.completed task (.error e), .returned (.error e)])
  | complete {i task input state} : p.progress = .idle → p.unorderedFuts[i]? = some task →
      Completes codecs task i input state →
      Moves codecs p input
        ((step codecs { p with unorderedFuts := p.unorderedFuts.eraseIdx i } state).peer,
          .completed task (.ok state) ::
            (step codecs { p with unorderedFuts := p.unorderedFuts.eraseIdx i } state).events)
  | resume {response out} : p.Resumes response out →
      Moves codecs p (.response response) (out.peer, .answered p.progress response :: out.events)

variable {codecs : Codecs A O C} {p : Peer A O C}

/-- Every step of a peer is one of these. -/
theorem act_moves {input : Input A O C} {out : Outcome A O C}
    (h : p.act codecs input = some out) :
    p.Moves codecs input (out.peer, p.inputEvents codecs input ++ out.events) := by
  cases input with
  | peerMessage i message =>
    simp only [Peer.act] at h
    split at h
    · rename_i listener hidle hi
      rw [Option.some.injEq] at h
      subst h
      simp only [Peer.inputEvents, hi]
      rcases message with status | _ | message
      · exact .fail hidle hi (.peerListener (by simp))
      · exact .fail hidle hi (.peerListener (by simp))
      · exact .complete hidle hi .peerListener
    · simp only [reduceCtorEq] at h
  | signalMessage i message =>
    simp only [Peer.act] at h
    split at h
    · rename_i listener hidle hi
      rw [Option.some.injEq] at h
      subst h
      simp only [Peer.inputEvents, hi]
      rcases message with status | _ | ⟨_ | signal⟩
      · exact .fail hidle hi (.offerListener (by simp))
      · exact .fail hidle hi (.offerListener (by simp))
      · exact @Moves.skip _ _ _ codecs p .offer _ _ hidle hi
      · cases hset : codecs.offerSet signal with
        | none =>
          simp only [offerListenerTask, hset]
          exact .fail hidle hi (.offerMalformed hset)
        | some offerSet =>
          simp only [offerListenerTask, hset]
          exact .complete hidle hi (.offerListener hset)
    · rename_i listener hidle hi
      rw [Option.some.injEq] at h
      subst h
      simp only [Peer.inputEvents, hi]
      rcases message with status | _ | ⟨_ | signal⟩
      · exact .fail hidle hi (.answerListener (by simp))
      · exact .fail hidle hi (.answerListener (by simp))
      · exact @Moves.skip _ _ _ codecs p .answer _ _ hidle hi
      · cases hset : codecs.answerSet signal with
        | none =>
          simp only [answerListenerTask, hset]
          exact .fail hidle hi (.answerMalformed hset)
        | some answerSet =>
          simp only [answerListenerTask, hset]
          exact .complete hidle hi (.answerListener hset)
    · simp only [reduceCtorEq] at h
  | callback i result =>
    simp only [Peer.act] at h
    split at h
    · rename_i task hidle hi
      rw [Option.ite_none_right_eq_some, Option.some.injEq] at h
      obtain ⟨⟨hcall, hyield⟩, rfl⟩ := h
      simp only [Peer.inputEvents, hi]
      cases result with
      | error e => exact .fail hidle hi (.callback hcall)
      | ok state => exact .complete hidle hi (.callback hcall (hyield state rfl))
    · simp only [reduceCtorEq] at h
  | response response => exact .resume (resume_resumes h)

/-- Every enabled step of a run is one of these. -/
theorem step_moves {localId : Id} {peerListener offerListener answerListener : Nat} {q : Peer A O C}
    {input : Input A O C} {evs : List (Peer.Event A O C)}
    (h : (peer codecs localId peerListener offerListener answerListener).step p input =
      some (q, evs)) : p.Moves codecs input (q, evs) := by
  simp only [peer, Option.map_eq_some_iff, Prod.mk.injEq] at h
  obtain ⟨out, hact, rfl, rfl⟩ := h
  exact act_moves hact

/-! ## Conservation of futures -/

/-- The callback that an event calls. -/
def Event.started : Peer.Event A O C → Option (Task A O C)
  | .called task => some task
  | _ => none

/-- The future that an event takes out of the queue for good: one that failed, or a callback's
that succeeded. -/
def Event.retired : Peer.Event A O C → Option (Task A O C)
  | .completed task (.error _) => some task
  | .completed task (.ok state) => if state.relisten.isNone then some task else none
  | _ => none

/-- The callbacks that a run has called, in order. -/
def started (tr : List (Peer.Event A O C)) : List (Task A O C) := tr.filterMap Event.started

/-- The futures that have left the queue for good, in order. -/
def retired (tr : List (Peer.Event A O C)) : List (Task A O C) := tr.filterMap Event.retired

@[simp] theorem started_append (tr evs : List (Peer.Event A O C)) :
    started (tr ++ evs) = started tr ++ started evs := List.filterMap_append

@[simp] theorem retired_append (tr evs : List (Peer.Event A O C)) :
    retired (tr ++ evs) = retired tr ++ retired evs := List.filterMap_append

/-- An outcome starts what it calls. -/
@[simp] theorem started_events (out : Outcome A O C) : started out.events = out.called := by
  have hcalled : started (out.called.map Event.called) = out.called := by
    rw [started, List.filterMap_map]
    exact List.filterMap_some
  rw [Outcome.events, started_append, started_append, hcalled]
  cases out.request <;> cases out.returned <;> simp [started, Event.started]

/-- The completion of a future by itself starts nothing. -/
theorem started_polled (task : Task A O C) (polled : Polled A O C) :
    started (polled.events task) = [] := by
  cases polled <;> rfl

/-- What is recorded of an input starts nothing. -/
theorem started_inputEvents (codecs : Codecs A O C) (p : Peer A O C) (input : Input A O C) :
    started (p.inputEvents codecs input) = [] := by
  cases input with
  | peerMessage i message =>
    simp only [inputEvents]
    split
    · exact started_polled _ _
    · rfl
  | signalMessage i message =>
    simp only [inputEvents]
    split
    · exact started_polled _ _
    · exact started_polled _ _
    · rfl
  | callback i result =>
    simp only [inputEvents]
    cases p.unorderedFuts[i]? <;> rfl
  | response response => rfl

/-- An outcome by itself retires nothing. -/
@[simp] theorem retired_events (out : Outcome A O C) : retired out.events = [] := by
  rw [retired, List.filterMap_eq_nil_iff]
  intro e he
  simp only [Outcome.events, List.mem_append, List.mem_map] at he
  rcases he with (⟨_, _, rfl⟩ | ⟨_, _, rfl⟩) | ⟨_, _, rfl⟩ <;> rfl

/-- A property of futures that a listener keeps when it goes on to its next message. -/
def Stable (P : Task A O C → Bool) : Prop :=
  ∀ task task' : Task A O C, task.Relistens task' → P task' = P task

/-- Being a listener of a kind is kept. -/
theorem stable_listensTo (kind : Listener) :
    Stable (Task.listensTo kind : Task A O C → Bool) := by
  intro task task' h
  obtain ⟨kind', listener, ht, ht'⟩ := h.listener
  simp [Task.listensTo, ht, ht']

/-- What holds of callbacks only is kept. -/
theorem stable_of_callback {P : Task A O C → Bool}
    (h : ∀ task, P task = true → task.isCallback = true) : Stable P := by
  intro task task' hr
  obtain ⟨kind, listener, ht, ht'⟩ := hr.listener
  have hnot {task : Task A O C} {l : Listener × Streaming} (hl : task.listener = some l) :
      P task = false := by
    by_contra hp
    rw [Bool.not_eq_false] at hp
    rw [Task.listener_of_callback (h task hp)] at hl
    simp at hl
  rw [hnot ht, hnot ht']

/-- A future that completes is put back after its message, if it is a listener, or retired. -/
theorem relisten_of_completes {task : Task A O C} {i : Nat} {input : Input A O C}
    {state : SignallingState A O C} (h : Completes codecs task i input state) :
    (∃ task', state.relisten = some task' ∧ task.Relistens task') ∨
      (state.relisten = none ∧ task.isCallback = true) := by
  cases h with
  | peerListener | offerListener _ | answerListener _ => exact Or.inl ⟨_, rfl, rfl⟩
  | callback hcall hyield => exact Or.inr ⟨Task.relisten_of_yields hyield, hcall⟩

/-- Every step conserves futures: those queued after it and those it retires are those queued
before and those it starts. -/
theorem Moves.conserved {input : Input A O C} {q : Peer A O C} {evs : List (Peer.Event A O C)}
    (hm : p.Moves codecs input (q, evs)) {P : Task A O C → Bool} (hP : Stable P) :
    q.unorderedFuts.countP P + (retired evs).countP P =
      p.unorderedFuts.countP P + (started evs).countP P := by
  generalize hout : (q, evs) = out at hm
  cases hm with
  | @skip slot i listener _ hi =>
    rw [Prod.mk.injEq] at hout
    obtain ⟨rfl, rfl⟩ := hout
    have hsame : P (.signalListener slot listener.message) = P (.signalListener slot listener) :=
      hP _ _ (by cases slot <;> rfl)
    have hlt := (List.getElem?_eq_some_iff.mp hi).1
    rw [(List.set_perm_cons_eraseIdx hlt _).countP_eq, (futs_perm hi).countP_eq, List.countP_cons,
      List.countP_cons, hsame]
    rfl
  | @fail i task _ e _ hi _ =>
    rw [Prod.mk.injEq] at hout
    obtain ⟨rfl, rfl⟩ := hout
    rw [(futs_perm hi).countP_eq, List.countP_cons]
    simp [retired, started, Event.retired, Event.started, List.filterMap_cons, List.countP_cons]
  | @complete i task _ state hidle hi hc =>
    rw [Prod.mk.injEq] at hout
    obtain ⟨rfl, rfl⟩ := hout
    obtain ⟨_, _, hfuts, _⟩ := step_spec codecs
      { p with unorderedFuts := p.unorderedFuts.eraseIdx i } hidle state
    dsimp only at hfuts
    rw [← List.singleton_append, retired_append, started_append, retired_events, started_events,
      hfuts, (futs_perm hi).countP_eq, List.append_nil, List.countP_append, List.countP_append,
      List.countP_append, List.countP_cons]
    have hstart : started [Event.completed task (.ok state)] = [] := rfl
    rw [hstart, List.countP_nil]
    rcases relisten_of_completes hc with ⟨task', hre, hrel⟩ | ⟨hre, _⟩
    · have hret : retired [Event.completed task (.ok state)] = [] := by
        simp [retired, Event.retired, hre]
      rw [hret, hre, Option.toList_some, List.countP_singleton, hP _ _ hrel, List.countP_nil]
      omega
    · have hret : retired [Event.completed task (.ok state)] = [task] := by
        simp [retired, Event.retired, hre]
      rw [hret, hre, Option.toList_none, List.countP_singleton, List.countP_nil]
      omega
  | @resume response o hr =>
    rw [Prod.mk.injEq] at hout
    obtain ⟨rfl, rfl⟩ := hout
    obtain ⟨_, _, hfuts, _⟩ := hr.spec
    rw [← List.singleton_append, retired_append, started_append, retired_events, started_events,
      hfuts, List.countP_append]
    rfl

/-- What a peer has queued and retired is what it began with and what it has called. -/
theorem conserved {localId : Id} {i c c' : Nat} {ok : Peer A O C → Input A O C → Prop}
    {tr : List (Peer.Event A O C)} (hr : (peer codecs localId i c c').Run ok tr p)
    {P : Task A O C → Bool} (hP : Stable P) :
    p.unorderedFuts.countP P + (retired tr).countP P =
      (Peer.new localId i c c').unorderedFuts.countP P + (started tr).countP P := by
  refine hr.invariant (I := fun tr p => p.unorderedFuts.countP P + (retired tr).countP P =
    (Peer.new localId i c c').unorderedFuts.countP P + (started tr).countP P) rfl ?_
  intro tr p input q evs _ h _ hs
  have hstep := (step_moves hs).conserved hP
  rw [retired_append, started_append, List.countP_append, List.countP_append]
  omega

/-- What a run calls are callbacks. -/
theorem started_callback {localId : Id} {i c c' : Nat} {ok : Peer A O C → Input A O C → Prop}
    {tr : List (Peer.Event A O C)} (hr : (peer codecs localId i c c').Run ok tr p) :
    ∀ task ∈ started tr, task.isCallback = true := by
  refine hr.invariant (I := fun tr _ => ∀ task ∈ started tr, task.isCallback = true) ?_ ?_
  · simp [started]
  · intro tr p input q evs _ h _ hs task ht
    simp only [peer, Option.map_eq_some_iff, Prod.mk.injEq] at hs
    obtain ⟨out, hact, rfl, rfl⟩ := hs
    rw [started_append, started_append, started_inputEvents, started_events, List.nil_append] at ht
    rcases List.mem_append.mp ht with ht | ht
    · exact h task ht
    · exact (act_acts hact).called ht

/-- An outcome by itself completes no future. -/
theorem completed_notMem_events (out : Outcome A O C) (task : Task A O C)
    (result : Except ClientError (SignallingState A O C)) :
    Event.completed task result ∉ out.events := by
  simp [Outcome.events]

/-- A future that has completed with a state has put a listener back, or was a callback's. -/
theorem completed_ok {localId : Id} {i c c' : Nat} {ok : Peer A O C → Input A O C → Prop}
    {tr : List (Peer.Event A O C)} (hr : (peer codecs localId i c c').Run ok tr p)
    {task : Task A O C} {state : SignallingState A O C} (h : .completed task (.ok state) ∈ tr) :
    state.relisten = none ↔ task.isCallback = true := by
  revert h
  refine hr.invariant (I := fun tr _ => .completed task (.ok state) ∈ tr →
    (state.relisten = none ↔ task.isCallback = true)) (by simp) ?_
  intro tr p input q evs _ ih _ hs h
  rcases List.mem_append.mp h with h | h
  · exact ih h
  · have hm := step_moves hs
    generalize hout : (q, evs) = out at hm
    cases hm with
    | skip _ _ | fail _ _ _ =>
      rw [Prod.mk.injEq] at hout
      rw [hout.2] at h
      simp at h
    | resume _ =>
      rw [Prod.mk.injEq] at hout
      rw [hout.2, List.mem_cons] at h
      rcases h with h | h
      · simp at h
      · exact absurd h (completed_notMem_events _ _ _)
    | complete _ _ hc =>
      rw [Prod.mk.injEq] at hout
      rw [hout.2, List.mem_cons] at h
      rcases h with h | h
      · rw [Event.completed.injEq, Except.ok.injEq] at h
        obtain ⟨rfl, rfl⟩ := h
        rcases relisten_of_completes hc with ⟨task', hre, hrel⟩ | ⟨hre, hcall⟩
        · obtain ⟨kind, listener, hl, _⟩ := hrel.listener
          refine iff_of_false (by simp [hre]) fun hcall => ?_
          rw [Task.listener_of_callback hcall] at hl
          simp at hl
        · exact iff_of_true hre hcall
      · exact absurd h (completed_notMem_events _ _ _)

end Peer

end JustWebrtc.Signalling
