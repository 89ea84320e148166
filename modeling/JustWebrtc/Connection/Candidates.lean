import Mathlib.Data.Finset.Basic
import JustWebrtc.Connection.Channel
import JustWebrtc.Core.Queue

/-!
# Collecting candidates

A connection queues every candidate that its platform reports, and an empty message where the
gathering has finished. `collect_ice_candidates` takes candidates until it takes an empty message.
Calls that run at the same time share the queue, so each candidate goes to one of them. Calls that
follow one another return the candidates of one gathering each.
-/

namespace JustWebrtc.Connection

/-- `ICECandidate`. -/
structure ICECandidate where
  candidate : String
  sdpMid : Option String
  sdpMlineIndex : Option UInt16
  usernameFragment : Option String
  deriving DecidableEq, Repr

/-- The candidate of the native library. -/
structure RTCIceCandidateInit where
  candidate : String
  sdpMid : Option String
  sdpMlineIndex : Option UInt16
  usernameFragment : Option String
  deriving DecidableEq, Repr

/-- The candidate of a browser, with what is read from it and written to it. -/
structure RtcIceCandidateInit where
  candidate : String
  sdpMid : Option String
  sdpMLineIndex : Option UInt16
  deriving DecidableEq, Repr

/-- `From<RTCIceCandidateInit>`. -/
def RTCIceCandidateInit.into (value : RTCIceCandidateInit) : ICECandidate where
  candidate := value.candidate
  sdpMid := value.sdpMid
  sdpMlineIndex := value.sdpMlineIndex
  usernameFragment := value.usernameFragment

/-- A candidate as a platform reports it; `to_json` of a native one may fail. -/
def Platform.Candidate : Platform → Type
  | .native => Option RTCIceCandidateInit
  | .wasm => RtcIceCandidateInit

/-- The message for a report: none if a candidate does not serialize, and an empty one at the end
of the gathering. -/
def iceMessage : (platform : Platform) → Option platform.Candidate → Option (Option ICECandidate)
  | .native, some (some candidateInit) => some (some candidateInit.into)
  | .native, some none => none
  | .wasm, some candidate => some (some {
      candidate := candidate.candidate
      sdpMid := candidate.sdpMid
      sdpMlineIndex := candidate.sdpMLineIndex
      usernameFragment := none })
  | .native, none | .wasm, none => some none

/-- What one round of the loop of `collect_ice_candidates` comes to. -/
inductive Collected
  /-- A candidate is pushed. -/
  | again (candidateInit : ICECandidate)
  | returned
  | failed
  deriving DecidableEq, Repr

/-- One round of the loop of `collect_ice_candidates`, or none where it waits. -/
def collectIceCandidates (candidates : Queue (Option ICECandidate)) :
    Option (Collected × Queue (Option ICECandidate)) :=
  candidates.recv.map fun out => (match out.1 with
    | some (some candidateInit) => .again candidateInit
    | some none => .returned
    | none => .failed, out.2)

/-- The candidates of a connection and the calls of `collect_ice_candidates` that have not
returned, each with the candidates it has taken. -/
structure Gathering where
  candidates : Queue (Option ICECandidate)
  collecting : Finset Nat
  candidateInits : Nat → List ICECandidate

namespace Gathering

/-- What happens to the candidates of a connection. -/
inductive Action (platform : Platform)
  /-- `handle_ice_candidate`. -/
  | onIceCandidate (candidate : Option platform.Candidate)
  /-- The platform drops the handler. -/
  | dropHandler
  /-- A new call of `collect_ice_candidates`. -/
  | collectIceCandidates (call : Nat)
  /-- A call goes through its loop once. -/
  | poll (call : Nat)

/-- What is recorded of the candidates of a connection. -/
inductive Event
  /-- A message for the queue of candidates. -/
  | reported (message : Option ICECandidate)
  | called (call : Nat)
  | took (call : Nat) (message : Option ICECandidate)
  | returned (call : Nat) (candidateInits : List ICECandidate)
  /-- A call finds the queue disconnected and drops its candidates. -/
  | failed (call : Nat) (dropped : List ICECandidate)
  deriving DecidableEq, Repr

/-- The candidates after an action, where that is possible. -/
def step (platform : Platform) (s : Gathering) : Action platform → Option (Gathering × List Event)
  | .onIceCandidate candidate =>
    if s.candidates.senderAlive then
      match iceMessage platform candidate with
      | none => some (s, [])
      | some message => (s.candidates.send message).map fun candidates =>
          ({ s with candidates := candidates }, [.reported message])
    else none
  | .dropHandler =>
    some ({ s with candidates := { s.candidates with senderAlive := false } }, [])
  | .collectIceCandidates call =>
    if call ∈ s.collecting then none
    else some ({ s with
      collecting := insert call s.collecting
      candidateInits := Function.update s.candidateInits call [] }, [.called call])
  | .poll call =>
    if call ∈ s.collecting then
      match Connection.collectIceCandidates s.candidates with
      | none => none
      | some (.again candidateInit, candidates) =>
        some ({ s with
          candidates := candidates
          candidateInits := Function.update s.candidateInits call
            (s.candidateInits call ++ [candidateInit]) }, [.took call (some candidateInit)])
      | some (.returned, candidates) =>
        some ({ s with candidates := candidates, collecting := s.collecting.erase call },
          [.took call none, .returned call (s.candidateInits call)])
      | some (.failed, candidates) =>
        some ({ s with candidates := candidates, collecting := s.collecting.erase call },
          [.failed call (s.candidateInits call)])
    else none

end Gathering

/-- The candidates of a new connection. -/
def gathering (platform : Platform) :
    Machine Gathering (Gathering.Action platform) Gathering.Event where
  init := ⟨.unbounded, ∅, fun _ => []⟩
  step := Gathering.step platform

namespace Gathering

variable {platform : Platform} {s t : Gathering} {tr : List Event}

/-- The steps, each with its guards. -/
inductive Moves (s : Gathering) : Action platform → Gathering × List Event → Prop
  | reported {candidate message} : s.candidates.senderAlive = true →
      s.candidates.receiverAlive = true → iceMessage platform candidate = some message →
      Moves s (.onIceCandidate candidate)
        ({ s with candidates := { s.candidates with queue := s.candidates.queue ++ [message] } },
          [.reported message])
  | skipped {candidate} : iceMessage platform candidate = none →
      Moves s (.onIceCandidate candidate) (s, [])
  | dropHandler : Moves s .dropHandler
      ({ s with candidates := { s.candidates with senderAlive := false } }, [])
  | called {call} : call ∉ s.collecting → Moves s (.collectIceCandidates call)
      ({ s with
        collecting := insert call s.collecting
        candidateInits := Function.update s.candidateInits call [] }, [.called call])
  | took {call c rest} : call ∈ s.collecting → s.candidates.queue = some c :: rest →
      Moves s (.poll call)
        ({ s with
          candidates := { s.candidates with queue := rest }
          candidateInits := Function.update s.candidateInits call (s.candidateInits call ++ [c]) },
          [.took call (some c)])
  | returned {call rest} : call ∈ s.collecting → s.candidates.queue = none :: rest →
      Moves s (.poll call)
        ({ s with
          candidates := { s.candidates with queue := rest }
          collecting := s.collecting.erase call },
          [.took call none, .returned call (s.candidateInits call)])
  | failed {call} : call ∈ s.collecting → s.candidates.queue = [] →
      s.candidates.senderAlive = false →
      Moves s (.poll call) ({ s with collecting := s.collecting.erase call },
        [.failed call (s.candidateInits call)])

/-- Every step is one of these. -/
theorem step_moves {a : Action platform} {evs : List Event}
    (h : s.step platform a = some (t, evs)) : s.Moves a (t, evs) := by
  cases a with
  | onIceCandidate candidate =>
    rw [step, Option.ite_none_right_eq_some] at h
    obtain ⟨hs, h⟩ := h
    cases hmsg : iceMessage platform candidate with
    | none =>
      simp only [hmsg, Option.some.injEq] at h
      rw [← h]
      exact .skipped hmsg
    | some message =>
      simp only [hmsg, Option.map_eq_some_iff] at h
      obtain ⟨candidates, hsend, h⟩ := h
      rw [Queue.send, Option.ite_none_right_eq_some, Option.some.injEq] at hsend
      obtain ⟨hr, rfl⟩ := hsend
      rw [← h]
      exact .reported hs hr hmsg
  | dropHandler =>
    rw [step, Option.some.injEq] at h
    rw [← h]
    exact .dropHandler
  | collectIceCandidates call =>
    rw [step, Option.ite_none_left_eq_some, Option.some.injEq] at h
    obtain ⟨hc, h⟩ := h
    rw [← h]
    exact .called hc
  | poll call =>
    rw [step, Option.ite_none_right_eq_some] at h
    obtain ⟨hc, h⟩ := h
    cases hrecv : s.candidates.recv with
    | none => simp [Connection.collectIceCandidates, hrecv] at h
    | some out =>
      obtain ⟨x, q⟩ := out
      rcases Queue.recv_eq_some hrecv with ⟨y, rest, rfl, hq, rfl⟩ | ⟨rfl, hq, hs, rfl⟩
      · cases y with
        | none =>
          simp only [Connection.collectIceCandidates, hrecv, Option.map_some,
            Option.some.injEq] at h
          rw [← h]
          exact .returned hc hq
        | some c =>
          simp only [Connection.collectIceCandidates, hrecv, Option.map_some,
            Option.some.injEq] at h
          rw [← h]
          exact .took hc hq
      · simp only [Connection.collectIceCandidates, hrecv, Option.map_some, Option.some.injEq] at h
        rw [← h]
        exact .failed hc hq hs

/-! ## The queue of candidates -/

/-- What an event does to the queue of candidates; the receivers are the calls. -/
def Event.queue : Event → Option (Queue.Event (Option ICECandidate) Nat)
  | .reported message => some (.sent message)
  | .took call message => some (.received call message)
  | .failed call _ => some (.disconnected call)
  | .called _ | .returned _ _ => none

/-- The candidates are a queue that is filled by the reports and emptied by the calls. -/
theorem queue_run (hr : (gathering platform).Run Machine.Free tr s) :
    (Queue.machine .unbounded).Run Machine.Free (tr.filterMap Event.queue) s.candidates ∧
      s.candidates.receiverAlive = true := by
  refine hr.invariant (I := fun tr s => (Queue.machine .unbounded).Run Machine.Free
    (tr.filterMap Event.queue) s.candidates ∧ s.candidates.receiverAlive = true)
    ⟨.init, rfl⟩ ?_
  intro tr s a t evs _ h _ hs
  obtain ⟨hrun, halive⟩ := h
  have hm := step_moves hs
  generalize hout : (t, evs) = out at hm
  rw [List.filterMap_append]
  cases hm with
  | @reported _ message hsender _ _ =>
    obtain ⟨rfl, rfl⟩ := Prod.mk.inj hout
    refine ⟨hrun.step (a := .send message) trivial ?_, halive⟩
    simp [Queue.machine, Queue.sending, Queue.send, hsender, halive, Event.queue]
  | skipped _ =>
    obtain ⟨rfl, rfl⟩ := Prod.mk.inj hout
    rw [List.filterMap_nil, List.append_nil]
    exact ⟨hrun, halive⟩
  | dropHandler =>
    obtain ⟨rfl, rfl⟩ := Prod.mk.inj hout
    exact ⟨hrun.step (a := .dropSender) trivial rfl, halive⟩
  | @called call _ =>
    obtain ⟨rfl, rfl⟩ := Prod.mk.inj hout
    have hnil : [Event.called call].filterMap Event.queue = [] := rfl
    rw [hnil, List.append_nil]
    exact ⟨hrun, halive⟩
  | @took call _ _ _ hq | @returned call _ _ hq =>
    obtain ⟨rfl, rfl⟩ := Prod.mk.inj hout
    refine ⟨hrun.step (a := .recv call) trivial ?_, halive⟩
    simp [Queue.machine, Queue.recv, hq, halive, Event.queue]
  | @failed call _ hq hsender =>
    obtain ⟨rfl, rfl⟩ := Prod.mk.inj hout
    refine ⟨hrun.step (a := .recv call) trivial ?_, halive⟩
    simp [Queue.machine, Queue.recv, hq, hsender, halive, Event.queue]

/-- The message that an event reports. -/
def Event.report : Event → Option (Option ICECandidate)
  | .reported message => some message
  | _ => none

/-- The message that an event takes. -/
def Event.take : Event → Option (Option ICECandidate)
  | .took _ message => some message
  | _ => none

/-- The message that an event takes for a call. -/
def Event.takeFor (call : Nat) : Event → Option (Option ICECandidate)
  | .took call' message => if call' = call then some message else none
  | _ => none

theorem Event.added_queue (e : Event) : e.queue.bind Queue.Event.added = e.report := by
  cases e <;> rfl

theorem Event.taken_queue (e : Event) : e.queue.bind Queue.Event.taken = e.take := by
  cases e <;> rfl

/-- What was reported has been taken, in order, or still waits. -/
theorem reports_eq (hr : (gathering platform).Run Machine.Free tr s) :
    tr.filterMap Event.report = tr.filterMap Event.take ++ s.candidates.queue := by
  have h := Queue.conserved (queue_run hr).1
  rwa [List.filterMap_filterMap, List.filterMap_filterMap, funext Event.added_queue,
    funext Event.taken_queue, Queue.unbounded, List.nil_append] at h

/-! ## Calls -/

/-- The last part of a trace, in which a call has taken these messages. -/
def Since (tr : List Event) (call : Nat) (messages : List (Option ICECandidate)) : Prop :=
  ∃ before during, tr = before ++ .called call :: during ∧ .called call ∉ during ∧
    during.filterMap (Event.takeFor call) = messages

/-- Events that do not start the call add what they take for it. -/
theorem Since.append {evs : List Event} {call : Nat} {messages : List (Option ICECandidate)}
    (h : Since tr call messages) (hcall : .called call ∉ evs) :
    Since (tr ++ evs) call (messages ++ evs.filterMap (Event.takeFor call)) := by
  obtain ⟨before, during, rfl, hno, rfl⟩ := h
  refine ⟨before, during ++ evs, by simp, ?_, List.filterMap_append⟩
  rw [List.mem_append, not_or]
  exact ⟨hno, hcall⟩

/-- A call that runs after a step is the one that the step starts, or adds to its candidates those
that the step takes for it. -/
theorem Moves.collecting {a : Action platform} {evs : List Event} (hm : s.Moves a (t, evs))
    {call : Nat} (hcall : call ∈ t.collecting) :
    (evs = [.called call] ∧ t.candidateInits call = []) ∨
      (call ∈ s.collecting ∧ .called call ∉ evs ∧
        (t.candidateInits call).map some =
          (s.candidateInits call).map some ++ evs.filterMap (Event.takeFor call)) := by
  generalize hout : (t, evs) = out at hm
  cases hm with
  | reported _ _ _ | skipped _ | dropHandler =>
    obtain ⟨rfl, rfl⟩ := Prod.mk.inj hout
    exact Or.inr ⟨hcall, by simp, by simp [List.filterMap_cons, Event.takeFor]⟩
  | @called call' _ =>
    obtain ⟨rfl, rfl⟩ := Prod.mk.inj hout
    by_cases h : call = call'
    · subst h
      exact Or.inl ⟨rfl, Function.update_self ..⟩
    · refine Or.inr ⟨Finset.mem_of_mem_insert_of_ne hcall h, by simp [h], ?_⟩
      simp [List.filterMap_cons, Event.takeFor, Function.update_of_ne h]
  | @took call' c _ _ _ =>
    obtain ⟨rfl, rfl⟩ := Prod.mk.inj hout
    refine Or.inr ⟨hcall, by simp, ?_⟩
    by_cases h : call = call'
    · subst h
      simp [Event.takeFor]
    · simp [Event.takeFor, Function.update_of_ne h, Ne.symm h]
  | @returned call' _ _ _ =>
    obtain ⟨rfl, rfl⟩ := Prod.mk.inj hout
    obtain ⟨hne, hold⟩ := Finset.mem_erase.mp hcall
    refine Or.inr ⟨hold, by simp, ?_⟩
    simp [List.filterMap_cons, Event.takeFor, Ne.symm hne]
  | failed _ _ _ =>
    obtain ⟨rfl, rfl⟩ := Prod.mk.inj hout
    refine Or.inr ⟨(Finset.mem_erase.mp hcall).2, by simp, ?_⟩
    simp [List.filterMap_cons, Event.takeFor]

/-- A call that has not returned has its candidates from the queue. -/
theorem collecting_since (hr : (gathering platform).Run Machine.Free tr s) :
    ∀ call ∈ s.collecting, Since tr call ((s.candidateInits call).map some) := by
  refine hr.invariant (I := fun tr s => ∀ call ∈ s.collecting,
    Since tr call ((s.candidateInits call).map some)) ?_ ?_
  · intro call hcall
    simp [gathering] at hcall
  · intro tr s a t evs _ h _ hs call hcall
    rcases (step_moves hs).collecting hcall with ⟨rfl, hnil⟩ | ⟨hold, hno, heq⟩
    · exact ⟨tr, [], rfl, by simp, by rw [hnil]; rfl⟩
    · rw [heq]
      exact (h call hold).append hno

/-- Calls of `collect_ice_candidates` share the reported candidates, whatever they are interleaved
with. The reports have been taken in order, each by one call, or still wait. A call that returns
has taken the candidates that it returns and then the end of a gathering. A call fails only where
no more candidates can come and all have been taken. -/
theorem candidates_shared (hr : (gathering platform).Run Machine.Free tr s) :
    tr.filterMap Event.report = tr.filterMap Event.take ++ s.candidates.queue ∧
      (∀ call candidateInits before after,
        tr = before ++ .returned call candidateInits :: after →
        Since before call (candidateInits.map some ++ [none])) ∧
      ∀ call dropped, .failed call dropped ∈ tr →
        s.candidates.senderAlive = false ∧ s.candidates.queue = [] := by
  refine ⟨reports_eq hr, fun call candidateInits => ?_, fun call dropped hmem => ?_⟩
  · refine hr.emitted (Q := fun before => Since before call (candidateInits.map some ++ [none])) ?_
    intro tr s a t before after hr _ hs
    have hm := step_moves hs
    generalize hout : (t, before ++ Event.returned call candidateInits :: after) = out at hm
    cases hm with
    | @returned call' rest hc _ =>
      obtain ⟨_, hevs⟩ := Prod.mk.inj hout
      rcases before with _ | ⟨e, before⟩
      · simp at hevs
      · rw [List.cons_append, List.cons.injEq] at hevs
        obtain ⟨rfl, hevs⟩ := hevs
        rcases List.append_eq_singleton_iff.mp hevs with ⟨rfl, hone⟩ | ⟨_, hno⟩
        · obtain ⟨rfl, rfl⟩ := Event.returned.inj (List.cons.inj hone).1
          have hcall : Event.called call ∉ [Event.took call none] := by simp
          have h := (collecting_since hr _ hc).append hcall
          simpa [Event.takeFor] using h
        · simp at hno
    | _ =>
      obtain ⟨_, hevs⟩ := Prod.mk.inj hout
      rcases before with _ | ⟨e, before⟩ <;> simp at hevs
  · have hq : Queue.Event.disconnected call ∈ tr.filterMap Event.queue :=
      List.mem_filterMap.mpr ⟨_, hmem, rfl⟩
    exact Queue.disconnected (queue_run hr).1 hq

/-- Two calls share two candidates: the one that takes the end of the gathering returns only the
second. -/
theorem candidates_shared_two : ∃ tr s, (gathering .wasm).Run Machine.Free tr s ∧
    Event.returned 1 [⟨"b", none, some 0, none⟩] ∈ tr ∧
      tr.filterMap Event.report = tr.filterMap Event.take ++ s.candidates.queue := by
  obtain ⟨tr, s, hr, hc⟩ := (gathering .wasm).exec_reaches Machine.Free
    [.onIceCandidate (some ⟨"a", none, some 0⟩), .collectIceCandidates 0, .collectIceCandidates 1,
      .onIceCandidate (some ⟨"b", none, some 0⟩), .poll 0, .poll 1, .onIceCandidate none, .poll 1]
    (fun c => decide (Event.returned 1 [⟨"b", none, some 0, none⟩] ∈ c.2)) (by decide +kernel)
  exact ⟨tr, s, hr, of_decide_eq_true hc, (candidates_shared hr).1⟩

/-! ## Calls that follow one another -/

/-- A call starts only where no other runs. -/
def FollowsOne (s : Gathering) : Action platform → Prop
  | .collectIceCandidates _ => s.collecting = ∅
  | _ => True

instance (s : Gathering) (a : Action platform) : Decidable (s.FollowsOne a) := by
  cases a <;> unfold FollowsOne <;> infer_instance

/-- The reports that a finished call has taken. -/
def Event.segment : Event → List (Option ICECandidate)
  | .returned _ candidateInits => candidateInits.map some ++ [none]
  | .failed _ dropped => dropped.map some
  | _ => []

/-- Where calls follow one another, the reports are those of the calls that have finished, then
those that the running call has taken, then those that wait. -/
def SegmentsInv (tr : List Event) (s : Gathering) : Prop :=
  ∃ pending : List ICECandidate,
    tr.filterMap Event.report =
      tr.flatMap Event.segment ++ pending.map some ++ s.candidates.queue ∧
    ((s.collecting = ∅ ∧ pending = []) ∨
      ∃ call, s.collecting = {call} ∧ pending = s.candidateInits call)

theorem Moves.segmentsInv {a : Action platform} {evs : List Event} (hm : s.Moves a (t, evs))
    (ha : s.FollowsOne a) (h : SegmentsInv tr s) : SegmentsInv (tr ++ evs) t := by
  obtain ⟨pending, heq, hcollect⟩ := h
  rw [SegmentsInv, List.filterMap_append, List.flatMap_append, heq]
  generalize hout : (t, evs) = out at hm
  cases hm with
  | reported _ _ _ =>
    obtain ⟨rfl, rfl⟩ := Prod.mk.inj hout
    exact ⟨pending, by simp [Event.report, Event.segment], hcollect⟩
  | skipped _ | dropHandler =>
    obtain ⟨rfl, rfl⟩ := Prod.mk.inj hout
    exact ⟨pending, by simp, hcollect⟩
  | @called call _ =>
    obtain ⟨rfl, rfl⟩ := Prod.mk.inj hout
    have hnone : s.collecting = ∅ := ha
    rcases hcollect with ⟨_, rfl⟩ | ⟨call', hone, _⟩
    · refine ⟨[], by simp [List.filterMap_cons, Event.report, Event.segment], Or.inr ⟨call, ?_, ?_⟩⟩
      · simp [hnone]
      · simp
    · simp [hnone] at hone
  | @took call c rest hc hq =>
    obtain ⟨rfl, rfl⟩ := Prod.mk.inj hout
    rcases hcollect with ⟨hnone, _⟩ | ⟨call', hone, rfl⟩
    · simp [hnone] at hc
    · obtain rfl : call = call' := by simpa [hone] using hc
      refine ⟨s.candidateInits call ++ [c], ?_, Or.inr ⟨call, hone, ?_⟩⟩
      · simp [List.filterMap_cons, Event.report, Event.segment, hq]
      · simp
  | @returned call rest hc hq =>
    obtain ⟨rfl, rfl⟩ := Prod.mk.inj hout
    rcases hcollect with ⟨hnone, _⟩ | ⟨call', hone, rfl⟩
    · simp [hnone] at hc
    · obtain rfl : call = call' := by simpa [hone] using hc
      refine ⟨[], ?_, Or.inl ⟨by rw [hone, Finset.erase_singleton], rfl⟩⟩
      simp [List.filterMap_cons, Event.report, Event.segment, hq]
  | @failed call hc hq _ =>
    obtain ⟨rfl, rfl⟩ := Prod.mk.inj hout
    rcases hcollect with ⟨hnone, _⟩ | ⟨call', hone, rfl⟩
    · simp [hnone] at hc
    · obtain rfl : call = call' := by simpa [hone] using hc
      refine ⟨[], ?_, Or.inl ⟨by rw [hone, Finset.erase_singleton], rfl⟩⟩
      simp [List.filterMap_cons, Event.report, Event.segment, hq]

/-- Calls that follow one another return the candidates of one gathering each: the reports are
the candidates of the calls that have returned, each list with the end of its gathering, then what
the running call has taken and what waits. Nothing is lost but what a failed call has taken. -/
theorem candidates_collected (hr : (gathering platform).Run FollowsOne tr s) :
    ∃ pending : List ICECandidate,
      tr.filterMap Event.report =
        tr.flatMap Event.segment ++ pending.map some ++ s.candidates.queue ∧
      ((s.collecting = ∅ ∧ pending = []) ∨
        ∃ call, s.collecting = {call} ∧ pending = s.candidateInits call) :=
  hr.invariant (I := SegmentsInv) ⟨[], rfl, Or.inl ⟨rfl, rfl⟩⟩
    fun _ h ha hs => (step_moves hs).segmentsInv ha h

/-- A second call after the end of the gathering waits, with no candidate. -/
theorem candidates_collected_twice : ∃ tr s, (gathering .native).Run FollowsOne tr s ∧
    tr.flatMap Event.segment = [some ⟨"a", none, none, some "u"⟩, none] ∧
      s.collecting = {1} ∧ ∃ pending : List ICECandidate, tr.filterMap Event.report =
        tr.flatMap Event.segment ++ pending.map some ++ s.candidates.queue := by
  obtain ⟨tr, s, hr, hc⟩ := (gathering .native).exec_reaches FollowsOne
    [.onIceCandidate (some (some ⟨"a", none, none, some "u"⟩)), .onIceCandidate (some none),
      .onIceCandidate none, .collectIceCandidates 0, .poll 0, .poll 0, .collectIceCandidates 1]
    (fun c => decide (c.2.flatMap Event.segment = [some ⟨"a", none, none, some "u"⟩, none] ∧
      c.1.collecting = {1})) (by decide +kernel)
  obtain ⟨hseg, hcollect⟩ := of_decide_eq_true hc
  obtain ⟨pending, heq, _⟩ := candidates_collected hr
  exact ⟨tr, s, hr, hseg, hcollect, pending, heq⟩

end Gathering

end JustWebrtc.Connection
