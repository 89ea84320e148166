import JustWebrtc.Example.Connections

/-!
# Example peers

Any number of example peers run against one server. Each goes on while the steps of its
signalling peer return no error, and polls the futures of its callbacks only within a step that
awaits the next completion. Seen without their maps of connections, the peers make an honest run
of the signalling system.
-/

namespace JustWebrtc.Example

open Connection (SessionDescription ICECandidate)
open Signalling

variable {ι : Type*} [DecidableEq ι]

/-- The signalling system of example peers. -/
abbrev Signals (ι : Type*) := System ι SessionDescription SessionDescription (List ICECandidate)

/-- The codecs of example peers. -/
abbrev Bincode := Codecs SessionDescription SessionDescription (List ICECandidate)

/-- The input that an action gives to the peer of its client. -/
def heard (s : Signals ι)
    (p : Peer SessionDescription SessionDescription (List ICECandidate)) :
    System.Action ι SessionDescription SessionDescription (List ICECandidate) →
    Option (Input SessionDescription SessionDescription (List ICECandidate))
  | .reply j =>
    match (s.clients j).call with
    | none => none
    | some k =>
      match s.server.calls[k]? with
      | some ⟨_, .done result⟩ => some (.response result)
      | _ => none
  | .fail _ status => some (.response (.error status))
  | .listen _ i => s.nextMessage p i
  | .lose _ i status => System.lostMessage p i status
  | .finish _ i result => some (.callback i result)
  | .server _ | .start _ | .close _ => none

/-- The client whose step returns an error with an action. -/
def returnsError (codecs : Bincode) (s : Signals ι)
    (a : System.Action ι SessionDescription SessionDescription (List ICECandidate)) : Option ι :=
  match a.client with
  | none => none
  | some j =>
    match s.clients j with
    | .running p _ =>
      match (heard s p a).bind (p.act codecs) with
      | some out =>
        match out.returned with
        | some (.error _) => some j
        | _ => none
      | none => none
    | _ => none

/-- The actions that are neither the completion of a callback nor taken by an example peer. -/
def driven : System.Action ι SessionDescription SessionDescription (List ICECandidate) → Bool
  | .finish _ _ _ | .close _ | .server (.receive _) => false
  | _ => true

/-- A server with its example peers. -/
structure Peers (ι : Type*) where
  signalling : Signals ι
  apps : ι → App

/-- What can happen to example peers. -/
inductive Action (ι : Type*)
  | system (action : System.Action ι SessionDescription SessionDescription (List ICECandidate))
  /-- A client polls the future of a callback. -/
  | poll (client : ι) (future : Nat) (answers : Answers)

/-- What a run of example peers records. -/
inductive Event (ι : Type*)
  | system (event : System.Event ι SessionDescription SessionDescription (List ICECandidate))
  | app (client : ι) (event : App.Event)

/-- The event of the signalling system. -/
def Event.signal : Event ι →
    Option (System.Event ι SessionDescription SessionDescription (List ICECandidate))
  | .system e => some e
  | .app _ _ => none

/-- The run of the signalling system within a run of example peers. -/
def signals (tr : List (Event ι)) :
    List (System.Event ι SessionDescription SessionDescription (List ICECandidate)) :=
  tr.filterMap Event.signal

namespace Peers

/-- The client whose step returns an error stops. -/
def stopAt (apps : ι → App) : Option ι → ι → App
  | some j => Function.update apps j (apps j).stop
  | none => apps

/-- An action of the signalling system; a client whose step returns an error stops. -/
def drive (codecs : Bincode) (s : Peers ι)
    (a : System.Action ι SessionDescription SessionDescription (List ICECandidate)) :
    Option (Peers ι × List (Event ι)) :=
  (s.signalling.step codecs a).map fun out =>
    ({ signalling := out.1
       apps := stopAt s.apps (returnsError codecs s.signalling a) }, out.2.map .system)

/-- One step of the example peers. -/
def step (codecs : Bincode) (s : Peers ι) : Action ι → Option (Peers ι × List (Event ι))
  | .system a =>
    if driven a = true ∧ ∀ j ∈ a.client, (s.apps j).stopped = false then s.drive codecs a
    else none
  | .poll j i answers =>
    if (s.apps j).stopped then none
    else
      match s.signalling.clients j with
      | .running p _ =>
        match p.progress, p.unorderedFuts[i]? with
        | .idle, some task =>
          match (s.apps j).poll task answers with
          | none => none
          | some polled =>
            let s := { s with apps := Function.update s.apps j polled.app }
            match polled.result with
            | none => some (s, polled.events.map (.app j))
            | some result =>
              (s.drive codecs (.finish j i (result.mapError fun _ => .externalFn))).map fun out =>
                (out.1, polled.events.map (.app j) ++ out.2)
        | _, _ => none
      | _ => none

end Peers

/-- Example peers that have not started yet. -/
def peers (ι : Type*) [DecidableEq ι] (codecs : Bincode) :
    Machine (Peers ι) (Action ι) (Event ι) where
  init := { signalling := (system ι codecs).init, apps := fun _ => .new }
  step := Peers.step codecs

namespace Peers

variable {codecs : Bincode} {s t : Peers ι} {tr evs : List (Event ι)}

/-- The steps, each with its guards. -/
inductive Moves (codecs : Bincode) (s : Peers ι) :
    Action ι → Peers ι × List (Event ι) → Prop
  | system {a t apps evs} : driven a = true →
      s.signalling.step codecs a = some (t, evs) →
      (∀ j, apps j = s.apps j ∨ apps j = (s.apps j).stop) →
      Moves codecs s (.system a) (⟨t, apps⟩, evs.map .system)
  | pending {j i answers p call task app events} : (s.apps j).stopped = false →
      s.signalling.clients j = .running p call → task ∈ p.unorderedFuts →
      (s.apps j).Polls task ⟨app, none, events⟩ →
      Moves codecs s (.poll j i answers)
        ({ s with apps := Function.update s.apps j app }, events.map (.app j))
  | finished {j i answers p call task app app' state events t evs} :
      (s.apps j).stopped = false →
      s.signalling.clients j = .running p call → p.unorderedFuts[i]? = some task →
      (s.apps j).Polls task ⟨app, some (.ok state), events⟩ →
      s.signalling.step codecs (.finish j i (.ok state)) = some (t, evs) →
      app' = app ∨ app' = app.stop →
      Moves codecs s (.poll j i answers)
        (⟨t, Function.update s.apps j app'⟩, events.map (.app j) ++ evs.map .system)
  | failed {j i answers p call task app e events t evs} :
      (s.apps j).stopped = false →
      s.signalling.clients j = .running p call → task ∈ p.unorderedFuts →
      (s.apps j).Polls task ⟨app, some (.error e), events⟩ →
      s.signalling.step codecs (.finish j i (.error .externalFn)) = some (t, evs) →
      Moves codecs s (.poll j i answers)
        (⟨t, Function.update s.apps j app.stop⟩,
          events.map (.app j) ++ evs.map .system)

omit [DecidableEq ι] in
/-- Only the client of an action returns from a step. -/
theorem returnsError_client {s : Signals ι} {j : ι}
    {a : System.Action ι SessionDescription SessionDescription (List ICECandidate)}
    (h : returnsError codecs s a = some j) : a.client = some j := by
  unfold returnsError at h
  split at h
  · simp at h
  · rename_i j' hj
    repeat' split at h
    all_goals first | exact hj.trans h | simp at h

theorem stopAt_cases (apps : ι → App) (o : Option ι) (j : ι) :
    stopAt apps o j = apps j ∨ stopAt apps o j = (apps j).stop := by
  cases o with
  | none => exact Or.inl rfl
  | some j' =>
    by_cases hj : j = j'
    · subst hj
      exact Or.inr (Function.update_self ..)
    · exact Or.inl (Function.update_of_ne hj ..)

theorem stopAt_update (apps : ι → App) (j : ι) (app : App) :
    stopAt (Function.update apps j app) (some j) = Function.update apps j app.stop := by
  rw [stopAt, Function.update_self, Function.update_idem]

omit [DecidableEq ι] in
/-- A client whose callback returns an error stops. -/
theorem returnsError_failed {s : Signals ι} {j : ι} {i : Nat}
    {p : Peer SessionDescription SessionDescription (List ICECandidate)} {call : Option Nat}
    {task : Task SessionDescription SessionDescription (List ICECandidate)}
    (hj : s.clients j = .running p call) (hidle : p.progress = .idle)
    (htask : p.unorderedFuts[i]? = some task) (hcallback : task.isCallback = true) :
    returnsError codecs s (.finish j i (.error .externalFn)) = some j := by
  have hact : p.act codecs (.callback i (.error .externalFn)) =
      some (p.complete codecs i (.error .externalFn)) := by
    simp [Peer.act, hidle, htask, hcallback, Except.toOption]
  simp [returnsError, System.Action.client, hj, heard, hact, Peer.complete]

/-- Every step is one of these. -/
theorem step_moves {a : Action ι} (h : s.step codecs a = some (t, evs)) :
    Moves codecs s a (t, evs) := by
  cases a with
  | system a =>
    rw [step, Option.ite_none_right_eq_some, drive, Option.map_eq_some_iff] at h
    obtain ⟨⟨hdriven, _⟩, out, hs, h⟩ := h
    rw [← h]
    exact .system hdriven hs (stopAt_cases s.apps _)
  | poll j i answers =>
    rw [step, Option.ite_none_left_eq_some] at h
    obtain ⟨hstopped, h⟩ := h
    rw [Bool.not_eq_true] at hstopped
    cases hj : s.signalling.clients j with
    | running p call =>
      simp only [hj] at h
      cases hidle : p.progress with
      | idle =>
        cases htask : p.unorderedFuts[i]? with
        | none => simp [hidle, htask] at h
        | some task =>
          simp only [hidle, htask] at h
          cases hpoll : (s.apps j).poll task answers with
          | none => simp [hpoll] at h
          | some polled =>
            simp only [hpoll] at h
            have hpolls := App.poll_polls hpoll
            obtain ⟨app, result, events⟩ := polled
            rcases result with _ | e | state
            · simp only [Option.some.injEq] at h
              rw [← h]
              exact .pending hstopped hj (List.mem_of_getElem? htask) hpolls
            · simp only [Except.mapError, drive, Option.map_map, Option.map_eq_some_iff,
                Function.comp_apply] at h
              obtain ⟨out, hs, h⟩ := h
              rw [returnsError_failed hj hidle htask hpolls.isCallback, stopAt_update] at h
              rw [← h]
              exact .failed hstopped hj (List.mem_of_getElem? htask) hpolls hs
            · simp only [Except.mapError, drive, Option.map_map, Option.map_eq_some_iff,
                Function.comp_apply] at h
              obtain ⟨out, hs, h⟩ := h
              rw [← h]
              cases herr : returnsError codecs s.signalling (.finish j i (.ok state)) with
              | none => exact .finished hstopped hj htask hpolls hs (Or.inl rfl)
              | some j' =>
                obtain rfl := Option.some.inj (returnsError_client herr)
                simp only [stopAt_update]
                exact .finished hstopped hj htask hpolls hs (Or.inr rfl)
      | _ => simp [hidle] at h
    | _ => simp [hj] at h

omit [DecidableEq ι] in
@[simp] theorem signals_system
    (evs : List (System.Event ι SessionDescription SessionDescription (List ICECandidate))) :
    signals (evs.map Event.system) = evs := by
  induction evs with
  | nil => rfl
  | cons e evs ih =>
    rw [List.map_cons, signals, List.filterMap_cons]
    exact congrArg (e :: ·) ih

omit [DecidableEq ι] in
@[simp] theorem signals_app (j : ι) (evs : List App.Event) :
    signals (evs.map (Event.app j)) = [] := by
  rw [signals, List.filterMap_eq_nil_iff]
  intro e he
  obtain ⟨e', _, rfl⟩ := List.mem_map.mp he
  rfl

omit [DecidableEq ι] in
@[simp] theorem signals_append (tr evs : List (Event ι)) :
    signals (tr ++ evs) = signals tr ++ signals evs := List.filterMap_append

omit [DecidableEq ι] in
theorem honest_driven {s : Signals ι}
    {a : System.Action ι SessionDescription SessionDescription (List ICECandidate)}
    (h : driven a = true) : s.Honest a := by
  refine ⟨?_, fun q hq => ?_⟩
  · cases a with
    | server a => cases a <;> simp_all [driven, System.Action.outside]
    | _ => rfl
  · cases a with
    | finish _ _ _ => simp [driven] at h
    | _ => simp [System.Action.finished] at hq

/-- The signalling of example peers is an honest run of the signalling system. -/
theorem signals_run {ok : Peers ι → Action ι → Prop} (hr : (peers ι codecs).Run ok tr s) :
    (system ι codecs).Run System.Honest (signals tr) s.signalling := by
  refine hr.invariant
    (I := fun tr s => (system ι codecs).Run System.Honest (signals tr) s.signalling)
    .init ?_
  intro tr s a t evs _ h _ hs
  have hm := step_moves hs
  generalize hout : (t, evs) = out at hm
  rw [signals_append]
  cases hm with
  | system hdriven hstep _ =>
    obtain ⟨rfl, rfl⟩ := Prod.mk.inj hout
    rw [signals_system]
    exact h.step (honest_driven hdriven) hstep
  | pending _ _ _ _ =>
    obtain ⟨rfl, rfl⟩ := Prod.mk.inj hout
    rw [signals_app, List.append_nil]
    exact h
  | @finished j i _ p call task _ _ state _ _ _ _ hj htask hpolls hstep _ =>
    obtain ⟨rfl, rfl⟩ := Prod.mk.inj hout
    rw [signals_append, signals_app, signals_system, List.nil_append]
    have honest : s.signalling.Honest (.finish j i (.ok state)) := by
      refine ⟨rfl, fun q hq p' hp task' htask' => ?_⟩
      obtain rfl : q = (j, i, state) := by simpa [System.Action.finished] using hq.symm
      obtain rfl : p' = p := by simpa [hj, Client.peer?] using hp.symm
      obtain rfl : task' = task := by simpa [htask] using htask'.symm
      exact (hpolls.state rfl).2.1
    exact h.step honest hstep
  | @failed j i _ _ _ _ _ _ _ _ _ _ _ _ _ hstep =>
    obtain ⟨rfl, rfl⟩ := Prod.mk.inj hout
    rw [signals_append, signals_app, signals_system, List.nil_append]
    have honest : s.signalling.Honest (.finish j i (.error .externalFn)) :=
      ⟨rfl, by simp [System.Action.finished]⟩
    exact h.step honest hstep

end Peers

end JustWebrtc.Example
