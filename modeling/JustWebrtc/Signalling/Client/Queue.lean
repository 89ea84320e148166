import JustWebrtc.Signalling.Client.Runs

/-!
# The queue of a peer

Futures are conserved: a listener is in the queue until it fails, and a callback's future
until it completes. So between steps each listener that has not failed is queued exactly
once, and the queue runs empty exactly when all three listeners have failed and every
callback that was called has completed. A step that polls the empty queue panics.
-/

namespace JustWebrtc.Signalling

variable {A O C : Type*}

/-- The streams of the server that a future may own: that of a peer listener, or a channel. -/
inductive Source
  | stream (i : Nat)
  | channel (c : Nat)
  deriving DecidableEq, Repr

/-- The stream that a future owns. -/
def Task.source : Task A O C → Option Source
  | .peerListener listener => some (.stream listener.source)
  | .offerListener listener | .answerListener listener => some (.channel listener.source)
  | _ => none

namespace Peer

variable {codecs : Codecs A O C} {localId : Id} {i c c' : Nat}
  {ok : Peer A O C → Input A O C → Prop} {tr : List (Peer.Event A O C)} {p : Peer A O C}

/-- A listener of a kind completes with an error. -/
def Event.failed (kind : Listener) : Peer.Event A O C → Bool
  | .completed task (.error _) => task.listensTo kind
  | _ => false

/-- The listener of a kind has completed with an error. -/
def ListenerFailed (tr : List (Peer.Event A O C)) (kind : Listener) : Prop :=
  ∃ event ∈ tr, event.failed kind = true

instance (tr : List (Peer.Event A O C)) (kind : Listener) : Decidable (ListenerFailed tr kind) :=
  inferInstanceAs (Decidable (∃ event ∈ tr, event.failed kind = true))

/-- The callback that an event completes, with whatever result. -/
def Event.finished : Peer.Event A O C → Option (Task A O C)
  | .completed task _ => if task.isCallback then some task else none
  | _ => none

/-- The callbacks that have completed in a run, in order. -/
def finished (tr : List (Peer.Event A O C)) : List (Task A O C) := tr.filterMap Event.finished

/-- The callbacks that have completed are those among the retired futures. -/
theorem finished_eq (hr : (peer codecs localId i c c').Run ok tr p) :
    finished tr = (retired tr).filter Task.isCallback := by
  rw [finished, retired, List.filter_filterMap]
  refine List.filterMap_congr fun e he => ?_
  cases e with
  | completed task result =>
    cases result with
    | error e => by_cases h : task.isCallback = true <;>
        simp [Event.finished, Event.retired, Option.filter, h]
    | ok state =>
      have hre := completed_ok hr he
      by_cases h : task.isCallback = true
      · simp [Event.finished, Event.retired, Option.filter, h, hre.mpr h]
      · have hsome : state.relisten.isNone = false := by
          rw [← Bool.not_eq_true, Option.isNone_iff_eq_none]
          exact fun hn => h (hre.mp hn)
        simp [Event.finished, Event.retired, h, hsome]
  | _ => simp [Event.finished, Event.retired]

/-- A listener has failed exactly when it is among the retired futures. -/
theorem listenerFailed_iff (hr : (peer codecs localId i c c').Run ok tr p) (kind : Listener) :
    ListenerFailed tr kind ↔ 0 < (retired tr).countP (Task.listensTo kind) := by
  rw [List.countP_pos_iff]
  constructor
  · rintro ⟨event, he, hk⟩
    cases event with
    | completed task result =>
      cases result with
      | error e => exact ⟨task, List.mem_filterMap.mpr ⟨_, he, rfl⟩, hk⟩
      | ok _ => simp [Event.failed] at hk
    | _ => simp [Event.failed] at hk
  · rintro ⟨task, ht, hk⟩
    obtain ⟨event, he, hret⟩ := List.mem_filterMap.mp ht
    cases event with
    | completed task' result =>
      cases result with
      | error e =>
        rw [Event.retired, Option.some.injEq] at hret
        subst hret
        exact ⟨_, he, hk⟩
      | ok state =>
        rw [Event.retired, Option.ite_none_right_eq_some, Option.isNone_iff_eq_none,
          Option.some.injEq] at hret
        obtain ⟨hre, rfl⟩ := hret
        have hl := Task.listener_of_callback ((completed_ok hr he).mp hre)
        simp [Task.listensTo, hl] at hk
    | _ => simp [Event.retired] at hret

/-- Each listener is queued once until it fails. -/
theorem countP_listensTo (hr : (peer codecs localId i c c').Run ok tr p) (kind : Listener) :
    p.unorderedFuts.countP (Task.listensTo kind) +
      (retired tr).countP (Task.listensTo kind) = 1 := by
  have hnew : (Peer.new localId i c c' : Peer A O C).unorderedFuts.countP
      (Task.listensTo kind) = 1 := by
    cases kind with
    | peer => rfl
    | signal slot => cases slot <;> rfl
  have hstart : (started tr).countP (Task.listensTo kind) = 0 := by
    rw [List.countP_eq_zero]
    intro task ht
    simp [Task.listensTo, Task.listener_of_callback (started_callback hr task ht)]
  have h := conserved hr (stable_listensTo kind)
  omega

/-- A callback's future is queued from its call until it completes. -/
theorem countP_isCallback (hr : (peer codecs localId i c c').Run ok tr p) :
    p.unorderedFuts.countP Task.isCallback + (finished tr).length = (started tr).length := by
  have hnew : (Peer.new localId i c c' : Peer A O C).unorderedFuts.countP Task.isCallback = 0 :=
    rfl
  have hstart : (started tr).countP Task.isCallback = (started tr).length :=
    List.countP_eq_length.mpr (started_callback hr)
  have h := conserved hr (stable_of_callback (P := Task.isCallback) fun _ ht => ht)
  rw [finished_eq hr, ← List.countP_eq_length_filter]
  omega

/-- Every listener listens to the stream that its peer was given for it. -/
theorem source_eq (hr : (peer codecs localId i c c').Run ok tr p) :
    ∀ task ∈ p.unorderedFuts, ∀ kind listener, task.listener = some (kind, listener) →
      listener.source = match kind with
        | .peer => i
        | .signal .offer => c
        | .signal .answer => c' := by
  refine hr.invariant (I := fun _ p => ∀ task ∈ p.unorderedFuts, ∀ kind listener,
    task.listener = some (kind, listener) → listener.source = match kind with
      | .peer => i
      | .signal .offer => c
      | .signal .answer => c') ?_ ?_
  · intro task ht kind listener hl
    simp only [peer, Peer.new, List.mem_cons, List.not_mem_nil, or_false] at ht
    rcases ht with rfl | rfl | rfl <;>
      rw [Task.listener, Option.some.injEq, Prod.mk.injEq] at hl <;>
      obtain ⟨rfl, rfl⟩ := hl <;> rfl
  · intro tr p input q evs _ h _ hs task ht kind listener hl
    simp only [peer, Option.map_eq_some_iff, Prod.mk.injEq] at hs
    obtain ⟨out, hact, rfl, rfl⟩ := hs
    obtain ⟨task', ht', listener', hl', hsrc⟩ := (act_acts hact).streams ht hl
    rw [← hsrc]
    exact h task' ht' kind listener' hl'

/-- Futures of a kind that is queued at most once are the same future. -/
theorem single_listener (h : ∀ kind, p.unorderedFuts.countP (Task.listensTo kind) ≤ 1) {m n : Nat}
    {task task' : Task A O C} (hm : p.unorderedFuts[m]? = some task)
    (hn : p.unorderedFuts[n]? = some task') {kind : Listener} (ht : task.listensTo kind = true)
    (ht' : task'.listensTo kind = true) : m = n := by
  by_contra hne
  have hle := h kind
  rw [(futs_perm hm).countP_eq, List.countP_cons_of_pos ht] at hle
  have hmem : task' ∈ p.unorderedFuts.eraseIdx m :=
    List.mem_eraseIdx_iff_getElem?.mpr ⟨n, fun he => hne he.symm, hn⟩
  have hpos : 0 < (p.unorderedFuts.eraseIdx m).countP (Task.listensTo kind) :=
    List.countP_pos_iff.mpr ⟨task', hmem, ht'⟩
  omega

/-- A future that owns a stream is a listener, and owns the stream of its kind. -/
theorem source_cases (hr : (peer codecs localId i c c').Run ok tr p) {task : Task A O C}
    {x : Source} (ht : task ∈ p.unorderedFuts) (hx : task.source = some x) :
    ∃ kind, task.listensTo kind = true ∧ x = match kind with
      | .peer => .stream i
      | .signal .offer => .channel c
      | .signal .answer => .channel c' := by
  have hsource := source_eq hr task ht
  cases task with
  | peerListener l =>
    have hl := hsource .peer l rfl
    rw [Task.source, Option.some.injEq, hl] at hx
    exact ⟨.peer, rfl, hx.symm⟩
  | offerListener l =>
    have hl := hsource (.signal .offer) l rfl
    rw [Task.source, Option.some.injEq, hl] at hx
    exact ⟨.signal .offer, rfl, hx.symm⟩
  | answerListener l =>
    have hl := hsource (.signal .answer) l rfl
    rw [Task.source, Option.some.injEq, hl] at hx
    exact ⟨.signal .answer, rfl, hx.symm⟩
  | _ => simp [Task.source] at hx

/-- At every point of every run, each listener is queued exactly once unless it has failed, and
then not at all, and no two queued futures own the same stream. -/
theorem listeners_queued (hr : (peer codecs localId i c c').Run Machine.Free tr p)
    (hne : c ≠ c') :
    (∀ kind, (ListenerFailed tr kind → p.unorderedFuts.countP (Task.listensTo kind) = 0) ∧
        (¬ ListenerFailed tr kind → p.unorderedFuts.countP (Task.listensTo kind) = 1)) ∧
      ∀ (m n : Nat) (task task' : Task A O C) (x : Source), p.unorderedFuts[m]? = some task →
        p.unorderedFuts[n]? = some task' → task.source = some x → task'.source = some x →
        m = n := by
  have hcount := countP_listensTo hr
  refine ⟨fun kind => ?_, fun m n task task' x hm hn hx hx' => ?_⟩
  · rw [listenerFailed_iff hr]
    have hone := hcount kind
    exact ⟨fun hf => by omega, fun hf => by omega⟩
  · obtain ⟨kind, hk, rfl⟩ := source_cases hr (List.mem_of_getElem? hm) hx
    obtain ⟨kind', hk', hsame⟩ := source_cases hr (List.mem_of_getElem? hn) hx'
    have hkind : kind = kind' := by
      rcases kind with _ | _ | _ <;> rcases kind' with _ | _ | _ <;> simp_all
    subst hkind
    exact single_listener (fun kind => by have := hcount kind; omega) hm hn hk hk'

/-- Of a peer whose offer stream has closed, the other two listeners are queued. -/
theorem listeners_queued_closed : ∃ tr, ∃ p : Peer Unit Unit Unit,
    (peer Codecs.unit 1 0 0 1).Run Machine.Free tr p ∧
      p.unorderedFuts.countP (Task.listensTo (.signal .offer)) = 0 ∧
      p.unorderedFuts.countP (Task.listensTo (.signal .answer)) = 1 := by
  obtain ⟨tr, p, hr, hc⟩ := (peer Codecs.unit 1 0 0 1).exec_reaches Machine.Free
    [.signalMessage 1 (.ok none)]
    (fun c => decide (ListenerFailed c.2 (.signal .offer) ∧
      ¬ ListenerFailed c.2 (.signal .answer))) (by decide +kernel)
  obtain ⟨hoffer, hanswer⟩ := of_decide_eq_true hc
  have hkinds := (listeners_queued hr (by decide)).1
  exact ⟨tr, p, hr, (hkinds _).1 hoffer, (hkinds _).2 hanswer⟩

/-- The queue runs empty exactly when all listeners have failed and all callbacks that were
called have completed: until then a step that polls it finds a future. -/
theorem step_polls_nonempty (hr : (peer codecs localId i c c').Run Machine.Free tr p) :
    p.unorderedFuts ≠ [] ↔
      (∃ kind, ¬ ListenerFailed tr kind) ∨ (finished tr).length < (started tr).length := by
  have hcallbacks := countP_isCallback hr
  have hlisteners (kind : Listener) : ¬ ListenerFailed tr kind ↔
      0 < p.unorderedFuts.countP (Task.listensTo kind) := by
    have hone := countP_listensTo hr kind
    rw [listenerFailed_iff hr]
    omega
  have hrunning : (finished tr).length < (started tr).length ↔
      0 < p.unorderedFuts.countP Task.isCallback := by omega
  simp only [hlisteners, hrunning, List.countP_pos_iff]
  constructor
  · intro hne
    obtain ⟨task, ht⟩ := List.exists_mem_of_ne_nil _ hne
    cases task with
    | peerListener l => exact Or.inl ⟨.peer, _, ht, rfl⟩
    | offerListener l => exact Or.inl ⟨.signal .offer, _, ht, rfl⟩
    | answerListener l => exact Or.inl ⟨.signal .answer, _, ht, rfl⟩
    | _ => exact Or.inr ⟨_, ht, rfl⟩
  · rintro (⟨_, task, ht, _⟩ | ⟨task, ht, _⟩) <;> exact List.ne_nil_of_mem ht

/-- While a callback is running, the step of a peer whose streams have all closed has a future
to poll. -/
theorem step_polls_nonempty_callback : ∃ tr, ∃ p : Peer Unit Unit Unit,
    (peer Codecs.unit 1 0 0 1).Run Machine.Free tr p ∧ p.progress = .idle ∧
      (∀ kind, ListenerFailed tr kind) ∧ p.unorderedFuts ≠ [] := by
  obtain ⟨tr, p, hr, hc⟩ := (peer Codecs.unit 1 0 0 1).exec_reaches Machine.Free
    [.signalMessage 1 (.ok (some ⟨some ⟨7, [], []⟩⟩)), .peerMessage 0 (.ok none),
      .signalMessage 0 (.ok none), .signalMessage 0 (.ok none)]
    (fun c => decide (c.1.progress = .idle ∧ ListenerFailed c.2 .peer ∧
      (∀ slot ∈ [Slot.offer, Slot.answer], ListenerFailed c.2 (.signal slot)) ∧
      (finished c.2).length < (started c.2).length)) (by decide +kernel)
  obtain ⟨hidle, hpeer, hsignal, hrunning⟩ := of_decide_eq_true hc
  refine ⟨tr, p, hr, hidle, fun kind => ?_, (step_polls_nonempty hr).mpr (Or.inr hrunning)⟩
  cases kind with
  | peer => exact hpeer
  | signal slot => exact hsignal slot (by cases slot <;> simp)

/-- The queue of a peer whose three streams have closed is empty, and its next step panics. -/
theorem step_polls_empty : ∃ tr, ∃ p : Peer Unit Unit Unit,
    (peer Codecs.unit 1 0 0 1).Run Machine.Free tr p ∧ p.progress = .idle ∧
      p.unorderedFuts = [] := by
  obtain ⟨tr, p, hr, hc⟩ := (peer Codecs.unit 1 0 0 1).exec_reaches Machine.Free
    [.peerMessage 0 (.ok none), .signalMessage 0 (.ok none), .signalMessage 0 (.ok none)]
    (fun c => decide (c.1.progress = .idle ∧ c.1.unorderedFuts = [])) (by decide +kernel)
  exact ⟨tr, p, hr, of_decide_eq_true hc⟩

end Peer

end JustWebrtc.Signalling
