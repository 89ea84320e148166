import JustWebrtc.Signalling.System.Agreement

/-!
# The order of a client's callbacks

The callbacks of a client for one remote peer complete in the order in which the signalling goes
on: an answer is received after an offer has been created, and each completion is called after
the description before it has been handled. A callback whose future is queued has not completed,
since no callback is called twice for a remote peer.
-/

namespace JustWebrtc.Signalling

variable {ι A O C : Type*} [DecidableEq ι]

namespace System

variable {codecs : Codecs A O C} {tr evs : List (Event ι A O C)} {s t : System ι A O C}
  {a : Action ι A O C} {j : ι} {key : Callback × Id}

/-- What a callback of client `j` returned for a remote peer has been consumed. -/
def Done (tr : List (Event ι A O C)) (j : ι) (key : Callback × Id) : Prop :=
  ∃ state, Event.consumed j state ∈ tr ∧ state.callback = some key

omit [DecidableEq ι] in
theorem Done.mono (h : Done tr j key) : Done (tr ++ evs) j key := by
  obtain ⟨state, hm, hkey⟩ := h
  exact ⟨state, List.mem_append_left _ hm, hkey⟩

omit [DecidableEq ι] in
/-- New events complete a callback only by consuming what it returned. -/
theorem Done.of_append (h : Done (tr ++ evs) j key)
    (hevs : ∀ state, Event.consumed j state ∈ evs → state.callback ≠ some key) : Done tr j key := by
  obtain ⟨state, hm, hkey⟩ := h
  rcases List.mem_append.mp hm with hold | hnew
  · exact ⟨state, hold, hkey⟩
  · exact absurd hkey (hevs state hnew)

theorem done_iff : Done tr j key ↔ 0 < results j key tr := by
  rw [results, List.countP_pos_iff]
  constructor
  · rintro ⟨state, hm, hkey⟩
    exact ⟨_, hm, by simp [Event.Consumes, hkey]⟩
  · rintro ⟨e, hm, he⟩
    cases e with
    | consumed i state =>
      simp only [Event.Consumes, Bool.and_eq_true, decide_eq_true_eq] at he
      obtain ⟨rfl, hkey⟩ := he
      exact ⟨state, hm, hkey⟩
    | _ => simp [Event.Consumes] at he

theorem calls_pos {task : Task A O C} (h : Event.called j task ∈ tr)
    (hkey : task.callback = some key) : 0 < calls j key tr :=
  List.countP_pos_iff.mpr ⟨_, h, by simp [Event.Calls, hkey]⟩

/-- Of what holds once in a list there is one element. -/
theorem eq_of_countP_le_one {α : Type*} {p : α → Bool} {l : List α} (h : l.countP p ≤ 1) {x y : α}
    (hx : x ∈ l) (hy : y ∈ l) (hpx : p x = true) (hpy : p y = true) : x = y := by
  rw [List.countP_eq_length_filter] at h
  have hx' := List.mem_filter.mpr ⟨hx, hpx⟩
  have hy' := List.mem_filter.mpr ⟨hy, hpy⟩
  cases hl : l.filter p with
  | nil => simp [hl] at hx'
  | cons z rest =>
    obtain rfl : rest = [] := by
      rw [hl, List.length_cons] at h
      exact List.length_eq_zero_iff.mp (by omega)
    rw [hl, List.mem_singleton] at hx' hy'
    rw [hx', hy']

/-! ## Steps -/

/-- A step consumes what a callback returned where the callback's future completes. -/
theorem finish_of_consumed (hs : s.step codecs a = some (t, evs)) {state : SignallingState A O C}
    (h : Event.consumed j state ∈ evs) (hkey : state.callback = some key) :
    ∃ i, a = .finish j i (.ok state) := by
  have hm : Moves codecs s a (t, evs) := step_moves hs
  rcases hm.peer_cases j with ⟨p, call, input, o, hj, hh, hacts, heq⟩ | ⟨he, _⟩
  · rw [Prod.mk.injEq] at heq
    rw [heq.2] at h
    have hcons := (consumed_apply.mp h).2
    cases hacts with
    | skipOffer _ _ | skipAnswer _ _ | fail _ _ _ => simp at hcons
    | @complete i task _ state' hidle hi hc =>
      obtain ⟨_, _, _, hstate⟩ := Peer.step_spec codecs
        { p with unorderedFuts := p.unorderedFuts.eraseIdx i } hidle state'
      rw [hcons, Option.some.injEq] at hstate
      subst hstate
      cases hc with
      | callback _ _ =>
        cases hh
        exact ⟨i, rfl⟩
      | _ => simp [SignallingState.callback] at hkey
    | resume h =>
      rw [(Peer.resume_resumes h).spec.2.2.2] at hcons
      simp at hcons
  · simpa [Event.ofPeer] using he _ h

/-- A callback's future that completes with a state has the state consumed. -/
theorem consumed_of_finish {i : Nat} {state : SignallingState A O C}
    (hs : s.step codecs (.finish j i (.ok state)) = some (t, evs)) :
    Event.consumed j state ∈ evs := by
  have hm : Moves codecs s (.finish j i (.ok state)) (t, evs) := step_moves hs
  generalize ha : Action.finish j i (.ok state) = a at hm
  generalize hout : (t, evs) = out at hm
  cases hm with
  | @act j' p call _ input o hj hh hacts =>
    cases hh with
    | callback =>
      obtain ⟨rfl, rfl, rfl⟩ := Action.finish.inj ha
      cases hacts with
      | fail _ _ hb => nomatch hb
      | @complete i task _ state' hidle hi hc =>
        obtain ⟨_, _, _, hstate⟩ := Peer.step_spec codecs
          { p with unorderedFuts := p.unorderedFuts.eraseIdx i } hidle state'
        rw [Prod.mk.injEq] at hout
        rw [hout.2]
        cases hc
        exact consumed_apply.mpr ⟨rfl, hstate⟩
    | _ => simp at ha
  | giveUp _ _ hfail => rcases hfail with rfl | ⟨rfl, _⟩ <;> simp at ha
  | closed _ hclosed => rcases hclosed with rfl | rfl <;> simp at ha
  | _ => simp at ha

/-! ## Causes -/

/-- A callback that has completed has been called. -/
theorem called_of_done (hr : (system ι codecs).Run Honest tr s) (h : Done tr j key) :
    ∃ task, Event.called j task ∈ tr ∧ task.callback = some key := by
  obtain ⟨state, hm, hkey⟩ := h
  have hlisten : state.relisten = none := by
    cases state <;> simp_all [SignallingState.callback, SignallingState.relisten]
  obtain ⟨task, hcalled, hyield, hid⟩ := called_of_consumed hr hm hlisten
  refine ⟨task, hcalled, ?_⟩
  rw [← hkey]
  cases task <;> cases state <;>
    simp_all [Task.yields, Task.callback, SignallingState.callback, Task.remoteId,
      SignallingState.remoteId]

section

variable (hr : (system ι codecs).Run Honest tr s) (hn : allocations (serverTrace tr) < 2 ^ 64)
  (hanswer : codecs.answer.Inverts) (hoffer : codecs.offer.Inverts)
  (hcandidates : codecs.candidates.Inverts)

include hr hn hanswer hoffer hcandidates

/-- A callback whose future is queued has not completed. -/
theorem not_done_of_queued {p : Peer A O C} (hp : (s.clients j).peer? = some p)
    {task : Task A O C} (ht : task ∈ p.unorderedFuts) (hkey : task.callback = some key) :
    ¬ Done tr j key := by
  intro hdone
  have hresults := done_iff.mp hdone
  have honce : calls j key tr ≤ 1 := called_once hr hn hanswer hoffer hcandidates j key.1 key.2
  have hle := consumed_le_called hr j (P := fun task => decide (task.callback = some key))
    (Q := fun state => decide (state.callback = some key)) ?_ ?_ ?_
  · have hqueued : 0 < p.unorderedFuts.countP fun task => decide (task.callback = some key) :=
      List.countP_pos_iff.mpr ⟨task, ht, decide_eq_true hkey⟩
    rw [hp, Option.elim_some] at hle
    rw [results] at hresults
    rw [calls] at honce
    omega
  · intro task h
    exact Task.isCallback_of_callback (of_decide_eq_true h)
  · intro state h
    replace h := of_decide_eq_true h
    cases state <;> simp_all [SignallingState.callback, SignallingState.relisten]
  · intro task state hyield hid h
    replace h := of_decide_eq_true h
    refine decide_eq_true ?_
    cases task <;> cases state <;>
      simp_all [Task.yields, Task.callback, SignallingState.callback, Task.remoteId,
        SignallingState.remoteId]

/-- What a client has called a callback with for a remote peer is unique. -/
theorem called_unique {task task' : Task A O C} (h : Event.called j task ∈ tr)
    (h' : Event.called j task' ∈ tr) (hkey : task.callback = some key)
    (hkey' : task'.callback = some key) : task = task' := by
  have honce : calls j key tr ≤ 1 := called_once hr hn hanswer hoffer hcandidates j key.1 key.2
  have heq := eq_of_countP_le_one honce h h' (by simp [Event.Calls, hkey])
    (by simp [Event.Calls, hkey'])
  exact (Event.called.inj heq).2

/-- What a callback has returned for a remote peer is unique. -/
theorem consumed_unique {state state' : SignallingState A O C} (h : Event.consumed j state ∈ tr)
    (h' : Event.consumed j state' ∈ tr) (hkey : state.callback = some key)
    (hkey' : state'.callback = some key) : state = state' := by
  have honce := (results_le_calls hr j key).trans
    (called_once hr hn hanswer hoffer hcandidates j key.1 key.2)
  have heq := eq_of_countP_le_one honce h h' (by simp [Event.Consumes, hkey])
    (by simp [Event.Consumes, hkey'])
  exact (Event.consumed.inj heq).2

/-- An answer is received after an offer has been created. -/
theorem createOffer_done {r : Id} {answerSet : A × C}
    (h : Event.called j (.receiveAnswer r answerSet) ∈ tr) : Done tr j (.createOffer, r) := by
  obtain ⟨q, hq⟩ := received_localId hr h rfl
  obtain ⟨_, offerSet, hex⟩ := exchanged hr hn hanswer hoffer hcandidates hq h
  exact ⟨_, hex.offer, rfl⟩

/-- The remote signalling is complete after an offer has been received. -/
theorem receiveOffer_done {r : Id} (h : Event.called j (.remoteSigCplt r) ∈ tr) :
    Done tr j (.receiveOffer, r) := by
  obtain ⟨before, after, rfl⟩ := List.append_of_mem h
  obtain ⟨_, answerSet, _, _, hcons, _⟩ :=
    answered_before hr hn hanswer hoffer hcandidates rfl
  exact ⟨_, List.mem_append_left _ hcons, rfl⟩

end

/-- The local signalling is complete after an answer has been received. -/
theorem receiveAnswer_done {ok : System ι A O C → Action ι A O C → Prop}
    (hr : (system ι codecs).Run ok tr s) {r : Id} (h : Event.called j (.localSigCplt r) ∈ tr) :
    Done tr j (.receiveAnswer, r) := by
  refine done_iff.mpr ((calls_pos h rfl).trans_le ?_)
  refine localSigCplt_le_consumed hr j (fun task ht => ?_) fun x hx => ?_
  · replace ht := of_decide_eq_true ht
    cases task <;> simp_all [Task.callback]
  · simpa [Task.callback, SignallingState.callback] using hx

end System

end JustWebrtc.Signalling
