import Mathlib.Data.Finset.Erase
import Mathlib.Data.Finset.Insert
import JustWebrtc.Core.Cell

/-!
# Waiting for a data channel

The handlers of a data channel set its ready state when it opens and when it closes, and
`wait_ready` takes that state until it is true. A call that returns has taken the open state
away, so of all calls on an open channel one returns, and the others wait for the next event.
-/

namespace JustWebrtc.Connection

/-- The platforms, each with an implementation of its own. -/
inductive Platform
  | native
  | wasm
  deriving DecidableEq, Repr

/-- `handle_data_channel_close`. -/
def handleDataChannelClose : Platform → AsyncCell Bool → AsyncCell Bool
  | .native, readyState => readyState.set false
  | .wasm, readyState => readyState.set false

/-- `handle_data_channel_open`. -/
def handleDataChannelOpen : Platform → AsyncCell Bool → AsyncCell Bool
  | .native, readyState => readyState.set true
  | .wasm, readyState => readyState.set true

/-- What the loop of `wait_ready` does with a state that it took. -/
inductive Waited
  | again
  | ready
  deriving DecidableEq, Repr

/-- One round of the loop of `wait_ready`, or none where it waits for a state. -/
def waitReady : Platform → AsyncCell Bool → Option (Waited × AsyncCell Bool)
  | .native, readyState => readyState.take.map fun (taken, readyState) =>
      (if !taken then .again else .ready, readyState)
  | .wasm, readyState => readyState.take.map fun (taken, readyState) =>
      (if !taken then .again else .ready, readyState)

/-- A data channel: its ready state and the calls of `wait_ready` that have not returned. -/
structure Channel where
  readyState : AsyncCell Bool
  waiting : Finset Nat
  deriving DecidableEq

namespace Channel

/-- What happens on a channel. -/
inductive Action
  | onOpen
  | onClose
  /-- A new call of `wait_ready`. -/
  | waitReady (call : Nat)
  /-- A call goes through its loop once. -/
  | poll (call : Nat)
  deriving DecidableEq, Repr

/-- What is recorded of a channel. -/
inductive Event
  | opened
  | closed
  | called (call : Nat)
  | retried (call : Nat)
  | returned (call : Nat)
  deriving DecidableEq, Repr

/-- The channel after an action, where that is possible. -/
def step (platform : Platform) (s : Channel) : Action → Option (Channel × List Event)
  | .onOpen =>
    some ({ s with readyState := handleDataChannelOpen platform s.readyState }, [.opened])
  | .onClose =>
    some ({ s with readyState := handleDataChannelClose platform s.readyState }, [.closed])
  | .waitReady call =>
    if call ∈ s.waiting then none
    else some ({ s with waiting := insert call s.waiting }, [.called call])
  | .poll call =>
    if call ∈ s.waiting then
      match Connection.waitReady platform s.readyState with
      | none => none
      | some (.again, readyState) => some ({ s with readyState := readyState }, [.retried call])
      | some (.ready, readyState) =>
        some ({ readyState := readyState, waiting := s.waiting.erase call }, [.returned call])
    else none

end Channel

/-- A new channel of a platform. -/
def channel (platform : Platform) : Machine Channel Channel.Action Channel.Event where
  init := ⟨.new, ∅⟩
  step := Channel.step platform

/-- A round of the loop takes the state; a true one ends it. -/
theorem waitReady_eq_some {platform : Platform} {readyState readyState' : AsyncCell Bool}
    {waited : Waited} (h : waitReady platform readyState = some (waited, readyState')) :
    readyState' = .new ∧
      readyState.value = some (match waited with | .again => false | .ready => true) := by
  have htake : ∃ taken, readyState.take = some (taken, readyState') ∧
      (if !taken then Waited.again else .ready) = waited := by
    cases platform <;>
      simp only [waitReady, Option.map_eq_some_iff, Prod.mk.injEq, Prod.exists] at h <;>
      obtain ⟨taken, r, ht, hw, rfl⟩ := h <;>
      exact ⟨taken, ht, hw⟩
  obtain ⟨taken, ht, rfl⟩ := htake
  obtain ⟨hv, rfl⟩ := AsyncCell.take_eq_some.mp ht
  refine ⟨rfl, ?_⟩
  rw [hv]
  cases taken <;> rfl

namespace Channel

variable {platform : Platform} {s t : Channel} {tr : List Event}

/-- The steps of a channel, each with its guards. -/
inductive Moves (s : Channel) : Action → Channel × List Event → Prop
  | opened : Moves s .onOpen ({ s with readyState := ⟨some true⟩ }, [.opened])
  | closed : Moves s .onClose ({ s with readyState := ⟨some false⟩ }, [.closed])
  | called {call} : call ∉ s.waiting →
      Moves s (.waitReady call) ({ s with waiting := insert call s.waiting }, [.called call])
  | retried {call} : call ∈ s.waiting → s.readyState.value = some false →
      Moves s (.poll call) ({ s with readyState := .new }, [.retried call])
  | returned {call} : call ∈ s.waiting → s.readyState.value = some true →
      Moves s (.poll call)
        ({ readyState := .new, waiting := s.waiting.erase call }, [.returned call])

/-- Every step of a channel is one of these. -/
theorem step_moves {a : Action} {evs : List Event} (h : s.step platform a = some (t, evs)) :
    s.Moves a (t, evs) := by
  cases a with
  | onOpen =>
    rw [step, Option.some.injEq] at h
    rw [← h]
    cases platform <;> exact .opened
  | onClose =>
    rw [step, Option.some.injEq] at h
    rw [← h]
    cases platform <;> exact .closed
  | waitReady call =>
    rw [step] at h
    split at h
    · simp at h
    · rename_i hw
      rw [Option.some.injEq] at h
      rw [← h]
      exact .called hw
  | poll call =>
    rw [step] at h
    split at h
    · rename_i hw
      split at h
      · simp at h
      · rename_i readyState hwait
        obtain ⟨rfl, hv⟩ := waitReady_eq_some hwait
        rw [Option.some.injEq] at h
        rw [← h]
        exact .retried hw hv
      · rename_i readyState hwait
        obtain ⟨rfl, hv⟩ := waitReady_eq_some hwait
        rw [Option.some.injEq] at h
        rw [← h]
        exact .returned hw hv
    · simp at h

/-! ## The ready state as a cell -/

/-- The state that an event of the channel sets. -/
def Event.change : Event → Option Bool
  | .opened => some true
  | .closed => some false
  | _ => none

/-- What an event does to the ready state. -/
def Event.cell : Event → Option (AsyncCell.Event Bool)
  | .opened => some (.set true)
  | .closed => some (.set false)
  | .called _ => none
  | .retried _ => some (.taken false)
  | .returned _ => some (.taken true)

/-- An event changes the state of the channel where it sets the ready state. -/
theorem Event.change_eq (e : Event) : e.change = e.cell.bind AsyncCell.Event.written := by
  cases e <;> rfl

/-- The ready state of a channel is a cell that is set by its events and taken by its calls. -/
theorem readyState_run (hr : (channel platform).Run Machine.Free tr s) :
    AsyncCell.machine.Run Machine.Free (tr.filterMap Event.cell) s.readyState := by
  refine hr.project Channel.readyState Event.cell rfl fun {s a t evs} _ hs => ?_
  have hm := step_moves hs
  generalize hout : (t, evs) = out at hm
  cases hm with
  | opened =>
    obtain ⟨rfl, rfl⟩ := Prod.mk.inj hout
    exact Or.inr ⟨some true, trivial, rfl⟩
  | closed =>
    obtain ⟨rfl, rfl⟩ := Prod.mk.inj hout
    exact Or.inr ⟨some false, trivial, rfl⟩
  | called _ =>
    obtain ⟨rfl, rfl⟩ := Prod.mk.inj hout
    exact Or.inl ⟨rfl, rfl⟩
  | retried _ hv | returned _ hv =>
    obtain ⟨rfl, rfl⟩ := Prod.mk.inj hout
    exact Or.inr ⟨none, trivial, by simp [AsyncCell.machine, AsyncCell.take, hv, Event.cell]⟩

/-- Where the ready state is true, the channel has opened last. -/
theorem opened_of_readyState (hr : (channel platform).Run Machine.Free tr s)
    (hv : s.readyState.value = some true) :
    ∃ before after, tr = before ++ .opened :: after ∧ ∀ e ∈ after, e.change = none := by
  obtain ⟨before, hcell⟩ := AsyncCell.full (readyState_run hr) hv
  obtain ⟨l, l', rfl, _, hl'⟩ := List.filterMap_eq_append_iff.mp hcell
  obtain ⟨m, e, after, rfl, _, he, hafter⟩ := List.filterMap_eq_cons_iff.mp hl'
  have hopened : e = .opened := by cases e <;> simp [Event.cell] at he ⊢
  refine ⟨l ++ m, after, by rw [hopened, List.append_assoc], fun e' he' => ?_⟩
  rw [Event.change_eq, List.filterMap_eq_nil_iff.mp hafter e' he']
  rfl

/-- Behind the last opening of a channel, the ready state is true until one call has returned. -/
theorem readyState_opened (hr : (channel platform).Run Machine.Free tr s)
    {before after : List Event}
    (htr : tr = before ++ .opened :: after) (hlast : ∀ e ∈ after, e.change = none) :
    s.readyState.value = some true ↔ ∀ call, .returned call ∉ after := by
  have hcell : tr.filterMap Event.cell =
      before.filterMap Event.cell ++ .set true :: after.filterMap Event.cell := by
    rw [htr, List.filterMap_append]
    rfl
  have hwritten : ∀ e ∈ after.filterMap Event.cell, e.written = none := by
    intro e he
    obtain ⟨e', he', hc⟩ := List.mem_filterMap.mp he
    have hchange := hlast e' he'
    rwa [Event.change_eq, hc] at hchange
  rcases AsyncCell.latest (readyState_run hr) hcell hwritten with ⟨hnil, hv⟩ | ⟨hone, hv⟩
  · refine iff_of_true hv fun call hc => ?_
    have hmem : AsyncCell.Event.taken true ∈ after.filterMap Event.cell :=
      List.mem_filterMap.mpr ⟨_, hc, rfl⟩
    rw [hnil] at hmem
    simp at hmem
  · refine iff_of_false (by simp [hv]) fun hno => ?_
    have hmem : AsyncCell.Event.taken true ∈ after.filterMap Event.cell := by rw [hone]; simp
    obtain ⟨e, he, hc⟩ := List.mem_filterMap.mp hmem
    cases e with
    | returned call => exact hno call he
    | _ => simp [Event.cell] at hc

/-! ## Calls that return -/

/-- Nothing happens to the channel itself. -/
def Action.Quiet (a : Action) : Prop := a ≠ .onOpen ∧ a ≠ .onClose

/-- The call `w`, pending or new, can return without any further event of the channel. -/
def CanReturn (platform : Platform) (s : Channel) (call : Nat) : Prop :=
  ∃ as d, (∀ a ∈ as, a.Quiet) ∧ (channel platform).exec Machine.Free (s, []) as = some d ∧
    .returned call ∈ d.2

/-- Without an open ready state no call returns. -/
theorem exec_quiet {as : List Action} {c d : Channel × List Event} (hq : ∀ a ∈ as, a.Quiet)
    (h : (channel platform).exec Machine.Free c as = some d) (hv : c.1.readyState.value ≠ some true)
    {call : Nat} (hc : .returned call ∈ d.2) : .returned call ∈ c.2 := by
  induction as generalizing c with
  | nil =>
    rw [Machine.exec, Option.some.injEq] at h
    rwa [h]
  | cons a as ih =>
    obtain ⟨s, tr⟩ := c
    obtain ⟨t, evs, hs, h⟩ := Machine.exec_cons.mp h
    have hm := step_moves hs
    have hkeep : t.readyState.value ≠ some true ∧ Event.returned call ∉ evs := by
      generalize hout : (t, evs) = out at hm
      cases hm with
      | opened => exact absurd rfl (hq _ List.mem_cons_self).1
      | closed => exact absurd rfl (hq _ List.mem_cons_self).2
      | called _ =>
        obtain ⟨rfl, rfl⟩ := Prod.mk.inj hout
        exact ⟨hv, by simp⟩
      | retried _ _ =>
        obtain ⟨rfl, rfl⟩ := Prod.mk.inj hout
        exact ⟨by simp, by simp⟩
      | returned _ htrue => exact absurd htrue hv
    have hmem := ih (fun a' ha' => hq a' (List.mem_cons_of_mem _ ha')) h hkeep.1
    exact (List.mem_append.mp hmem).resolve_right hkeep.2

/-- A call can return where the ready state is true, and only there. -/
theorem canReturn_iff (platform : Platform) (s : Channel) (call : Nat) :
    s.CanReturn platform call ↔ s.readyState.value = some true := by
  constructor
  · rintro ⟨as, d, hq, hexec, hc⟩
    by_contra hv
    have hmem := exec_quiet hq hexec hv hc
    simp at hmem
  · intro hv
    have hpoll {s : Channel} (hv : s.readyState.value = some true) (hw : call ∈ s.waiting) :
        s.step platform (.poll call) = some
          ({ readyState := .new, waiting := s.waiting.erase call }, [.returned call]) := by
      cases platform <;> simp [step, hw, Connection.waitReady, AsyncCell.take, hv]
    by_cases hw : call ∈ s.waiting
    · exact ⟨[.poll call], (⟨.new, s.waiting.erase call⟩, [.returned call]),
        by simp [Action.Quiet], Machine.exec_cons.mpr ⟨_, _, hpoll hv hw, rfl⟩, by simp⟩
    · have hcall : s.step platform (.waitReady call) =
          some ({ s with waiting := insert call s.waiting }, [.called call]) := by
        simp [step, hw]
      refine ⟨[.waitReady call, .poll call],
        (⟨.new, (insert call s.waiting).erase call⟩, [.called call, .returned call]),
        by simp [Action.Quiet], Machine.exec_cons.mpr ⟨_, _, hcall, ?_⟩, by simp⟩
      have hw' : call ∈ ({ s with waiting := insert call s.waiting } : Channel).waiting :=
        Finset.mem_insert_self call s.waiting
      exact Machine.exec_cons.mpr ⟨_, _, hpoll hv hw', rfl⟩

/-- A call returns only while the channel is open. While it is open, a call can return without
any further event of the channel if and only if none has returned since the channel opened. -/
theorem wait_ready_returns (hr : (channel platform).Run Machine.Free tr s) :
    (∀ call before after, tr = before ++ .returned call :: after →
      ∃ b a, before = b ++ .opened :: a ∧ ∀ e ∈ a, e.change = none) ∧
    ∀ before after, tr = before ++ .opened :: after → (∀ e ∈ after, e.change = none) →
      ∀ call, s.CanReturn platform call ↔ ∀ call', .returned call' ∉ after := by
  refine ⟨fun call => ?_, fun before after htr hlast call => ?_⟩
  · refine hr.emitted (Q := fun before => ∃ b a, before = b ++ .opened :: a ∧
      ∀ e ∈ a, e.change = none) ?_
    intro tr s a t before after hr _ hs
    have hm := step_moves hs
    generalize hout : (t, before ++ Event.returned call :: after) = out at hm
    cases hm with
    | @returned call' _ hv =>
      obtain ⟨_, hevs⟩ := Prod.mk.inj hout
      rcases List.append_eq_singleton_iff.mp hevs with ⟨rfl, _⟩ | ⟨_, hno⟩
      · rw [List.append_nil]
        exact opened_of_readyState hr hv
      · simp at hno
    | _ =>
      obtain ⟨_, hevs⟩ := Prod.mk.inj hout
      rcases List.append_eq_singleton_iff.mp hevs with ⟨_, hno⟩ | ⟨_, hno⟩ <;> simp at hno
  · rw [canReturn_iff, readyState_opened hr htr hlast]

/-- On a channel that has opened, and that has no call returned yet, a pending call can return. -/
theorem wait_ready_returns_once : ∃ tr s, (channel .native).Run Machine.Free tr s ∧
    tr = [.closed, .called 0, .retried 0, .opened] ∧ 0 ∈ s.waiting ∧
      s.CanReturn .native 0 := by
  obtain ⟨tr, s, hr, hc⟩ := (channel .native).exec_reaches Machine.Free
    [.onClose, .waitReady 0, .poll 0, .onOpen]
    (fun c => decide (c.2 = [.closed, .called 0, .retried 0, .opened] ∧ 0 ∈ c.1.waiting))
    (by decide +kernel)
  obtain ⟨htr, hw⟩ := of_decide_eq_true hc
  refine ⟨tr, s, hr, htr, hw, ?_⟩
  exact ((wait_ready_returns hr).2 [.closed, .called 0, .retried 0] [] htr (by simp) 0).mpr
    (by simp)

/-- A second call on an open channel cannot return until the channel opens again. -/
theorem wait_ready_hangs : ∃ tr s, (channel .native).Run Machine.Free tr s ∧
    tr = [.opened, .called 0, .returned 0, .called 1] ∧ 1 ∈ s.waiting ∧
      ¬ s.CanReturn .native 1 := by
  obtain ⟨tr, s, hr, hc⟩ := (channel .native).exec_reaches Machine.Free
    [.onOpen, .waitReady 0, .poll 0, .waitReady 1]
    (fun c => decide (c.2 = [.opened, .called 0, .returned 0, .called 1] ∧ 1 ∈ c.1.waiting ∧
      c.1.readyState.value = none))
    (by decide +kernel)
  obtain ⟨htr, hw, hv⟩ := of_decide_eq_true hc
  refine ⟨tr, s, hr, htr, hw, ?_⟩
  rw [canReturn_iff, hv]
  simp

end Channel

end JustWebrtc.Connection
