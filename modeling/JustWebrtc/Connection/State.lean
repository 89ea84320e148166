import JustWebrtc.Connection.Channel

/-!
# Changes of the peer connection state

The handler of a connection sets every state that the platform reports, and `state_change` takes
the state that is there. The cell between them holds one state: a report that comes before the
consumer has taken the last one replaces it. So the consumer sees every report exactly when it
takes each before the next, and a consumer that waits for the connection leaves its loop exactly
when some report of a connected state is not replaced.
-/

namespace JustWebrtc.Connection

/-- `PeerConnectionState`. -/
inductive PeerConnectionState
  | new
  | connecting
  | connected
  | disconnected
  | failed
  | closed
  deriving DecidableEq, Repr

/-- The states that the native library reports. -/
inductive RTCPeerConnectionState
  | unspecified
  | new
  | connecting
  | connected
  | disconnected
  | failed
  | closed
  deriving DecidableEq, Repr

/-- The states that a browser reports; its bindings have one more for unknown ones. -/
inductive RtcPeerConnectionState
  | new
  | connecting
  | connected
  | disconnected
  | failed
  | closed
  | invalid
  deriving DecidableEq, Repr

/-- `From<RTCPeerConnectionState>`. -/
def RTCPeerConnectionState.into : RTCPeerConnectionState → PeerConnectionState
  | .closed => .closed
  | .connected => .connected
  | .connecting => .connecting
  | .disconnected => .disconnected
  | .failed => .failed
  | .new => .new
  | .unspecified => .new

/-- `From<RtcPeerConnectionState>`. -/
def RtcPeerConnectionState.into : RtcPeerConnectionState → PeerConnectionState
  | .closed => .closed
  | .connected => .connected
  | .connecting => .connecting
  | .disconnected => .disconnected
  | .failed => .failed
  | .new => .new
  | _ => .new

/-- The states that a platform reports. -/
def Platform.State : Platform → Type
  | .native => RTCPeerConnectionState
  | .wasm => RtcPeerConnectionState

/-- The state that a report stands for. -/
def Platform.into : (platform : Platform) → platform.State → PeerConnectionState
  | .native => RTCPeerConnectionState.into
  | .wasm => RtcPeerConnectionState.into

/-- `handle_peer_connection_state_change`, with the state that the connection has. -/
def handlePeerConnectionStateChange : (platform : Platform) → platform.State →
    AsyncCell PeerConnectionState → AsyncCell PeerConnectionState
  | .native, state, peerState => peerState.set state.into
  | .wasm, state, peerState => peerState.set state.into

/-- `PeerConnection`, with the cell that `state_change` reads. -/
structure PeerConnection where
  peerConnectionState : AsyncCell PeerConnectionState
  deriving DecidableEq, Repr

namespace PeerConnection

/-- A poll of `state_change`, or none where it waits. -/
def stateChange : Platform → PeerConnection → Option (PeerConnectionState × PeerConnection)
  | .native, s => s.peerConnectionState.take.map fun out => (out.1, ⟨out.2⟩)
  | .wasm, s => s.peerConnectionState.take.map fun out => (out.1, ⟨out.2⟩)

/-- What happens to a connection: the platform reports a state, or its consumer polls. -/
inductive Action (platform : Platform)
  | report (state : platform.State)
  | poll

/-- What is recorded of a connection. -/
inductive Event
  | reported (state : PeerConnectionState)
  | returned (state : PeerConnectionState)
  deriving DecidableEq, Repr

/-- The state that an event reports. -/
def Event.report : Event → Option PeerConnectionState
  | .reported state => some state
  | .returned _ => none

/-- The state that an event returns to the consumer. -/
def Event.result : Event → Option PeerConnectionState
  | .reported _ => none
  | .returned state => some state

end PeerConnection

/-- A connection as it is built, with a consumer of its state changes. -/
def connection (platform : Platform) :
    Machine PeerConnection (PeerConnection.Action platform) PeerConnection.Event where
  init := ⟨.new⟩
  step s
    | .report state =>
      some (⟨handlePeerConnectionStateChange platform state s.peerConnectionState⟩,
        [.reported (platform.into state)])
    | .poll => (s.stateChange platform).map fun out => (out.2, [.returned out.1])

/-- The loop `while state_change().await != Connected {}` over the states that its calls return:
whether it has been left. -/
def waitConnected : List PeerConnectionState → Bool
  | [] => false
  | state :: states => if state ≠ .connected then waitConnected states else true

/-- The loop is left once a call has returned the connected state. -/
theorem waitConnected_iff (states : List PeerConnectionState) :
    waitConnected states = true ↔ .connected ∈ states := by
  induction states with
  | nil => simp [waitConnected]
  | cons state states ih =>
    rw [waitConnected, List.mem_cons]
    by_cases h : state = .connected
    · simp [h]
    · rw [if_pos h, ih]
      exact ⟨Or.inr, fun hm => hm.resolve_left (Ne.symm h)⟩

namespace PeerConnection

variable {platform : Platform} {s t : PeerConnection} {tr : List Event}

/-- The steps of a connection. -/
inductive Moves (s : PeerConnection) :
    Action platform → PeerConnection × List Event → Prop
  | reported {state} :
      Moves s (.report state) (⟨⟨some (platform.into state)⟩⟩, [.reported (platform.into state)])
  | returned {state} : s.peerConnectionState.value = some state →
      Moves s .poll (⟨.new⟩, [.returned state])

/-- The step of a connection for a poll. -/
theorem stateChange_eq (platform : Platform) (s : PeerConnection) :
    s.stateChange platform = s.peerConnectionState.value.map fun state => (state, ⟨.new⟩) := by
  cases platform <;> simp [stateChange, AsyncCell.take, Function.comp_def]

/-- Every step of a connection is one of these. -/
theorem step_moves {a : Action platform} {evs : List Event}
    (h : (connection platform).step s a = some (t, evs)) : s.Moves a (t, evs) := by
  cases a with
  | report state =>
    simp only [connection, Option.some.injEq] at h
    rw [← h]
    cases platform <;> exact .reported
  | poll =>
    simp only [connection, stateChange_eq, Option.map_map, Option.map_eq_some_iff] at h
    obtain ⟨state, hv, hout⟩ := h
    rw [← hout]
    exact .returned hv

/-- What an event does to the cell. -/
def Event.cell : Event → AsyncCell.Event PeerConnectionState
  | .reported state => .set state
  | .returned state => .taken state

@[simp] theorem Event.written_cell (e : Event) : e.cell.written = e.report := by
  cases e <;> rfl

@[simp] theorem Event.read_cell (e : Event) : e.cell.read = e.result := by
  cases e <;> rfl

/-- The state of a connection is a cell that is set by the reports and taken by the polls. -/
theorem state_run (hr : (connection platform).Run Machine.Free tr s) :
    AsyncCell.machine.Run Machine.Free (tr.map Event.cell) s.peerConnectionState := by
  have hproject : AsyncCell.machine.Run Machine.Free (tr.filterMap fun e => some e.cell)
      s.peerConnectionState := by
    refine hr.project peerConnectionState _ rfl fun {s a t evs} _ hs => ?_
    have hm := step_moves hs
    generalize hout : (t, evs) = out at hm
    cases hm with
    | reported =>
      obtain ⟨rfl, rfl⟩ := Prod.mk.inj hout
      exact Or.inr ⟨some _, trivial, rfl⟩
    | returned hv =>
      obtain ⟨rfl, rfl⟩ := Prod.mk.inj hout
      exact Or.inr ⟨none, trivial, by simp [AsyncCell.machine, AsyncCell.take, hv, Event.cell]⟩
  rwa [← List.filterMap_eq_map']

/-! ## What the consumer sees -/

/-- Further calls of `state_change` return these states without a new report, and no more. -/
def Obtainable (platform : Platform) (s : PeerConnection) (states : List PeerConnectionState) :
    Prop :=
  ∃ d, (connection platform).exec Machine.Free (s, [])
      (List.replicate states.length .poll) = some d ∧
    d.2.filterMap Event.result = states ∧ (connection platform).step d.1 .poll = none

/-- The step of a poll returns the state that is there. -/
theorem step_poll (platform : Platform) (s : PeerConnection) :
    (connection platform).step s .poll =
      s.peerConnectionState.value.map fun state => (⟨.new⟩, [.returned state]) := by
  simp [connection, stateChange_eq, Function.comp_def]

/-- Without a new report the state that is there is obtained, and nothing else. -/
theorem obtainable_iff {states : List PeerConnectionState} :
    s.Obtainable platform states ↔ states = s.peerConnectionState.value.toList := by
  constructor
  · rintro ⟨d, hexec, hresult, hnone⟩
    cases states with
    | nil =>
      rw [List.length_nil, List.replicate_zero, Machine.exec, Option.some.injEq] at hexec
      rw [← hexec, step_poll, Option.map_eq_none_iff] at hnone
      rw [hnone]
      rfl
    | cons state states =>
      rw [List.length_cons, List.replicate_succ] at hexec
      obtain ⟨t, evs, hs, hexec⟩ := Machine.exec_cons.mp hexec
      rw [step_poll, Option.map_eq_some_iff] at hs
      obtain ⟨x, hv, hout⟩ := hs
      obtain ⟨rfl, rfl⟩ := Prod.mk.inj hout
      -- the first poll empties the cell, so there is no second one
      cases states with
      | nil =>
        rw [List.length_nil, List.replicate_zero, Machine.exec, Option.some.injEq] at hexec
        rw [← hexec] at hresult
        rw [hv, ← hresult]
        rfl
      | cons _ states =>
        rw [List.length_cons, List.replicate_succ] at hexec
        obtain ⟨t, evs, hs, _⟩ := Machine.exec_cons.mp hexec
        rw [step_poll] at hs
        simp at hs
  · rintro rfl
    cases hv : s.peerConnectionState.value with
    | none => exact ⟨(s, []), rfl, rfl, by rw [step_poll, hv]; rfl⟩
    | some state =>
      refine ⟨(⟨.new⟩, [.returned state]), ?_, rfl, by rw [step_poll]; rfl⟩
      exact Machine.exec_cons.mpr ⟨_, _, by rw [step_poll, hv]; rfl, rfl⟩

/-- The states that were returned and those still obtainable are the reported ones, in order, if
and only if every report is taken before the next. A consumer that waits for the connected state
has left its loop or can leave it without a new report if and only if some report of that state
is not followed by another before it is taken. -/
theorem state_changes_seen (hr : (connection platform).Run Machine.Free tr s) :
    ((∃ states, s.Obtainable platform states ∧
        tr.filterMap Event.result ++ states = tr.filterMap Event.report) ↔
      tr.IsChain fun e e' => e.report = none ∨ e'.report = none) ∧
    ((∃ states, s.Obtainable platform states ∧
        waitConnected (tr.filterMap Event.result ++ states) = true) ↔
      ∃ before after, tr = before ++ .reported .connected :: after ∧
        ∀ e ∈ after.head?, e.report = none) := by
  have hcell := state_run hr
  have hread : (tr.map Event.cell).filterMap AsyncCell.Event.read = tr.filterMap Event.result := by
    rw [List.filterMap_map]
    exact List.filterMap_congr fun e _ => e.read_cell
  have hwritten : (tr.map Event.cell).filterMap AsyncCell.Event.written =
      tr.filterMap Event.report := by
    rw [List.filterMap_map]
    exact List.filterMap_congr fun e _ => e.written_cell
  constructor
  · have hlossless := AsyncCell.lossless_iff hcell
    rw [hread, hwritten, AsyncCell.NoOverwrite, List.isChain_map] at hlossless
    simp only [Event.written_cell] at hlossless
    rw [← hlossless]
    simp [obtainable_iff]
  · have hseen := AsyncCell.mem_seen_iff hcell .connected
    rw [hread] at hseen
    simp only [obtainable_iff, waitConnected_iff, exists_eq_left, hseen]
    constructor
    · rintro ⟨_, _, htr, hhead⟩
      obtain ⟨before, l, rfl, rfl, hl⟩ := List.map_eq_append_iff.mp htr
      obtain ⟨e, after, rfl, he, rfl⟩ := List.map_eq_cons_iff.mp hl
      have hreported : e = .reported .connected := by cases e <;> simp_all [Event.cell]
      refine ⟨before, after, by rw [hreported], fun e' he' => ?_⟩
      rw [← Event.written_cell]
      exact hhead _ (by rw [List.head?_map, Option.mem_map]; exact ⟨e', he', rfl⟩)
    · rintro ⟨before, after, rfl, hhead⟩
      refine ⟨before.map Event.cell, after.map Event.cell, ?_, fun e he => ?_⟩
      · rw [List.map_append, List.map_cons]
        rfl
      · rw [List.head?_map, Option.mem_map] at he
        obtain ⟨e', he', rfl⟩ := he
        rw [Event.written_cell]
        exact hhead e' he'

/-- A consumer that polls after every report sees all of them and leaves its loop. -/
theorem state_changes_seen_all : ∃ tr s, (connection .wasm).Run Machine.Free tr s ∧
    tr = [.reported .connecting, .returned .connecting, .reported .connected] ∧
      (∃ states, s.Obtainable .wasm states ∧
        tr.filterMap Event.result ++ states = [.connecting, .connected]) ∧
      ∃ states, s.Obtainable .wasm states ∧
        waitConnected (tr.filterMap Event.result ++ states) = true := by
  obtain ⟨tr, s, hr, hc⟩ := (connection .wasm).exec_reaches Machine.Free
    [.report RtcPeerConnectionState.connecting, .poll, .report RtcPeerConnectionState.connected]
    (fun c => decide (c.2 =
      [.reported .connecting, .returned .connecting, .reported .connected])) (by decide +kernel)
  have htr : tr = [.reported .connecting, .returned .connecting, .reported .connected] :=
    of_decide_eq_true hc
  have hseen := state_changes_seen hr
  refine ⟨tr, s, hr, htr, ?_, ?_⟩
  · rw [show [PeerConnectionState.connecting, .connected] = tr.filterMap Event.report by
      rw [htr]; rfl]
    refine hseen.1.mpr ?_
    rw [htr]
    simp [Event.report]
  · exact hseen.2.mpr ⟨[.reported .connecting, .returned .connecting], [], htr, by simp⟩

/-- A connection that is connected and then disconnected before the consumer polls: the consumer
never sees the connected state and never leaves its loop. -/
theorem connected_missed : ∃ tr s, (connection .native).Run Machine.Free tr s ∧
    tr.filterMap Event.report = [.connected, .disconnected] ∧
      (¬ ∃ states, s.Obtainable .native states ∧
        tr.filterMap Event.result ++ states = tr.filterMap Event.report) ∧
      ¬ ∃ states, s.Obtainable .native states ∧
        waitConnected (tr.filterMap Event.result ++ states) = true := by
  obtain ⟨tr, s, hr, hc⟩ := (connection .native).exec_reaches Machine.Free
    [.report RTCPeerConnectionState.connected, .report RTCPeerConnectionState.disconnected]
    (fun c => decide (c.2 = [.reported .connected, .reported .disconnected] ∧
      c.1.peerConnectionState.value = some .disconnected)) (by decide +kernel)
  obtain ⟨rfl, hv⟩ := of_decide_eq_true hc
  refine ⟨_, s, hr, rfl, ?_, ?_⟩ <;>
    · rintro ⟨states, hstates, h⟩
      rw [obtainable_iff.mp hstates, hv] at h
      revert h
      decide

end PeerConnection

end JustWebrtc.Connection
