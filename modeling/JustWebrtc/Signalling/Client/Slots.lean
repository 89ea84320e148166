import JustWebrtc.Signalling.Client.Signals

/-!
# The listeners of a slot

The listener of a slot is handed one message after the other. It is put back behind an empty
message and behind a signal that deserializes, whose callback is called. A signal that does not
deserialize ends it, as does the end of its stream. No other step of a peer touches it, or calls a
callback for a signal of its slot.
-/

namespace JustWebrtc.Signalling

variable {A O C : Type*}

/-- The callback that a message of a slot is for, if its signal deserializes. -/
def Codecs.decoded (codecs : Codecs A O C) (slot : Slot) (message : SignalListenerRsp) :
    Option (Task A O C) :=
  message.signal.bind (codecs.received slot)

/-- The message carries a signal that does not deserialize. -/
def Codecs.malformed (codecs : Codecs A O C) (slot : Slot) (message : SignalListenerRsp) : Bool :=
  message.signal.any fun signal => (codecs.received slot signal).isNone

/-- A malformed message is for no callback. -/
theorem Codecs.decoded_of_malformed {codecs : Codecs A O C} {slot : Slot}
    {message : SignalListenerRsp} (h : codecs.malformed slot message = true) :
    codecs.decoded slot message = none := by
  obtain ⟨_ | signal⟩ := message
  · rfl
  · simpa [Codecs.malformed, Codecs.decoded] using h

/-- The stream of a listener future of a slot. -/
def Task.slotListener (slot : Slot) (task : Task A O C) : Option Streaming :=
  task.listener.bind fun l => if l.1 = .signal slot then some l.2 else none

@[simp] theorem Task.slotListener_signalListener (slot slot' : Slot) (listener : Streaming) :
    (Task.signalListener slot' listener : Task A O C).slotListener slot =
      if slot' = slot then some listener else none := by
  simp [Task.slotListener]

theorem Task.slotListener_callback {task : Task A O C} (h : task.isCallback = true)
    (slot : Slot) : task.slotListener slot = none := by
  simp [Task.slotListener, Task.listener_of_callback h]

/-- A listener future of a slot is one. -/
theorem Task.eq_of_slotListener {task : Task A O C} {slot : Slot} {listener : Streaming}
    (h : task.slotListener slot = some listener) : task = .signalListener slot listener := by
  rw [Task.slotListener, Option.bind_eq_some_iff] at h
  obtain ⟨⟨kind, l⟩, hl, h⟩ := h
  rw [Option.ite_none_right_eq_some, Option.some.injEq] at h
  obtain ⟨hkind, rfl⟩ := h
  rw [show kind = .signal slot from hkind] at hl
  exact Task.eq_signalListener hl

namespace Peer

variable {codecs : Codecs A O C} {slot : Slot} {p : Peer A O C}

/-- The streams of the queued listeners of a slot. -/
def listening (slot : Slot) (p : Peer A O C) : List Streaming :=
  p.unorderedFuts.filterMap (Task.slotListener slot)

/-- The listeners of a slot are those futures. -/
theorem mem_slotListener {tasks : List (Task A O C)} {l : Streaming} :
    l ∈ tasks.filterMap (Task.slotListener slot) ↔ .signalListener slot l ∈ tasks := by
  rw [List.mem_filterMap]
  constructor
  · rintro ⟨task, ht, hl⟩
    rwa [← Task.eq_of_slotListener hl]
  · intro hl
    exact ⟨_, hl, by simp⟩

/-- One of the queued futures and the rest are queued together. -/
theorem listening_perm (slot : Slot) {j : Nat} {task : Task A O C}
    (h : p.unorderedFuts[j]? = some task) :
    (p.listening slot).Perm ((task.slotListener slot).toList ++
      (p.unorderedFuts.eraseIdx j).filterMap (Task.slotListener slot)) := by
  have hp := (futs_perm h).filterMap (Task.slotListener slot)
  rw [List.filterMap_cons] at hp
  rw [listening]
  cases hs : task.slotListener slot with
  | none => simpa [hs] using hp
  | some l => simpa [hs] using hp

/-- Callbacks are no listeners. -/
theorem filterMap_slotListener {tasks : List (Task A O C)}
    (h : ∀ task ∈ tasks, task.isCallback = true) (slot : Slot) :
    tasks.filterMap (Task.slotListener slot) = [] := by
  rw [List.filterMap_eq_nil_iff]
  exact fun task ht => Task.slotListener_callback (h task ht) slot

/-- A listener of a slot that completes has read a signal that deserializes; it is put back and
the callback of the signal is called. -/
theorem completes_signalListener {j : Nat} {listener : Streaming} {input : Input A O C}
    {state : SignallingState A O C}
    (h : Completes codecs (.signalListener slot listener) j input state)
    (p : Peer A O C) :
    ∃ signal task, input = .signalMessage j (.ok (some ⟨some signal⟩)) ∧
      codecs.received slot signal = some task ∧
      state.relisten = some (.signalListener slot listener.message) ∧
      (step codecs p state).called = [task] := by
  cases slot with
  | offer =>
    cases h with
    | offerListener hset => exact ⟨_, _, rfl, by simp [Codecs.received, hset], rfl, rfl⟩
    | callback hcall _ => simp [Task.signalListener, Task.isCallback] at hcall
  | answer =>
    cases h with
    | answerListener hset => exact ⟨_, _, rfl, by simp [Codecs.received, hset], rfl, rfl⟩
    | callback hcall _ => simp [Task.signalListener, Task.isCallback] at hcall

/-- A listener of a slot that fails has lost its stream or read a signal that does not
deserialize. -/
theorem breaks_signalListener {j : Nat} {listener : Streaming} {input : Input A O C}
    (h : Breaks codecs (.signalListener slot listener) j input) :
    ∃ message, input = .signalMessage j message ∧
      ∀ m, message = .ok (some m) → codecs.malformed slot m = true := by
  cases slot with
  | offer =>
    cases h with
    | offerListener hm => exact ⟨_, rfl, fun m he => absurd he (hm m)⟩
    | offerMalformed hset =>
      refine ⟨_, rfl, fun m he => ?_⟩
      rw [Except.ok.injEq, Option.some.injEq] at he
      simp [← he, Codecs.malformed, Codecs.received, hset]
    | callback hcall => simp [Task.signalListener, Task.isCallback] at hcall
  | answer =>
    cases h with
    | answerListener hm => exact ⟨_, rfl, fun m he => absurd he (hm m)⟩
    | answerMalformed hset =>
      refine ⟨_, rfl, fun m he => ?_⟩
      rw [Except.ok.injEq, Option.some.injEq] at he
      simp [← he, Codecs.malformed, Codecs.received, hset]
    | callback hcall => simp [Task.signalListener, Task.isCallback] at hcall

/-- Callbacks that are for no slot are for none of a slot's signals. -/
theorem filter_slot_nil {tasks : List (Task A O C)} (h : ∀ task ∈ tasks, task.slot = none)
    (slot : Slot) : tasks.filter (fun task => task.slot = some slot) = [] := by
  rw [List.filter_eq_nil_iff]
  intro task ht
  simp [h task ht]

/-- Any other future that completes calls nothing for a slot and puts no listener of it back. -/
theorem completes_other {j : Nat} {task : Task A O C} {input : Input A O C}
    {state : SignallingState A O C} (h : Completes codecs task j input state)
    (hslot : task.slotListener slot = none) (p : Peer A O C) :
    state.relisten.toList.filterMap (Task.slotListener slot) = [] ∧
      (step codecs p state).called.filter (fun task => task.slot = some slot) = [] := by
  cases h with
  | peerListener =>
    refine ⟨rfl, filter_slot_nil (fun task ht => ?_) slot⟩
    obtain ⟨id, rfl⟩ := synchronise_offers _ _ _ task ht
    rfl
  | offerListener hset =>
    cases slot with
    | offer => simp [Task.slotListener, Task.listener] at hslot
    | answer => exact ⟨rfl, rfl⟩
  | answerListener hset =>
    cases slot with
    | offer => exact ⟨rfl, rfl⟩
    | answer => simp [Task.slotListener, Task.listener] at hslot
  | callback _ hyield =>
    refine ⟨by rw [Task.relisten_of_yields hyield]; rfl, filter_slot_nil (fun task' ht => ?_) slot⟩
    cases state with
    | peerListener _ _ | offerListener _ _ _ | answerListener _ _ _ =>
      cases task <;> simp [Task.yields] at hyield
    | receiveAnswer x =>
      rw [List.mem_singleton.mp ht]
      rfl
    | createOffer _ _ | receiveOffer _ _ =>
      simp only [step] at ht
      split at ht <;> simp at ht
    | localSigCplt _ | remoteSigCplt _ => simp [step] at ht

/-- The answer to a suspended step calls nothing for a slot. -/
theorem Resumes.slot_none {response : Except Status Response} {out : Outcome A O C}
    (h : p.Resumes response out) : ∀ task ∈ out.called, task.slot = none := by
  intro task ht
  cases h with
  | resync _ =>
    obtain ⟨id, rfl⟩ := synchronise_offers _ _ _ task ht
    rfl
  | offered _ | refused _ => simp at ht
  | answered _ =>
    rw [List.mem_singleton.mp ht]
    rfl

/-- The answer to a suspended step calls callbacks. -/
theorem Resumes.callback {response : Except Status Response} {out : Outcome A O C}
    (h : p.Resumes response out) : ∀ task ∈ out.called, task.isCallback = true := by
  intro task ht
  cases h with
  | resync _ => exact synchronise_called ht
  | offered _ | refused _ => simp at ht
  | answered _ =>
    rw [List.mem_singleton.mp ht]
    rfl

/-- What a step does with the listeners of a slot. -/
inductive ReadsSlot (codecs : Codecs A O C) (slot : Slot) (p : Peer A O C) :
    Input A O C → Outcome A O C → Prop
  /-- They are left alone. -/
  | apart {input out} : (out.peer.listening slot).Perm (p.listening slot) →
      out.called.filter (fun task => task.slot = some slot) = [] → ReadsSlot codecs slot p input out
  /-- One of them reads a message and goes on. -/
  | read {i listener message out} : p.unorderedFuts[i]? = some (.signalListener slot listener) →
      codecs.malformed slot message = false →
      (out.peer.listening slot).Perm (listener.message ::
        (p.unorderedFuts.eraseIdx i).filterMap (Task.slotListener slot)) →
      out.called.filter (fun task => task.slot = some slot) =
        (codecs.decoded slot message).toList →
      ReadsSlot codecs slot p (.signalMessage i (.ok (some message))) out
  /-- One of them is lost. -/
  | lost {i listener message out} : p.unorderedFuts[i]? = some (.signalListener slot listener) →
      (∀ m, message = .ok (some m) → codecs.malformed slot m = true) →
      (out.peer.listening slot).Perm
        ((p.unorderedFuts.eraseIdx i).filterMap (Task.slotListener slot)) →
      out.called.filter (fun task => task.slot = some slot) = [] →
      ReadsSlot codecs slot p (.signalMessage i message) out

/-- A future that is no listener of the slot leaves those as they are. -/
theorem listening_eraseIdx {j : Nat} {task : Task A O C} (hj : p.unorderedFuts[j]? = some task)
    (hs : task.slotListener slot = none) :
    ((p.unorderedFuts.eraseIdx j).filterMap (Task.slotListener slot)).Perm (p.listening slot) := by
  have hperm := listening_perm slot hj
  rw [hs] at hperm
  exact hperm.symm

/-- An empty message is skipped. -/
theorem ReadsSlot.skip {slot' : Slot} {i : Nat} {listener : Streaming}
    (hi : p.unorderedFuts[i]? = some (.signalListener slot' listener)) :
    ReadsSlot codecs slot p (.signalMessage i (.ok (some ⟨none⟩)))
      { peer := { p with
          unorderedFuts := p.unorderedFuts.set i (.signalListener slot' listener.message) } } := by
  have hset := (List.set_perm_cons_eraseIdx (List.getElem?_eq_some_iff.mp hi).1
    (Task.signalListener slot' listener.message)).filterMap (Task.slotListener slot)
  by_cases hslot : slot' = slot
  · subst hslot
    refine .read hi rfl ?_ rfl
    simpa [listening] using hset
  · refine .apart (List.Perm.trans ?_ (listening_eraseIdx hi (by simp [hslot]))) rfl
    simpa [listening, hslot] using hset

/-- A listener of the slot that fails is lost. -/
theorem ReadsSlot.fail {i : Nat} {task : Task A O C} {input : Input A O C} {e : ClientError}
    (hi : p.unorderedFuts[i]? = some task) (hb : Breaks codecs task i input) :
    ReadsSlot codecs slot p input
      { peer := { p with unorderedFuts := p.unorderedFuts.eraseIdx i }
        returned := some (.error e) } := by
  cases hs : task.slotListener slot with
  | none => exact .apart (listening_eraseIdx hi hs) rfl
  | some l =>
    obtain rfl := Task.eq_of_slotListener hs
    obtain ⟨message, rfl, hmal⟩ := breaks_signalListener hb
    exact .lost hi hmal (List.Perm.refl _) rfl

/-- A listener of the slot that completes has read a signal that deserializes. -/
theorem ReadsSlot.complete {i : Nat} {task : Task A O C} {input : Input A O C}
    {state : SignallingState A O C} (hidle : p.progress = .idle)
    (hi : p.unorderedFuts[i]? = some task) (hc : Completes codecs task i input state) :
    ReadsSlot codecs slot p input
      (step codecs { p with unorderedFuts := p.unorderedFuts.eraseIdx i } state) := by
  obtain ⟨_, _, hfuts, _⟩ := step_spec codecs
    { p with unorderedFuts := p.unorderedFuts.eraseIdx i } hidle state
  have hcalled := filterMap_slotListener (fun task ht => (Acts.complete hidle hi hc).called ht) slot
  have hafter : (step codecs { p with unorderedFuts := p.unorderedFuts.eraseIdx i }
      state).peer.listening slot =
        (p.unorderedFuts.eraseIdx i).filterMap (Task.slotListener slot) ++
          state.relisten.toList.filterMap (Task.slotListener slot) := by
    rw [listening, hfuts, List.filterMap_append, List.filterMap_append, hcalled, List.append_nil]
  cases hs : task.slotListener slot with
  | none =>
    obtain ⟨hre, hslot⟩ := completes_other hc hs
      { p with unorderedFuts := p.unorderedFuts.eraseIdx i }
    refine .apart ?_ hslot
    rw [hafter, hre, List.append_nil]
    exact listening_eraseIdx hi hs
  | some l =>
    obtain rfl := Task.eq_of_slotListener hs
    obtain ⟨signal, task, rfl, hrec, hre, htask⟩ := completes_signalListener hc
      { p with unorderedFuts := p.unorderedFuts.eraseIdx i }
    refine .read hi (by simp [Codecs.malformed, hrec]) ?_ ?_
    · rw [hafter, hre]
      simp
    · rw [htask]
      simp [Codecs.decoded, hrec, (Codecs.received_spec hrec).1]

/-- A step does one of these. -/
theorem Acts.reads {input : Input A O C} {out : Outcome A O C} (h : p.Acts codecs input out)
    (slot : Slot) : ReadsSlot codecs slot p input out := by
  cases h with
  | @skipOffer i listener _ hi =>
    have hslot : p.unorderedFuts[i]? = some (.signalListener .offer listener) := hi
    exact .skip hslot
  | @skipAnswer i listener _ hi =>
    have hslot : p.unorderedFuts[i]? = some (.signalListener .answer listener) := hi
    exact .skip hslot
  | fail _ hi hb => exact .fail hi hb
  | complete hidle hi hc => exact .complete hidle hi hc
  | resume hres =>
    have hr := resume_resumes hres
    obtain ⟨_, _, hfuts, _⟩ := hr.spec
    refine .apart ?_ (filter_slot_nil hr.slot_none slot)
    rw [listening, hfuts, List.filterMap_append, filterMap_slotListener hr.callback,
      List.append_nil]
    exact List.Perm.refl _

end Peer

end JustWebrtc.Signalling
