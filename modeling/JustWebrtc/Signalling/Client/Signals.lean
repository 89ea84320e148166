import JustWebrtc.Signalling.Client.Discovery

/-!
# Signals through a peer

A peer calls one callback for every signal that it reads and can deserialize, and sends one
signal for every description that its callbacks return. A completion callback is called once
the step before it has succeeded. No future completes that has not been queued, so callbacks
complete at most as often as they are called.
-/

namespace JustWebrtc.Signalling

variable {A O C : Type*}

/-- The listener future of a slot. -/
def Task.signalListener : Slot → Streaming → Task A O C
  | .offer, listener => .offerListener listener
  | .answer, listener => .answerListener listener

@[simp] theorem Task.listener_signalListener (slot : Slot) (listener : Streaming) :
    (Task.signalListener slot listener : Task A O C).listener =
      some (.signal slot, listener) := by
  cases slot <;> rfl

/-- A listener future of a slot is known by its kind. -/
theorem Task.eq_signalListener {task : Task A O C} {slot : Slot} {listener : Streaming}
    (h : task.listener = some (.signal slot, listener)) :
    task = .signalListener slot listener := by
  cases task <;> cases slot <;> simp_all [Task.listener, Task.signalListener]

/-- The callback that is called for a signal read from a slot. -/
def Codecs.received (codecs : Codecs A O C) (slot : Slot) (signal : Signal) :
    Option (Task A O C) :=
  match slot with
  | .offer => (codecs.offerSet signal).map (.receiveOffer signal.sender)
  | .answer => (codecs.answerSet signal).map (.receiveAnswer signal.sender)

/-- The slot whose signals the callback is called for. -/
def Task.slot : Task A O C → Option Slot
  | .receiveOffer _ _ => some .offer
  | .receiveAnswer _ _ => some .answer
  | _ => none

/-- The callback that the description returned by a callback of the peer `id` is for. -/
def SignallingState.relayed (id : Id) : SignallingState A O C → Option (Task A O C)
  | .createOffer _ offerSet => some (.receiveOffer id offerSet)
  | .receiveOffer _ answerSet => some (.receiveAnswer id answerSet)
  | _ => none

/-- Serialization never fails, and deserialization inverts it. -/
def Codec.Faithful {α : Type*} (c : Codec α) : Prop :=
  ∀ x, ∃ b, c.serialize x = some b ∧ c.deserialize b = some x

theorem Codec.Faithful.inverts {α : Type*} {c : Codec α} (h : c.Faithful) : c.Inverts := by
  intro x b hb
  obtain ⟨b', hb', hx⟩ := h x
  rw [hb, Option.some.injEq] at hb'
  rwa [hb']

/-- All payloads of a peer survive the wire. -/
structure Codecs.Faithful (codecs : Codecs A O C) : Prop where
  answer : codecs.answer.Faithful
  offer : codecs.offer.Faithful
  candidates : codecs.candidates.Faithful

/-- The future completes with an error or with the remote ID that it was given. -/
def Input.Honest (p : Peer A O C) : Input A O C → Prop
  | .callback i (.ok state) => ∀ task ∈ p.unorderedFuts[i]?, state.remoteId = task.remoteId
  | _ => True

/-- A signal is handed on under the identifier of its sender. -/
theorem Codecs.received_spec {codecs : Codecs A O C} {slot : Slot} {signal : Signal}
    {task : Task A O C} (h : codecs.received slot signal = some task) :
    task.slot = some slot ∧ task.remoteId = some signal.sender ∧ task.isCallback = true := by
  cases slot <;>
    simp only [Codecs.received, Option.map_eq_some_iff] at h <;>
    obtain ⟨_, _, rfl⟩ := h <;>
    exact ⟨rfl, rfl, rfl⟩

namespace Peer

variable {codecs : Codecs A O C} {p : Peer A O C}

/-- The signal of an offer deserializes to the offer. -/
theorem signalOffer_received (ho : codecs.offer.Inverts) (hc : codecs.candidates.Inverts)
    {id remoteId : Id} {offerSet : O × C} {request : Request}
    (h : signalOffer codecs id remoteId offerSet = some request) :
    ∃ signal, request = .signalOffer (some remoteId) (some signal) ∧ signal.sender = id ∧
      codecs.received .offer signal = some (.receiveOffer id offerSet) := by
  obtain ⟨offer, candidates, hoffer, hcandidates, rfl⟩ := signalOffer_eq h
  refine ⟨_, rfl, rfl, ?_⟩
  simp [Codecs.received, Codecs.offerSet, ho _ _ hoffer, hc _ _ hcandidates]

/-- The signal of an answer deserializes to the answer. -/
theorem signalAnswer_received (ha : codecs.answer.Inverts) (hc : codecs.candidates.Inverts)
    {id remoteId : Id} {answerSet : A × C} {request : Request}
    (h : signalAnswer codecs id remoteId answerSet = some request) :
    ∃ signal, request = .signalAnswer (some remoteId) (some signal) ∧ signal.sender = id ∧
      codecs.received .answer signal = some (.receiveAnswer id answerSet) := by
  obtain ⟨answer, candidates, hanswer, hcandidates, rfl⟩ := signalAnswer_eq h
  refine ⟨_, rfl, rfl, ?_⟩
  simp [Codecs.received, Codecs.answerSet, ha _ _ hanswer, hc _ _ hcandidates]

/-- The peer listener branch calls nothing but the creation of offers. -/
theorem synchronise_offers (p : Peer A O C) (changes rest : List PeerChange) :
    ∀ task ∈ (p.synchronise changes rest).called, ∃ id, task = .createOffer id := by
  intro task ht
  rcases p.synchronise_cases changes rest with ⟨discovered, he, _⟩ | ⟨discovered, rest', he, _⟩
  · rw [he, (discover_spec _ changes).2.2.2.2.2.2] at ht
    split at ht
    · obtain ⟨id, rfl, _⟩ := createOfferTasks_callback ht
      exact ⟨id, rfl⟩
    · simp at ht
  · rw [he] at ht
    simp at ht

/-- The peer listener branch sends no signal. -/
theorem synchronise_request (p : Peer A O C) (changes rest : List PeerChange) {slot : Slot}
    {remotePeer : Option Id} {signal : Option Signal} :
    (p.synchronise changes rest).request ≠ some (.signal slot remotePeer signal) := by
  rcases p.synchronise_cases changes rest with ⟨discovered, h, _⟩ | ⟨discovered, rest', h, _⟩
  · rw [h, (discover_spec _ changes).2.2.2.2.1]
    simp
  · rw [h]
    simp

/-- An input that makes the peer send a signal completes the callback whose description it is. -/
theorem Acts.sends (ha : codecs.answer.Inverts) (ho : codecs.offer.Inverts)
    (hc : codecs.candidates.Inverts) {input : Input A O C} {out : Outcome A O C}
    (h : p.Acts codecs input out) {slot : Slot} {remotePeer : Option Id} {signal : Option Signal}
    (hr : out.request = some (.signal slot remotePeer signal)) :
    ∃ state task sig, out.consumed = some state ∧ remotePeer = state.remoteId ∧
      signal = some sig ∧ sig.sender = p.localId ∧ state.relayed p.localId = some task ∧
      codecs.received slot sig = some task := by
  cases h with
  | skipOffer _ _ | skipAnswer _ _ | fail _ _ _ => simp at hr
  | @complete i task _ state _ _ _ =>
    cases state with
    | peerListener listener changes => exact absurd hr (synchronise_request _ changes changes)
    | createOffer remoteId offerSet =>
      simp only [step] at hr ⊢
      split at hr
      · simp at hr
      · rename_i request hreq
        obtain ⟨sig, rfl, hsender, hrec⟩ := signalOffer_received ho hc hreq
        simp only [Option.some.injEq, Request.signal.injEq] at hr
        obtain ⟨rfl, rfl, rfl⟩ := hr
        exact ⟨_, _, sig, rfl, rfl, rfl, hsender, rfl, hrec⟩
    | receiveOffer remoteId answerSet =>
      simp only [step] at hr ⊢
      split at hr
      · simp at hr
      · rename_i request hreq
        obtain ⟨sig, rfl, hsender, hrec⟩ := signalAnswer_received ha hc hreq
        simp only [Option.some.injEq, Request.signal.injEq] at hr
        obtain ⟨rfl, rfl, rfl⟩ := hr
        exact ⟨_, _, sig, rfl, rfl, rfl, hsender, rfl, hrec⟩
    | _ => simp [step] at hr
  | resume h =>
    cases resume_resumes h with
    | resync _ => exact absurd hr (synchronise_request _ _ _)
    | offered _ | answered _ | refused _ => simp at hr

/-- Why an input calls callbacks: the first discovery, a signal, a completed answer, or the
success of a signalled answer. -/
theorem Acts.called_cases {input : Input A O C} {out : Outcome A O C}
    (h : p.Acts codecs input out) :
    (∀ task ∈ out.called, ∃ id, task = .createOffer id) ∨
      (∃ slot i listener signal task, input = .signalMessage i (.ok (some ⟨some signal⟩)) ∧
        p.unorderedFuts[i]? = some (.signalListener slot listener) ∧
        codecs.received slot signal = some task ∧ out.called = [task]) ∨
      (∃ i x y answerSet, input = .callback i (.ok (.receiveAnswer x)) ∧
        p.unorderedFuts[i]? = some (.receiveAnswer y answerSet) ∧
        out.called = [.localSigCplt x] ∧ out.consumed = some (.receiveAnswer x)) ∨
      ∃ x, input = .response (.ok (.signal .answer)) ∧ p.progress = .signallingAnswer x ∧
        out.called = [.remoteSigCplt x] ∧ out.peer.progress = .idle := by
  cases h with
  | skipOffer _ _ | skipAnswer _ _ | fail _ _ _ => exact Or.inl (by simp)
  | @complete i task _ state _ hi hc =>
    cases hc with
    | peerListener => exact Or.inl (synchronise_offers _ _ _)
    | @offerListener _ listener signal offerSet hset =>
      refine Or.inr (Or.inl ⟨.offer, i, listener, signal, _, rfl, hi, ?_, rfl⟩)
      rw [Codecs.received, hset]
      rfl
    | @answerListener _ listener signal answerSet hset =>
      refine Or.inr (Or.inl ⟨.answer, i, listener, signal, _, rfl, hi, ?_, rfl⟩)
      rw [Codecs.received, hset]
      rfl
    | callback hcall hyield =>
      cases state with
      | receiveAnswer x =>
        cases task <;> simp only [Task.yields, reduceCtorEq] at hyield
        exact Or.inr (Or.inr (Or.inl ⟨i, x, _, _, rfl, hi, rfl, rfl⟩))
      | peerListener _ _ | offerListener _ _ _ | answerListener _ _ _ =>
        cases task <;> simp [Task.yields] at hyield
      | createOffer remoteId offerSet =>
        simp only [step]
        split <;> exact Or.inl (by simp)
      | receiveOffer remoteId answerSet =>
        simp only [step]
        split <;> exact Or.inl (by simp)
      | localSigCplt _ | remoteSigCplt _ => exact Or.inl (by simp [step])
  | resume h =>
    cases resume_resumes h with
    | resync _ => exact Or.inl (synchronise_offers _ _ _)
    | offered _ | refused _ => exact Or.inl (by simp)
    | @answered x hprog => exact Or.inr (Or.inr (Or.inr ⟨x, rfl, hprog, rfl, rfl⟩))

/-- Of the futures of a callback, those that complete and those still queued are no more than
those that were queued and those that are called. -/
theorem Acts.ledger {input : Input A O C} {out : Outcome A O C} (h : p.Acts codecs input out)
    (hin : input.Honest p) {P : Task A O C → Bool} {Q : SignallingState A O C → Bool}
    (hP : ∀ task, P task = true → task.isCallback = true)
    (hlisten : ∀ state, Q state = true → state.relisten = none)
    (hQ : ∀ task state, task.yields state = true → state.remoteId = task.remoteId →
      Q state = true → P task = true) :
    out.consumed.toList.countP Q + out.peer.unorderedFuts.countP P ≤
      p.unorderedFuts.countP P + out.called.countP P := by
  have hno (task : Task A O C) (ht : task.isCallback = false) : P task = false := by
    by_contra hp
    rw [Bool.not_eq_false] at hp
    simp [hP task hp] at ht
  have hpeer (l : Streaming) : P (.peerListener l) = false := hno _ rfl
  have hoffer (l : Streaming) : P (.offerListener l) = false := hno _ rfl
  have hanswer (l : Streaming) : P (.answerListener l) = false := hno _ rfl
  cases h with
  | @skipOffer i listener _ hi | @skipAnswer i listener _ hi =>
    obtain ⟨hlt, hget⟩ := List.getElem?_eq_some_iff.mp hi
    rw [(List.set_perm_cons_eraseIdx hlt _).countP_eq, (futs_perm hi).countP_eq,
      List.countP_cons_of_neg (by simp [hoffer, hanswer]),
      List.countP_cons_of_neg (by simp [hoffer, hanswer])]
    simp
  | @fail i task _ e _ hi _ =>
    have hle := (List.eraseIdx_sublist p.unorderedFuts i).countP_le (p := P)
    simpa using hle
  | @complete i task _ state hidle hi hc =>
    obtain ⟨_, _, hfuts, hcons⟩ := step_spec codecs
      { p with unorderedFuts := p.unorderedFuts.eraseIdx i } hidle state
    have hre : state.relisten.toList.countP P = 0 := by
      cases state <;> simp [SignallingState.relisten, hpeer, hoffer, hanswer]
    have hpaid : [state].countP Q ≤ [task].countP P := by
      by_cases hq : Q state = true
      · cases hc with
        | peerListener | offerListener _ | answerListener _ =>
          exact absurd (hlisten _ hq) (by simp [SignallingState.relisten])
        | callback hcall hyield =>
          have hid : state.remoteId = task.remoteId := hin task (by rw [hi]; rfl)
          simp [hq, hQ task state hyield hid hq]
      · simp [hq]
    rw [hcons, hfuts, (futs_perm hi).countP_eq, List.countP_append, List.countP_append, hre,
      List.countP_cons]
    simp only [List.countP_singleton, Option.toList_some] at hpaid ⊢
    omega
  | resume h =>
    obtain ⟨_, _, hfuts, hcons⟩ := (resume_resumes h).spec
    rw [hfuts, hcons, List.countP_append]
    simp

/-! ## Nothing is forgotten -/

/-- A state is consumed by the step that handles it. -/
theorem Acts.of_consumed {input : Input A O C} {out : Outcome A O C} (h : p.Acts codecs input out)
    {state : SignallingState A O C} (hc : out.consumed = some state) :
    ∃ p' : Peer A O C, out = step codecs p' state := by
  cases h with
  | skipOffer _ _ | skipAnswer _ _ | fail _ _ _ => simp at hc
  | @complete i task _ state' hidle _ _ =>
    obtain ⟨_, _, _, hcons⟩ := step_spec codecs
      { p with unorderedFuts := p.unorderedFuts.eraseIdx i } hidle state'
    rw [hcons, Option.some.injEq] at hc
    exact ⟨_, congrArg _ hc⟩
  | resume h =>
    rw [(resume_resumes h).spec.2.2.2] at hc
    simp at hc

/-- Where all payloads survive the wire, every description that a callback returns is
signalled. -/
theorem Acts.signals (hcodecs : codecs.Faithful) {input : Input A O C} {out : Outcome A O C}
    (h : p.Acts codecs input out) {state : SignallingState A O C}
    (hcons : out.consumed = some state) {id : Id} (hrelay : (state.relayed id).isSome = true) :
    ∃ slot remotePeer signal, out.request = some (.signal slot remotePeer signal) := by
  obtain ⟨p', rfl⟩ := h.of_consumed hcons
  cases state with
  | createOffer remoteId offerSet =>
    obtain ⟨offer, hoffer, _⟩ := hcodecs.offer offerSet.1
    obtain ⟨candidates, hcandidates, _⟩ := hcodecs.candidates offerSet.2
    refine ⟨.offer, some remoteId, some ⟨p'.localId, offer, candidates⟩, ?_⟩
    simp [step, signalOffer, hoffer, hcandidates]
  | receiveOffer remoteId answerSet =>
    obtain ⟨answer, hanswer, _⟩ := hcodecs.answer answerSet.1
    obtain ⟨candidates, hcandidates, _⟩ := hcodecs.candidates answerSet.2
    refine ⟨.answer, some remoteId, some ⟨p'.localId, answer, candidates⟩, ?_⟩
    simp [step, signalAnswer, hanswer, hcandidates]
  | _ => simp [SignallingState.relayed] at hrelay

/-- While callbacks succeed, a callback that has been called stays queued until its state is
consumed. -/
theorem Acts.keeps {input : Input A O C} {out : Outcome A O C} (h : p.Acts codecs input out)
    (hin : input.Honest p) (hok : ∀ i e, input ≠ .callback i (.error e)) {task : Task A O C}
    (hcall : task.isCallback = true) (ht : task ∈ p.unorderedFuts ∨ task ∈ out.called) :
    task ∈ out.peer.unorderedFuts ∨ ∃ state, out.consumed = some state ∧
      task.yields state = true ∧ state.remoteId = task.remoteId := by
  have hrest {i : Nat} {taken : Task A O C} (hi : p.unorderedFuts[i]? = some taken)
      (hne : task ≠ taken) (ht : task ∈ p.unorderedFuts) : task ∈ p.unorderedFuts.eraseIdx i :=
    (List.mem_cons.mp ((futs_perm hi).subset ht)).resolve_left hne
  cases h with
  | @skipOffer i listener _ hi | @skipAnswer i listener _ hi =>
    replace ht := ht.resolve_right List.not_mem_nil
    have hmem := hrest hi (by rintro rfl; simp [Task.isCallback] at hcall) ht
    exact Or.inl ((List.set_perm_cons_eraseIdx (List.getElem?_eq_some_iff.mp hi).1 _).symm.subset
      (List.mem_cons_of_mem _ hmem))
  | @fail i taken _ e _ hi hb =>
    refine Or.inl (hrest hi ?_ (ht.resolve_right List.not_mem_nil))
    rintro rfl
    cases hb with
    | callback _ => exact absurd rfl (hok _ _)
    | _ => simp [Task.isCallback] at hcall
  | @complete i taken _ state hidle hi hc =>
    obtain ⟨_, _, hfuts, hcons⟩ := step_spec codecs
      { p with unorderedFuts := p.unorderedFuts.eraseIdx i } hidle state
    rw [hfuts, hcons]
    by_cases hne : task = taken
    · subst hne
      cases hc with
      | callback _ hyield =>
        exact Or.inr ⟨state, rfl, hyield, hin task (by rw [hi]; rfl)⟩
      | _ => simp [Task.isCallback] at hcall
    · refine Or.inl ?_
      rw [List.mem_append, List.mem_append]
      rcases ht with ht | ht
      · exact Or.inl (hrest hi hne ht)
      · exact Or.inr (Or.inr ht)
  | resume h =>
    rw [(resume_resumes h).spec.2.2.1]
    exact Or.inl (List.mem_append.mpr ht)

end Peer

end JustWebrtc.Signalling
