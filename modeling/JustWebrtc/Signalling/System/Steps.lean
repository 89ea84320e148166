import JustWebrtc.Signalling.Server.Identity
import JustWebrtc.Signalling.System.State

/-!
# What one step of the system can do

The step function of the system is inverted once, like that of the server: a server step,
one of the stages of `start_peer`, one input to a running peer, or a stage of `close`. The
server of a system makes server steps only, so whatever holds in every run of a server
holds of the server of every run of the system.
-/

namespace JustWebrtc.Signalling

variable {ι A O C : Type*} [DecidableEq ι]

/-- The server events of a run of the system. -/
def serverEvent : System.Event ι A O C → Option Event
  | .server e => some e
  | _ => none

namespace System

/-- The events of the server. -/
def serverTrace (tr : List (Event ι A O C)) : List Signalling.Event := tr.filterMap serverEvent

omit [DecidableEq ι] in
@[simp] theorem serverTrace_append (tr evs : List (Event ι A O C)) :
    serverTrace (tr ++ evs) = serverTrace tr ++ serverTrace evs := List.filterMap_append

omit [DecidableEq ι] in
@[simp] theorem serverTrace_server (evs : List Signalling.Event) :
    serverTrace (evs.map Event.server : List (Event ι A O C)) = evs := by
  induction evs with
  | nil => rfl
  | cons e evs ih =>
    rw [List.map_cons, serverTrace, List.filterMap_cons]
    exact congrArg (e :: ·) ih

omit [DecidableEq ι] in
theorem mem_serverTrace {tr : List (Event ι A O C)} {e : Signalling.Event} :
    e ∈ serverTrace tr ↔ Event.server e ∈ tr := by
  rw [serverTrace, List.mem_filterMap]
  constructor
  · rintro ⟨e', hm, he⟩
    cases e' with
    | server e'' =>
      rw [serverEvent, Option.some.injEq] at he
      rwa [← he]
    | _ => simp [serverEvent] at he
  · intro hm
    exact ⟨_, hm, rfl⟩

/-- The call has returned a result. -/
def Returned (s : System ι A O C) (k : Nat) (result : Except Status Response) : Prop :=
  s.server.At k (.done result)

/-- Where an input of a peer with a pending call comes from. -/
inductive Hears (s : System ι A O C) (j : ι) (p : Peer A O C) (call : Option Nat) :
    Action ι A O C → Input A O C → Prop
  | peerMessage {i listener item} : p.unorderedFuts[i]? = some (.peerListener listener) →
      (s.server.peerWire listener.source)[listener.taken]? = some item →
      Hears s j p call (.listen j i) (.peerMessage i (item.map some))
  | offerMessage {i listener message} : p.unorderedFuts[i]? = some (.offerListener listener) →
      (s.server.signalWire listener.source)[listener.taken]? = some message →
      Hears s j p call (.listen j i) (.signalMessage i (.ok (some message)))
  | answerMessage {i listener message} : p.unorderedFuts[i]? = some (.answerListener listener) →
      (s.server.signalWire listener.source)[listener.taken]? = some message →
      Hears s j p call (.listen j i) (.signalMessage i (.ok (some message)))
  | peerLost {i status message} : (∀ m, message ≠ .ok (some m)) →
      Hears s j p call (.lose j i status) (.peerMessage i message)
  | signalLost {i status message} : (∀ m, message ≠ .ok (some m)) →
      Hears s j p call (.lose j i status) (.signalMessage i message)
  | callback {i result} : Hears s j p call (.finish j i result) (.callback i result)
  | response {k result} : call = some k → s.Returned k result →
      Hears s j p call (.reply j) (.response result)
  | failure {k status} : call = some k →
      Hears s j p call (.fail j status) (.response (.error status))

/-- The enabled steps, each with its guards and its effect. -/
inductive Moves (codecs : Codecs A O C) (s : System ι A O C) :
    Action ι A O C → System ι A O C × List (Event ι A O C) → Prop
  | server {a t evs} : s.server.step a = some (t, evs) →
      Moves codecs s (.server a) ({ s with server := t }, evs.map Event.server)
  | start {j} : s.clients j = .fresh →
      Moves codecs s (.start j) (s.send j .advertising .advertise [])
  | advertised {j k id} : s.clients j = .advertising k →
      s.Returned k (.ok (.advertise (some id))) →
      Moves codecs s (.reply j)
        (s.send j (.openingPeerListener id) (.openPeerListener (some id)) [.advertised j id])
  | peerListener {j id k i} : s.clients j = .openingPeerListener id k →
      s.Returned k (.ok (.openPeerListener i)) →
      Moves codecs s (.reply j)
        (s.send j (.openingOfferListener id i) (.openOfferListener (some id)) [])
  | offerListener {j id i k c} : s.clients j = .openingOfferListener id i k →
      s.Returned k (.ok (.openListener .offer c)) →
      Moves codecs s (.reply j)
        (s.send j (.openingAnswerListener id i c) (.openAnswerListener (some id)) [])
  | answerListener {j id i c k c'} : s.clients j = .openingAnswerListener id i c k →
      s.Returned k (.ok (.openListener .answer c')) →
      Moves codecs s (.reply j) (s.put j (.running (Peer.new id i c c') none) [])
  | giveUp {j k status a} : (s.clients j).starting = true → (s.clients j).call = some k →
      a = .fail j status ∨ (a = .reply j ∧ s.Returned k (.error status)) →
      Moves codecs s a (s.put j (.failed (s.clients j).localId) [])
  | act {j p call a input out} : s.clients j = .running p call → Hears s j p call a input →
      p.Acts codecs input out → Moves codecs s a (s.apply j out)
  | close {j p} : s.clients j = .running p none →
      Moves codecs s (.close j) (s.send j (.closing p) (.teardown (some p.localId)) [])
  | closed {j p k a response} : s.clients j = .closing p k →
      a = .fail j response ∨ a = .reply j →
      Moves codecs s a (s.put j (.closed p) [])

variable {codecs : Codecs A O C} {s : System ι A O C}

/-- An input that a step gives to a client is heard by its running peer. -/
private theorem input_moves {j : ι} {a : Action ι A O C} {input : Input A O C}
    {out : System ι A O C × List (Event ι A O C)} (h : s.input codecs j input = some out)
    (hh : ∀ p call, s.clients j = .running p call → Hears s j p call a input) :
    Moves codecs s a out := by
  unfold System.input at h
  split at h
  · rename_i p call hj
    rw [Option.map_eq_some_iff] at h
    obtain ⟨o, ho, rfl⟩ := h
    exact .act hj (hh p call hj) (Peer.act_acts ho)
  · simp only [reduceCtorEq] at h

/-- A client that starts gives up on an error. -/
private theorem answer_error {j : ι} (hstart : (s.clients j).starting = true) (status : Status) :
    s.answer codecs j (.error status) = some (s.put j (.failed (s.clients j).localId) []) := by
  unfold System.answer
  cases hj : s.clients j with
  | advertising _ | openingPeerListener _ _ | openingOfferListener _ _ _
  | openingAnswerListener _ _ _ _ => rfl
  | _ => simp [hj, Client.starting] at hstart

/-- A client that starts goes on with the response that its stage asks for. -/
private theorem started_moves {j : ι} {k : Nat} {rsp : Response}
    {out : System ι A O C × List (Event ι A O C)} (hstart : (s.clients j).starting = true)
    (hk : (s.clients j).call = some k) (hret : s.Returned k (.ok rsp))
    (h : s.answer codecs j (.ok rsp) = some out) : Moves codecs s (.reply j) out := by
  unfold System.answer at h
  cases hj : s.clients j with
  | advertising k' =>
    obtain rfl : k' = k := by simpa [hj, Client.call] using hk
    cases rsp with
    | advertise id =>
      cases id with
      | none => simp [hj] at h
      | some id =>
        simp only [hj, Option.some.injEq] at h
        subst h
        exact .advertised hj hret
    | _ => simp [hj] at h
  | openingPeerListener id k' =>
    obtain rfl : k' = k := by simpa [hj, Client.call] using hk
    cases rsp with
    | openPeerListener i =>
      simp only [hj, Option.some.injEq] at h
      subst h
      exact .peerListener hj hret
    | _ => simp [hj] at h
  | openingOfferListener id i k' =>
    obtain rfl : k' = k := by simpa [hj, Client.call] using hk
    cases rsp with
    | openListener slot c =>
      cases slot with
      | answer => simp [hj] at h
      | offer =>
        simp only [hj, Option.some.injEq] at h
        subst h
        exact .offerListener hj hret
    | _ => simp [hj] at h
  | openingAnswerListener id i c k' =>
    obtain rfl : k' = k := by simpa [hj, Client.call] using hk
    cases rsp with
    | openListener slot c' =>
      cases slot with
      | offer => simp [hj] at h
      | answer =>
        simp only [hj, Option.some.injEq] at h
        subst h
        exact .answerListener hj hret
    | _ => simp [hj] at h
  | _ => simp [hj, Client.starting] at hstart

/-- A client that closes is closed by any response to its teardown. -/
private theorem closing_answer {j : ι} {k : Nat} {p : Peer A O C}
    {response : Except Status Response} {out : System ι A O C × List (Event ι A O C)}
    (hj : s.clients j = .closing p k) (h : s.answer codecs j response = some out) :
    out = s.put j (.closed p) [] := by
  simp only [System.answer, hj] at h
  rcases response with status | _ | _ | _ | _ | _ | _ <;>
    simp only [Option.some.injEq, reduceCtorEq] at h <;> exact h.symm

/-- A response that a client receives moves it on. -/
private theorem answer_moves {j : ι} {a : Action ι A O C} {k : Nat}
    {response : Except Status Response} {out : System ι A O C × List (Event ι A O C)}
    (hk : (s.clients j).call = some k)
    (ha : (a = .reply j ∧ s.Returned k response) ∨ ∃ status, a = .fail j status ∧
      response = .error status)
    (h : s.answer codecs j response = some out) : Moves codecs s a out := by
  cases hj : s.clients j with
  | fresh | failed _ | closed _ => simp [hj, Client.call] at hk
  | advertising _ | openingPeerListener _ _ | openingOfferListener _ _ _
  | openingAnswerListener _ _ _ _ =>
    have hstart : (s.clients j).starting = true := by rw [hj]; rfl
    cases response with
    | error status =>
      rw [answer_error hstart, Option.some.injEq] at h
      rw [← h]
      have hgive : a = .fail j status ∨ (a = .reply j ∧ s.Returned k (.error status)) := by
        rcases ha with ha | ⟨status', ha, he⟩
        · exact Or.inr ha
        · rw [Except.error.inj he]
          exact Or.inl ha
      exact .giveUp hstart hk hgive
    | ok rsp =>
      rcases ha with ⟨rfl, hret⟩ | ⟨_, _, he⟩
      · exact started_moves hstart hk hret h
      · simp at he
  | running p call =>
    simp only [System.answer, hj] at h
    refine input_moves h fun p' call' hp => ?_
    rw [hp, Client.call] at hk
    rcases ha with ⟨rfl, hret⟩ | ⟨status, rfl, rfl⟩
    · exact .response hk hret
    · exact .failure hk
  | closing p k' =>
    rw [closing_answer hj h]
    have hclosed : ∃ status, a = .fail j status ∨ a = .reply j := by
      rcases ha with ⟨ha, _⟩ | ⟨status, ha, _⟩
      · exact ⟨.notAdvertised, Or.inr ha⟩
      · exact ⟨status, Or.inl ha⟩
    obtain ⟨status, ha⟩ := hclosed
    exact .closed hj ha

/-- Every enabled step is one of these. -/
theorem step_moves {a : Action ι A O C} {t : System ι A O C} {evs : List (Event ι A O C)}
    (h : s.step codecs a = some (t, evs)) : Moves codecs s a (t, evs) := by
  cases a with
  | server a =>
    simp only [step, Option.map_eq_some_iff, Prod.mk.injEq] at h
    obtain ⟨⟨t', evs'⟩, hs, rfl, rfl⟩ := h
    exact .server hs
  | start j =>
    simp only [step] at h
    cases hj : s.clients j with
    | fresh =>
      simp only [hj, Option.some.injEq] at h
      rw [← h]
      exact .start hj
    | _ => simp [hj] at h
  | reply j =>
    simp only [step] at h
    cases hk : (s.clients j).call with
    | none => simp only [hk, reduceCtorEq] at h
    | some k =>
      simp only [hk] at h
      split at h
      · rename_i request result hcall
        exact answer_moves hk (Or.inl ⟨rfl, request, hcall⟩) h
      · simp only [reduceCtorEq] at h
  | fail j status =>
    simp only [step] at h
    cases hk : (s.clients j).call with
    | none => simp only [hk, reduceCtorEq] at h
    | some k =>
      simp only [hk] at h
      exact answer_moves hk (Or.inr ⟨status, rfl, rfl⟩) h
  | listen j i =>
    simp only [step] at h
    cases hp : (s.clients j).peer? with
    | none => simp only [hp, reduceCtorEq] at h
    | some p =>
      simp only [hp, Option.bind_eq_some_iff] at h
      obtain ⟨input, hin, h⟩ := h
      refine input_moves h fun p' call hj => ?_
      obtain rfl : p' = p := by
        rw [hj, Client.peer?, Option.some.injEq] at hp
        exact hp
      unfold nextMessage at hin
      cases hi : p'.unorderedFuts[i]? with
      | none => simp only [hi, reduceCtorEq] at hin
      | some task =>
        cases task with
        | peerListener listener =>
          simp only [hi, Option.map_eq_some_iff] at hin
          obtain ⟨item, hitem, rfl⟩ := hin
          exact .peerMessage hi hitem
        | offerListener listener =>
          simp only [hi, Option.map_eq_some_iff] at hin
          obtain ⟨message, hm, rfl⟩ := hin
          exact .offerMessage hi hm
        | answerListener listener =>
          simp only [hi, Option.map_eq_some_iff] at hin
          obtain ⟨message, hm, rfl⟩ := hin
          exact .answerMessage hi hm
        | _ => simp [hi] at hin
  | lose j i status =>
    simp only [step] at h
    cases hp : (s.clients j).peer? with
    | none => simp only [hp, reduceCtorEq] at h
    | some p =>
      simp only [hp, Option.bind_eq_some_iff] at h
      obtain ⟨input, hin, h⟩ := h
      refine input_moves h fun p' call hj => ?_
      unfold lostMessage at hin
      split at hin <;> simp only [Option.some.injEq, reduceCtorEq] at hin <;> subst hin
      · exact .peerLost (by simp)
      · exact .peerLost (by simp)
      · exact .signalLost (by simp)
      · exact .signalLost (by simp)
      · exact .signalLost (by simp)
      · exact .signalLost (by simp)
  | finish j i result => exact input_moves h fun _ _ _ => .callback
  | close j =>
    simp only [step] at h
    split at h
    · rename_i p hj
      rw [Option.some.injEq] at h
      rw [← h]
      exact .close hj
    · simp only [reduceCtorEq] at h

end System

end JustWebrtc.Signalling
