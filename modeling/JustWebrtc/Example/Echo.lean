import JustWebrtc.Example.Connections

/-!
# The echo of the example peer

On the channel of a connection the offerer sends a request in each interval and awaits a response,
and the answerer sends a response to each request. The two tasks pass one message to and fro:
whatever fails or gets lost, the offerer has at most one request that is not answered.
-/

namespace JustWebrtc.Example

open Connection (Platform handleDataChannelMessage)
open Signalling (Codec Bytes)

/-- `ECHO_REQUEST`. -/
def echoRequest : String := "I'm literally Ryan Gosling."

/-- `ECHO_RESPONSE`. -/
def echoResponse : String := "I know right! He's literally me."

/-- The side of a connection. -/
inductive Side
  | offerer
  | answerer
  deriving DecidableEq, Repr

namespace Side

/-- The other side. -/
def other : Side → Side
  | offerer => answerer
  | answerer => offerer

/-- What the side sends. -/
def text : Side → String
  | offerer => echoRequest
  | answerer => echoResponse

@[simp] theorem other_other (side : Side) : side.other.other = side := by
  cases side <;> rfl

theorem other_ne (side : Side) : side.other ≠ side := by
  cases side <;> simp [other]

end Side

/-- `channel_echo_task` where it waits, with the message that it sends. -/
inductive ChannelEchoTask
  /-- For the next interval. -/
  | waiting (message : Bytes)
  /-- For `send`, which may have put the message on its way already. -/
  | sending (message : Bytes) (onWay : Bool)
  | receiving (message : Bytes)
  | returned (error : Error)
  deriving DecidableEq, Repr

/-- `channel_echo_task` up to where it waits first. -/
def channelEchoTask (codec : Codec String) : Side → ChannelEchoTask
  | .offerer =>
    match codec.serialize echoRequest with
    | some request => .waiting request
    | none => .returned .echo
  | .answerer =>
    match codec.serialize echoResponse with
    | some response => .receiving response
    | none => .returned .echo

namespace ChannelEchoTask

/-- The task has returned. -/
def ended : ChannelEchoTask → Bool
  | .returned _ => true
  | _ => false

/-- The task has a message that it is going to put on its way. -/
def busy : ChannelEchoTask → Nat
  | .waiting _ | .sending _ false => 1
  | .sending _ true | .receiving _ | .returned _ => 0

/-- The message that the task sends. -/
def message : ChannelEchoTask → List Bytes
  | .waiting message | .sending message _ | .receiving message => [message]
  | .returned _ => []

/-- The task goes on with the text that it has received. -/
def heard (side : Side) (message : Bytes) (text : String) : ChannelEchoTask :=
  match side with
  | .offerer => .waiting message
  | .answerer => if text = echoRequest then .sending message false else .receiving message

end ChannelEchoTask

/-- A side of the channel: its task, the messages that its handler has queued, and those on their
way to it. -/
structure EchoEnd where
  task : ChannelEchoTask
  rx : Queue Bytes
  wire : List Bytes

namespace EchoEnd

/-- The task goes on; where it returns, its channel is dropped. -/
def proceed (e : EchoEnd) (task : ChannelEchoTask) : EchoEnd :=
  { e with task := task, rx := { e.rx with receiverAlive := !task.ended } }

/-- The messages that the task has not received. -/
def unread (e : EchoEnd) : List Bytes := e.rx.queue ++ e.wire

end EchoEnd

/-- Bytes of the other side, as a platform hands them over. -/
def message : (platform : Platform) → Bytes → platform.MessageData
  | .native, bytes => bytes
  | .wasm, bytes => some bytes

namespace Echo

/-- What happens to the two tasks and on the channel between them. -/
inductive Action
  /-- The interval of the offerer. -/
  | tick
  /-- The platform puts the message of a `send` on its way. -/
  | transmit (side : Side)
  /-- `send` returns. -/
  | send (side : Side) (result : Except Connection.Error Unit)
  | receive (side : Side)
  /-- The first message on its way arrives. -/
  | deliver (side : Side)
  /-- The first message on its way is lost. -/
  | lose (side : Side)
  | dropHandler (side : Side)
  deriving DecidableEq

/-- What is recorded of the two tasks. -/
inductive Event
  | sent (side : Side)
  | received (side : Side) (text : String)
  | returned (side : Side) (error : Error)
  deriving DecidableEq

/-- The number of messages that a side has sent. -/
def sentBy (side : Side) (tr : List Event) : Nat := tr.countP fun e => e = .sent side

/-- The number of messages that a side has received. -/
def receivedBy (side : Side) (tr : List Event) : Nat :=
  tr.countP fun
    | .received side' _ => side' = side
    | _ => false

/-- The ends of a channel. -/
abbrev State := Side → EchoEnd

/-- A task returns an error. -/
def fail (s : State) (side : Side) (error : Error) : State × List Event :=
  (Function.update s side ((s side).proceed (.returned error)), [.returned side error])

/-- One step of the two tasks or of the channel. -/
def step (platform : Side → Platform) (codec : Codec String) (s : State) :
    Action → Option (State × List Event)
  | .tick =>
    match (s .offerer).task with
    | .waiting request =>
      some (Function.update s .offerer ((s .offerer).proceed (.sending request false)), [])
    | _ => none
  | .transmit side =>
    match (s side).task with
    | .sending bytes false =>
      let s := Function.update s side ((s side).proceed (.sending bytes true))
      some (Function.update s side.other
        { s side.other with wire := (s side.other).wire ++ [bytes] }, [.sent side])
    | _ => none
  | .send side result =>
    match (s side).task, result with
    | .sending bytes true, .ok () =>
      some (Function.update s side ((s side).proceed (.receiving bytes)), [])
    | .sending _ _, .error e => some (fail s side (.platform e))
    | _, _ => none
  | .receive side =>
    match (s side).task with
    | .receiving bytes =>
      match (s side).rx.recv with
      | none => none
      | some (none, _) => some (fail s side (.platform .mpscRecvError))
      | some (some data, rx) =>
        let e := { s side with rx := rx }
        match codec.deserialize data with
        | none => some (fail (Function.update s side e) side .echo)
        | some text => some (Function.update s side (e.proceed (.heard side bytes text)),
            [.received side text])
    | _ => none
  | .deliver side =>
    match (s side).wire with
    | bytes :: wire =>
      if (s side).rx.senderAlive then
        some (Function.update s side { s side with
          rx := handleDataChannelMessage (message (platform side) bytes) (s side).rx
          wire := wire }, [])
      else none
    | [] => none
  | .lose side =>
    match (s side).wire with
    | _ :: wire => some (Function.update s side { s side with wire := wire }, [])
    | [] => none
  | .dropHandler side =>
    some (Function.update s side { s side with
      rx := { (s side).rx with senderAlive := false } }, [])

/-- Nothing gets lost or fails. -/
def Action.reliable : Action → Bool
  | .send _ (.error _) | .lose _ | .dropHandler _ => false
  | _ => true

/-- A step of a channel that is reliable. -/
def Reliable (_ : State) (a : Action) : Prop := a.reliable = true

end Echo

/-- The tasks of the two sides on a channel that is open. -/
def echo (platform : Side → Platform) (codec : Codec String) :
    Machine Echo.State Echo.Action Echo.Event where
  init side := EchoEnd.proceed ⟨channelEchoTask codec side, .unbounded, []⟩
    (channelEchoTask codec side)
  step := Echo.step platform codec

namespace Echo

variable {platform : Side → Platform} {codec : Codec String} {s t : State} {a : Action}
  {tr evs : List Event}

/-- The steps, each with its guards. -/
inductive Moves (codec : Codec String) (s : State) : Action → State × List Event → Prop
  | ticked {request} : (s .offerer).task = .waiting request →
      Moves codec s .tick
        (Function.update s .offerer ((s .offerer).proceed (.sending request false)), [])
  | transmitted {side bytes} : (s side).task = .sending bytes false →
      Moves codec s (.transmit side)
        (Function.update (Function.update s side ((s side).proceed (.sending bytes true)))
          side.other { s side.other with wire := (s side.other).wire ++ [bytes] }, [.sent side])
  | sent {side bytes} : (s side).task = .sending bytes true →
      Moves codec s (.send side (.ok ()))
        (Function.update s side ((s side).proceed (.receiving bytes)), [])
  | sendFailed {side bytes onWay e} : (s side).task = .sending bytes onWay →
      Moves codec s (.send side (.error e)) (fail s side (.platform e))
  | received {side bytes data rest text} : (s side).task = .receiving bytes →
      (s side).rx.queue = data :: rest → codec.deserialize data = some text →
      Moves codec s (.receive side)
        (Function.update s side (EchoEnd.proceed
          { s side with rx := { (s side).rx with queue := rest } } (.heard side bytes text)),
            [.received side text])
  | malformed {side bytes data rest} : (s side).task = .receiving bytes →
      (s side).rx.queue = data :: rest → codec.deserialize data = none →
      Moves codec s (.receive side)
        (fail (Function.update s side
          { s side with rx := { (s side).rx with queue := rest } }) side .echo)
  | disconnected {side bytes} : (s side).task = .receiving bytes → (s side).rx.queue = [] →
      (s side).rx.senderAlive = false →
      Moves codec s (.receive side) (fail s side (.platform .mpscRecvError))
  | delivered {side bytes wire} : (s side).wire = bytes :: wire →
      (s side).rx.senderAlive = true → (s side).rx.receiverAlive = true →
      Moves codec s (.deliver side) (Function.update s side { s side with
        rx := { (s side).rx with queue := (s side).rx.queue ++ [bytes] }
        wire := wire }, [])
  | ignored {side bytes wire} : (s side).wire = bytes :: wire →
      (s side).rx.receiverAlive = false →
      Moves codec s (.deliver side) (Function.update s side { s side with wire := wire }, [])
  | lost {side bytes wire} : (s side).wire = bytes :: wire →
      Moves codec s (.lose side) (Function.update s side { s side with wire := wire }, [])
  | dropHandler {side} :
      Moves codec s (.dropHandler side) (Function.update s side { s side with
        rx := { (s side).rx with senderAlive := false } }, [])

/-- The handler queues the bytes of the other side, while the channel is kept. -/
theorem handleDataChannelMessage_message (platform : Platform) (bytes : Bytes) (q : Queue Bytes) :
    handleDataChannelMessage (message platform bytes) q =
      if q.receiverAlive then { q with queue := q.queue ++ [bytes] } else q := by
  cases platform <;> cases hr : q.receiverAlive <;>
    simp [handleDataChannelMessage, message, Connection.messageBytes, Queue.send, hr]

/-- Every step is one of these. -/
theorem step_moves (h : step platform codec s a = some (t, evs)) : Moves codec s a (t, evs) := by
  cases a with
  | tick =>
    simp only [step] at h
    split at h
    · rename_i request htask
      rw [← Option.some.inj h]
      exact .ticked htask
    · simp at h
  | transmit side =>
    simp only [step] at h
    split at h
    · rename_i bytes htask
      have hother : Function.update s side ((s side).proceed (.sending bytes true)) side.other =
          s side.other := Function.update_of_ne side.other_ne ..
      rw [hother] at h
      rw [← Option.some.inj h]
      exact .transmitted htask
    · simp at h
  | send side result =>
    simp only [step] at h
    split at h
    · rename_i bytes htask
      rw [← Option.some.inj h]
      exact .sent htask
    · rename_i bytes onWay e htask
      rw [← Option.some.inj h]
      exact .sendFailed htask
    · simp at h
  | receive side =>
    simp only [step] at h
    split at h
    · rename_i bytes htask
      split at h
      · simp at h
      · rename_i rx hrecv
        rcases Queue.recv_eq_some hrecv with ⟨_, _, hx, _, _⟩ | ⟨_, hq, hs, _⟩
        · simp at hx
        · rw [← Option.some.inj h]
          exact .disconnected htask hq hs
      · rename_i data rx hrecv
        rcases Queue.recv_eq_some hrecv with ⟨y, rest, hx, hq, rfl⟩ | ⟨hx, _, _, _⟩
        · obtain rfl := Option.some.inj hx
          split at h
          · rename_i hnone
            rw [← Option.some.inj h]
            exact .malformed htask hq hnone
          · rename_i text hsome
            rw [← Option.some.inj h]
            exact .received htask hq hsome
        · simp at hx
    · simp at h
  | deliver side =>
    simp only [step] at h
    split at h
    · rename_i bytes wire hwire
      split at h
      · rename_i hs
        rw [handleDataChannelMessage_message] at h
        rw [← Option.some.inj h]
        by_cases hr : (s side).rx.receiverAlive = true
        · rw [if_pos hr]
          exact .delivered hwire hs hr
        · rw [if_neg hr]
          exact .ignored hwire (Bool.not_eq_true _ ▸ hr)
      · simp at h
    · simp at h
  | lose side =>
    simp only [step] at h
    split at h
    · rename_i bytes wire hwire
      rw [← Option.some.inj h]
      exact .lost hwire
    · simp at h
  | dropHandler side =>
    simp only [step] at h
    rw [← Option.some.inj h]
    exact .dropHandler

/-! ## Requests and responses -/

@[simp] theorem sentBy_append (side : Side) (tr evs : List Event) :
    sentBy side (tr ++ evs) = sentBy side tr + sentBy side evs := List.countP_append

@[simp] theorem receivedBy_append (side : Side) (tr evs : List Event) :
    receivedBy side (tr ++ evs) = receivedBy side tr + receivedBy side evs := List.countP_append

@[simp] theorem sentBy_nil (side : Side) : sentBy side [] = 0 := rfl

@[simp] theorem receivedBy_nil (side : Side) : receivedBy side [] = 0 := rfl

@[simp] theorem sentBy_sent (side side' : Side) :
    sentBy side [.sent side'] = if side' = side then 1 else 0 := by
  simp [sentBy, List.countP_cons]

@[simp] theorem receivedBy_received (side side' : Side) (text : String) :
    receivedBy side [.received side' text] = if side' = side then 1 else 0 := by
  simp [receivedBy, List.countP_cons]

@[simp] theorem receivedBy_sent (side side' : Side) : receivedBy side [.sent side'] = 0 := rfl

@[simp] theorem sentBy_received (side side' : Side) (text : String) :
    sentBy side [.received side' text] = 0 := rfl

@[simp] theorem sentBy_returned (side side' : Side) (error : Error) :
    sentBy side [.returned side' error] = 0 := rfl

@[simp] theorem receivedBy_returned (side side' : Side) (error : Error) :
    receivedBy side [.returned side' error] = 0 := rfl

/-- The messages that a side may send without having received one. -/
def credit : Side → Nat
  | .offerer => 1
  | .answerer => 0

/-- What an end has sent, received and not yet read, and that these are the texts of the two
sides. -/
structure EndInv (codec : Codec String) (tr : List Event) (side : Side) (e : EchoEnd) : Prop where
  unread : receivedBy side tr + e.unread.length ≤ sentBy side.other tr
  busy : sentBy side tr + e.task.busy ≤ receivedBy side tr + credit side
  texts : ∀ b ∈ e.unread, codec.serialize side.other.text = some b
  holds : ∀ b ∈ e.task.message, codec.serialize side.text = some b

variable {side : Side} {e e' : EchoEnd}

/-- An end that neither sends nor receives anything keeps its account. -/
theorem EndInv.frame (h : EndInv codec tr side e) (hreceived : receivedBy side evs = 0)
    (hsent : sentBy side evs = 0) (hunread : e'.unread.Sublist e.unread)
    (hbusy : e'.task.busy ≤ e.task.busy) (hmessage : e'.task.message ⊆ e.task.message) :
    EndInv codec (tr ++ evs) side e' := by
  have hle := hunread.length_le
  have hold := h.unread
  have hold' := h.busy
  refine ⟨?_, ?_, fun b hb => h.texts b (hunread.subset hb), fun b hb => h.holds b (hmessage hb)⟩
  · rw [receivedBy_append, sentBy_append]
    omega
  · rw [receivedBy_append, sentBy_append]
    omega

/-- An end has put its message on its way. -/
theorem EndInv.transmitted (h : EndInv codec tr side e) {bytes : Bytes}
    (htask : e.task = .sending bytes false) :
    EndInv codec (tr ++ [.sent side]) side (e.proceed (.sending bytes true)) := by
  have hbusy := h.busy
  rw [htask, ChannelEchoTask.busy] at hbusy
  refine ⟨?_, ?_, h.texts, fun b hb => h.holds b ?_⟩
  · rw [receivedBy_append, sentBy_append, receivedBy_sent]
    exact h.unread.trans (Nat.le_add_right _ _)
  · rw [receivedBy_append, sentBy_append, receivedBy_sent, sentBy_sent, if_pos rfl]
    exact hbusy
  · rw [htask]
    exact hb

/-- The other end has put its message on its way. -/
theorem EndInv.incoming (h : EndInv codec tr side e) {bytes : Bytes}
    (hbytes : codec.serialize side.other.text = some bytes) :
    EndInv codec (tr ++ [.sent side.other]) side { e with wire := e.wire ++ [bytes] } := by
  have hunread : EchoEnd.unread { e with wire := e.wire ++ [bytes] } = e.unread ++ [bytes] := by
    simp [EchoEnd.unread]
  refine ⟨?_, ?_, fun b hb => ?_, h.holds⟩
  · rw [receivedBy_append, sentBy_append, receivedBy_sent, sentBy_sent, if_pos rfl, hunread,
      List.length_append]
    have hold := h.unread
    simp only [List.length_singleton]
    omega
  · rw [receivedBy_append, sentBy_append, receivedBy_sent, sentBy_sent, if_neg side.other_ne]
    exact h.busy
  · rw [hunread, List.mem_append, List.mem_singleton] at hb
    rcases hb with hb | rfl
    · exact h.texts b hb
    · exact hbytes

/-- An end has received a text. -/
theorem EndInv.received (h : EndInv codec tr side e) {bytes data : Bytes} {rest : List Bytes}
    {text : String} (htask : e.task = .receiving bytes) (hq : e.rx.queue = data :: rest) :
    EndInv codec (tr ++ [.received side text]) side (EchoEnd.proceed
      { e with rx := { e.rx with queue := rest } } (.heard side bytes text)) := by
  have hunread : e.unread = data :: EchoEnd.unread (EchoEnd.proceed
      { e with rx := { e.rx with queue := rest } } (.heard side bytes text)) := by
    simp [EchoEnd.unread, EchoEnd.proceed, hq]
  have hold := h.unread
  have hold' := h.busy
  rw [hunread, List.length_cons] at hold
  rw [htask, ChannelEchoTask.busy] at hold'
  refine ⟨?_, ?_, fun b hb => h.texts b ?_, fun b hb => h.holds b ?_⟩
  · rw [receivedBy_append, sentBy_append, receivedBy_received, if_pos rfl]
    omega
  · have hheard : (ChannelEchoTask.heard side bytes text).busy ≤ 1 := by
      cases side with
      | offerer => exact le_rfl
      | answerer =>
        simp only [ChannelEchoTask.heard]
        split <;> simp [ChannelEchoTask.busy]
    rw [receivedBy_append, sentBy_append, receivedBy_received, if_pos rfl, sentBy_received]
    simp only [EchoEnd.proceed]
    omega
  · rw [hunread]
    exact List.mem_cons_of_mem _ hb
  · rw [htask]
    cases side with
    | offerer => exact hb
    | answerer =>
      simp only [EchoEnd.proceed, ChannelEchoTask.heard] at hb
      split at hb <;> exact hb

/-- A property of both ends, of which one has been replaced. -/
theorem forall_update {P : Side → EchoEnd → Prop} (h : P side e)
    (hother : P side.other (s side.other)) (side' : Side) :
    P side' (Function.update s side e side') := by
  by_cases hs : side' = side
  · subst hs
    rw [Function.update_self]
    exact h
  · have ho : side' = side.other := by
      cases side <;> cases side' <;> first | rfl | exact absurd rfl hs
    rw [Function.update_of_ne hs, ho]
    exact hother

/-- What holds of the two tasks and of the channel between them. -/
structure Inv (codec : Codec String) (tr : List Event) (s : State) : Prop where
  ends : ∀ side, EndInv codec tr side (s side)
  heard : ∀ side text, .received side text ∈ tr → text = side.other.text
  returned : ∀ side error, .returned side error ∈ tr → ∃ e, error = .platform e

/-- One end changes, and nothing is sent or received. -/
theorem Inv.quiet (h : Inv codec tr s)
    (hcount : ∀ side, receivedBy side evs = 0 ∧ sentBy side evs = 0)
    (hunread : e.unread.Sublist (s side).unread) (hbusy : e.task.busy ≤ (s side).task.busy)
    (hmessage : e.task.message ⊆ (s side).task.message) (side' : Side) :
    EndInv codec (tr ++ evs) side' (Function.update s side e side') := by
  refine forall_update ?_ ?_ side'
  · exact (h.ends side).frame (hcount side).1 (hcount side).2 hunread hbusy hmessage
  · exact (h.ends side.other).frame (hcount _).1 (hcount _).2 (List.Sublist.refl _) le_rfl
      (List.Subset.refl _)

/-- One end changes without a trace. -/
theorem Inv.silent (h : Inv codec tr s) (hunread : e.unread.Sublist (s side).unread)
    (hbusy : e.task.busy ≤ (s side).task.busy)
    (hmessage : e.task.message ⊆ (s side).task.message) :
    Inv codec (tr ++ []) (Function.update s side e) := by
  refine ⟨h.quiet (fun _ => ⟨rfl, rfl⟩) hunread hbusy hmessage, ?_, ?_⟩
  · simpa using h.heard
  · simpa using h.returned

/-- A task ends with an error of its platform. -/
theorem Inv.failed (h : Inv codec tr s) (side : Side) (error : Connection.Error) :
    Inv codec (tr ++ [.returned side (.platform error)]) (fail s side (.platform error)).1 := by
  refine ⟨h.quiet (fun _ => ⟨rfl, rfl⟩) (List.Sublist.refl _) (Nat.zero_le _) (List.nil_subset _),
    fun side text ht => h.heard side text (by simpa using ht), fun side' e he => ?_⟩
  rcases List.mem_append.mp he with he | he
  · exact h.returned side' e he
  · rw [List.mem_singleton, Event.returned.injEq] at he
    exact ⟨error, he.2⟩

/-- An end puts its message on its way to the other. -/
theorem Inv.transmitted (h : Inv codec tr s) {bytes : Bytes}
    (htask : (s side).task = .sending bytes false) :
    Inv codec (tr ++ [.sent side])
      (Function.update (Function.update s side ((s side).proceed (.sending bytes true)))
        side.other { s side.other with wire := (s side.other).wire ++ [bytes] }) := by
  have hbytes : codec.serialize side.text = some bytes :=
    (h.ends side).holds bytes (by rw [htask]; exact List.mem_singleton_self _)
  refine ⟨?_, fun side' text ht => h.heard side' text (by simpa using ht),
    fun side' e he => h.returned side' e (by simpa using he)⟩
  refine forall_update ?_ ?_
  · have hother : codec.serialize side.other.other.text = some bytes := by
      rwa [side.other_other]
    have hincoming := (h.ends side.other).incoming hother
    rwa [side.other_other] at hincoming
  · rw [side.other_other, Function.update_self]
    exact (h.ends side).transmitted htask

/-- What an end has yet to read is the text of the other. -/
theorem Inv.deserialize (h : Inv codec tr s) (hcodec : codec.Inverts) {data : Bytes}
    {rest : List Bytes} (hq : (s side).rx.queue = data :: rest) :
    codec.deserialize data = some side.other.text :=
  hcodec _ _ ((h.ends side).texts data (by simp [EchoEnd.unread, hq]))

/-- An end receives the text of the other. -/
theorem Inv.received (h : Inv codec tr s) (hcodec : codec.Inverts) {bytes data : Bytes}
    {rest : List Bytes} {text : String} (htask : (s side).task = .receiving bytes)
    (hq : (s side).rx.queue = data :: rest) (htext : codec.deserialize data = some text) :
    Inv codec (tr ++ [.received side text]) (Function.update s side (EchoEnd.proceed
      { s side with rx := { (s side).rx with queue := rest } } (.heard side bytes text))) := by
  have hsame : text = side.other.text :=
    Option.some.inj (htext.symm.trans (h.deserialize hcodec hq))
  refine ⟨?_, fun side' text' ht => ?_, fun side' e he => h.returned side' e (by simpa using he)⟩
  · refine forall_update ((h.ends side).received htask hq) ?_
    refine (h.ends side.other).frame ?_ rfl (List.Sublist.refl _) le_rfl (List.Subset.refl _)
    rw [receivedBy_received, if_neg side.other_ne.symm]
  · rcases List.mem_append.mp ht with ht | ht
    · exact h.heard side' text' ht
    · rw [List.mem_singleton, Event.received.injEq] at ht
      rw [ht.1, ht.2]
      exact hsame

/-- The step lemma. -/
theorem Moves.inv (hm : Moves codec s a (t, evs)) (hcodec : codec.Inverts) (h : Inv codec tr s) :
    Inv codec (tr ++ evs) t := by
  generalize hout : (t, evs) = out at hm
  cases hm with
  | ticked htask | sent htask =>
    obtain ⟨rfl, rfl⟩ := Prod.mk.inj hout
    refine h.silent (List.Sublist.refl _) ?_ ?_
    · rw [htask]
      exact le_rfl
    · rw [htask]
      exact List.Subset.refl _
  | transmitted htask =>
    obtain ⟨rfl, rfl⟩ := Prod.mk.inj hout
    exact h.transmitted htask
  | sendFailed _ | disconnected _ _ _ =>
    obtain ⟨rfl, rfl⟩ := Prod.mk.inj hout
    exact h.failed _ _
  | received htask hq htext =>
    obtain ⟨rfl, rfl⟩ := Prod.mk.inj hout
    exact h.received hcodec htask hq htext
  | malformed _ hq hnone =>
    rw [h.deserialize hcodec hq] at hnone
    simp at hnone
  | delivered hwire _ _ | ignored hwire _ | lost hwire =>
    obtain ⟨rfl, rfl⟩ := Prod.mk.inj hout
    exact h.silent (by simp [EchoEnd.unread, hwire]) le_rfl (List.Subset.refl _)
  | dropHandler =>
    obtain ⟨rfl, rfl⟩ := Prod.mk.inj hout
    exact h.silent (List.Sublist.refl _) le_rfl (List.Subset.refl _)

/-- The two tasks and the channel between them, after every run. -/
theorem inv (hcodec : codec.Inverts) {ok : State → Action → Prop}
    (hr : (echo platform codec).Run ok tr s) : Inv codec tr s := by
  refine hr.invariant ⟨fun side => ?_, by simp, by simp⟩ fun _ h _ hs =>
    (step_moves hs).inv hcodec h
  cases side with
  | offerer =>
    cases hb : codec.serialize echoRequest with
    | none =>
      have htask : channelEchoTask codec .offerer = .returned .echo := by
        simp [channelEchoTask, hb]
      constructor <;> simp [echo, htask, EchoEnd.proceed, EchoEnd.unread, Queue.unbounded,
        ChannelEchoTask.busy, ChannelEchoTask.message]
    | some request =>
      have htask : channelEchoTask codec .offerer = .waiting request := by
        simp [channelEchoTask, hb]
      constructor <;> simp [echo, htask, EchoEnd.proceed, EchoEnd.unread, Queue.unbounded,
        ChannelEchoTask.busy, ChannelEchoTask.message, credit, Side.text, hb]
  | answerer =>
    cases hb : codec.serialize echoResponse with
    | none =>
      have htask : channelEchoTask codec .answerer = .returned .echo := by
        simp [channelEchoTask, hb]
      constructor <;> simp [echo, htask, EchoEnd.proceed, EchoEnd.unread, Queue.unbounded,
        ChannelEchoTask.busy, ChannelEchoTask.message]
    | some response =>
      have htask : channelEchoTask codec .answerer = .receiving response := by
        simp [channelEchoTask, hb]
      constructor <;> simp [echo, htask, EchoEnd.proceed, EchoEnd.unread, Queue.unbounded,
        ChannelEchoTask.busy, ChannelEchoTask.message, credit, Side.text, hb]

/-! ## The first request -/

/-- The serialization of the request. -/
def requestBytes : Bytes :=
  [27, 0, 0, 0, 0, 0, 0, 0, 73, 39, 109, 32, 108, 105, 116, 101, 114, 97, 108, 108, 121, 32, 82,
    121, 97, 110, 32, 71, 111, 115, 108, 105, 110, 103, 46]

/-- The serialization of the response. -/
def responseBytes : Bytes :=
  [32, 0, 0, 0, 0, 0, 0, 0, 73, 32, 107, 110, 111, 119, 32, 114, 105, 103, 104, 116, 33, 32, 72,
    101, 39, 115, 32, 108, 105, 116, 101, 114, 97, 108, 108, 121, 32, 109, 101, 46]

/-- A codec that knows the two texts. -/
def texts : Codec String where
  serialize text :=
    if text = echoRequest then some requestBytes
    else if text = echoResponse then some responseBytes else none
  deserialize bytes :=
    if bytes = requestBytes then some echoRequest
    else if bytes = responseBytes then some echoResponse else none

theorem texts_inverts : texts.Inverts := by
  have hbytes : responseBytes ≠ requestBytes := by simp [responseBytes, requestBytes]
  intro text bytes h
  simp only [texts] at h
  split at h
  · rename_i htext
    rw [← Option.some.inj h, htext]
    simp [texts]
  · split at h
    · rename_i htext
      rw [← Option.some.inj h, htext]
      simp [texts, hbytes]
    · simp at h

theorem texts_request : texts.serialize echoRequest = some requestBytes := by
  simp [texts]

theorem texts_response : texts.serialize echoResponse = some responseBytes := by
  have hne : echoResponse ≠ echoRequest := by simp [echoResponse, echoRequest]
  simp [texts, hne]

/-- The offerer has put its first request on its way. -/
theorem request_sent (platform : Side → Platform) {request : Bytes}
    (hrequest : codec.serialize echoRequest = some request) :
    ∃ xs s, (echo platform codec).recorded.Run Reliable xs s ∧
      Machine.trace xs = [.sent .offerer] ∧ (s .answerer).wire = [request] := by
  obtain ⟨s, hs, htask, hwire⟩ : ∃ s, (echo platform codec).init = s ∧
      (s .offerer).task = .waiting request ∧ (s .answerer).wire = [] :=
    ⟨_, rfl, by simp [echo, EchoEnd.proceed, channelEchoTask, hrequest], rfl⟩
  obtain ⟨t, ht, htask', hwire'⟩ : ∃ t, (echo platform codec).step s .tick = some (t, []) ∧
      (t .offerer).task = .sending request false ∧ (t .answerer).wire = [] :=
    ⟨Function.update s .offerer ((s .offerer).proceed (.sending request false)),
      by simp only [echo, step, htask], rfl, hwire⟩
  obtain ⟨u, hu, hwire''⟩ : ∃ u,
      (echo platform codec).step t (.transmit .offerer) = some (u, [.sent .offerer]) ∧
        (u .answerer).wire = [request] := by
    refine ⟨Function.update
      (Function.update t .offerer ((t .offerer).proceed (.sending request true))) .answerer
        { t .answerer with wire := (t .answerer).wire ++ [request] },
          by simp only [echo, step, htask']; rfl, ?_⟩
    change (t .answerer).wire ++ [request] = [request]
    rw [hwire', List.nil_append]
  have hstart : (echo platform codec).recorded.Run Reliable [] s := hs ▸ .init
  have htick : Reliable s .tick := rfl
  have htransmit : Reliable t (.transmit .offerer) := rfl
  have hticked := hstart.step htick (Machine.recorded_step.mpr ⟨_, ht, rfl⟩)
  have hsent := hticked.step htransmit (Machine.recorded_step.mpr ⟨_, hu, rfl⟩)
  exact ⟨_, u, hsent, rfl, hwire''⟩

/-! ## Alternation -/

/-- Requests and responses alternate, whatever fails or gets lost: each side receives nothing but
what the other one sends, no response is sent without a request, and no request before the last
one has been answered. Once its own text is serialized, a task returns only errors of the
platform. -/
theorem echo_alternates (hcodec : codec.Inverts)
    (hr : (echo platform codec).Run Machine.Free tr s) :
    (∀ side text, .received side text ∈ tr → text = side.other.text) ∧
    (∀ side error, .returned side error ∈ tr → ∃ e, error = .platform e) ∧
    receivedBy .offerer tr ≤ sentBy .answerer tr ∧
    sentBy .answerer tr ≤ receivedBy .answerer tr ∧
    receivedBy .answerer tr ≤ sentBy .offerer tr ∧
    sentBy .offerer tr ≤ receivedBy .offerer tr + 1 := by
  have h := inv hcodec hr
  have hofferer := h.ends .offerer
  have hanswerer := h.ends .answerer
  refine ⟨h.heard, h.returned, ?_, ?_, ?_, ?_⟩
  · exact (Nat.le_add_right _ _).trans hofferer.unread
  · exact (Nat.le_add_right _ _).trans hanswerer.busy
  · exact (Nat.le_add_right _ _).trans hanswerer.unread
  · exact (Nat.le_add_right _ _).trans hofferer.busy

/-- The first request is lost, and the offerer sends no other one. -/
theorem echo_alternates_lost : ∃ tr s, (echo (fun _ => .native) texts).Run Machine.Free tr s ∧
    (s .answerer).wire = [] ∧ sentBy .offerer tr = 1 ∧ receivedBy .answerer tr = 0 ∧
    sentBy .offerer tr ≤ receivedBy .offerer tr + 1 := by
  obtain ⟨xs, s, hr, htrace, hwire⟩ := request_sent (fun _ => .native) texts_request
  have hsent := hr.forget.free
  rw [htrace] at hsent
  have hlost : (echo (fun _ => .native) texts).step s (.lose .answerer) =
      some (Function.update s .answerer { s .answerer with wire := [] }, []) := by
    simp only [echo, step, hwire]
  have hrun := hsent.step trivial hlost
  obtain ⟨_, _, _, _, _, hone⟩ := echo_alternates texts_inverts hrun
  exact ⟨_, _, hrun, rfl, rfl, rfl, hone⟩

end Echo

end JustWebrtc.Example
