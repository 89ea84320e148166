import JustWebrtc.Core.Termination
import JustWebrtc.Example.Echo

/-!
# Rounds of the echo

On a channel that loses nothing one message is between the two tasks at every moment. Each step but
the interval of the offerer takes it further, so that a request is answered before the next one.
-/

namespace JustWebrtc.Example

open Connection (Platform)
open Signalling (Codec Bytes)

namespace Echo

variable {platform : Side → Platform} {codec : Codec String} {s t : State} {a : Action}
  {tr evs : List Event} {side : Side} {e e' : EchoEnd}

/-! ## Totals over the two ends -/

/-- A number for each end, over both ends. -/
def total (f : Side → EchoEnd → Nat) (s : State) : Nat :=
  f .offerer (s .offerer) + f .answerer (s .answerer)

section Totals

variable (f : Side → EchoEnd → Nat) (s : State)

/-- An end that changes changes the total by what it counts for. -/
theorem total_update (side : Side) (e : EchoEnd) :
    total f (Function.update s side e) + f side (s side) = total f s + f side e := by
  cases side with
  | offerer =>
    simp only [total, Function.update_self, ne_eq, reduceCtorEq, not_false_eq_true,
      Function.update_of_ne]
    omega
  | answerer =>
    simp only [total, Function.update_self, ne_eq, reduceCtorEq, not_false_eq_true,
      Function.update_of_ne]
    omega

variable {f s}

/-- An end that changes and counts for the same leaves the total as it is. -/
theorem total_update_eq (h : f side e = f side (s side)) :
    total f (Function.update s side e) = total f s := by
  have hsum := total_update f s side e
  omega

/-- An end that counts for less brings the total down. -/
theorem total_update_lt (h : f side e < f side (s side)) :
    total f (Function.update s side e) < total f s := by
  have hsum := total_update f s side e
  omega

variable (f s)

/-- Both ends have changed. -/
theorem total_update_other (side : Side) (e e' : EchoEnd) :
    total f (Function.update (Function.update s side e) side.other e') + f side (s side) +
      f side.other (s side.other) = total f s + f side e + f side.other e' := by
  have hself := total_update f s side e
  have hother := total_update f (Function.update s side e) side.other e'
  rw [Function.update_of_ne side.other_ne] at hother
  omega

end Totals

/-! ## The message between the ends -/

/-- The messages at an end: the one that it is going to send, and those that it has not received. -/
def pending (_ : Side) (e : EchoEnd) : Nat := e.task.busy + e.unread.length

/-- An end whose task runs and whose channel is open. -/
structure EndOpen (side : Side) (e : EchoEnd) : Prop where
  running : e.task.ended = false
  sender : e.rx.senderAlive = true
  receiver : e.rx.receiverAlive = true
  waits : ∀ request, e.task = .waiting request → side = .offerer

/-- An end stays open, while its task goes on. -/
theorem EndOpen.proceed (h : EndOpen side e) {task : ChannelEchoTask} (hended : task.ended = false)
    (hwaits : ∀ request, task = .waiting request → side = .offerer) :
    EndOpen side (e.proceed task) :=
  ⟨hended, h.sender, by simp [EchoEnd.proceed, hended], hwaits⟩

/-- Both ends are open, and one message is between them. -/
structure Intact (s : State) : Prop where
  pending : total pending s = 1
  ends : ∀ side, EndOpen side (s side)

/-- The step lemma of a reliable channel: the message is handed on. -/
theorem Moves.intact (hm : Moves codec s a (t, evs)) (ha : a.reliable = true)
    (hcodec : codec.Inverts) (hinv : Inv codec tr s) (h : Intact s) : Intact t := by
  -- one end changes, and counts for the same
  have quiet {side : Side} {e : EchoEnd}
      (hpending : Echo.pending side e = Echo.pending side (s side)) (hopen : EndOpen side e) :
      Intact (Function.update s side e) :=
    ⟨(total_update_eq hpending).trans h.pending, forall_update hopen (h.ends side.other)⟩
  generalize hout : (t, evs) = out at hm
  cases hm with
  | ticked htask =>
    obtain ⟨rfl, rfl⟩ := Prod.mk.inj hout
    refine quiet ?_ ((h.ends .offerer).proceed rfl (by simp))
    simp [Echo.pending, EchoEnd.proceed, EchoEnd.unread, htask, ChannelEchoTask.busy]
  | @transmitted side bytes htask =>
    obtain ⟨rfl, rfl⟩ := Prod.mk.inj hout
    refine ⟨?_, forall_update ?_ ?_⟩
    · have hself : Echo.pending side ((s side).proceed (.sending bytes true)) + 1 =
          Echo.pending side (s side) := by
        simp only [Echo.pending, EchoEnd.proceed, EchoEnd.unread, htask, ChannelEchoTask.busy]
        omega
      have hother : Echo.pending side.other
          { s side.other with wire := (s side.other).wire ++ [bytes] } =
            Echo.pending side.other (s side.other) + 1 := by
        simp only [Echo.pending, EchoEnd.unread, List.length_append, List.length_singleton]
        omega
      have hsum := total_update_other Echo.pending s side ((s side).proceed (.sending bytes true))
        { s side.other with wire := (s side.other).wire ++ [bytes] }
      have hone := h.pending
      omega
    · have hopen := h.ends side.other
      exact ⟨hopen.running, hopen.sender, hopen.receiver, hopen.waits⟩
    · rw [side.other_other, Function.update_self]
      exact (h.ends side).proceed rfl (by simp)
  | @sent side bytes htask =>
    obtain ⟨rfl, rfl⟩ := Prod.mk.inj hout
    refine quiet ?_ ((h.ends side).proceed rfl (by simp))
    simp [Echo.pending, EchoEnd.proceed, EchoEnd.unread, htask, ChannelEchoTask.busy]
  | sendFailed _ | lost _ | dropHandler => simp [Action.reliable] at ha
  | @disconnected side bytes _ _ hs =>
    rw [(h.ends side).sender] at hs
    simp at hs
  | @received side bytes data rest text htask hq htext =>
    obtain ⟨rfl, rfl⟩ := Prod.mk.inj hout
    have hdata := (hinv.ends side).texts data (by simp [EchoEnd.unread, hq])
    obtain rfl : text = side.other.text :=
      Option.some.inj (htext.symm.trans (hcodec _ _ hdata))
    obtain ⟨hbusy, hended⟩ : (ChannelEchoTask.heard side bytes side.other.text).busy = 1 ∧
        (ChannelEchoTask.heard side bytes side.other.text).ended = false := by
      cases side <;> exact ⟨rfl, rfl⟩
    have hopen : EndOpen side { s side with rx := { (s side).rx with queue := rest } } :=
      ⟨(h.ends side).running, (h.ends side).sender, (h.ends side).receiver, (h.ends side).waits⟩
    refine quiet ?_ (hopen.proceed hended fun request hwaiting => ?_)
    · have hidle : (s side).task.busy = 0 := by rw [htask]; rfl
      simp only [Echo.pending, EchoEnd.proceed, EchoEnd.unread, hbusy, hidle, hq,
        List.length_append, List.length_cons]
      omega
    · cases side with
      | offerer => rfl
      | answerer => simp [ChannelEchoTask.heard, Side.text, Side.other] at hwaiting
  | @malformed side bytes data rest htask hq hnone =>
    have hdata := (hinv.ends side).texts data (by simp [EchoEnd.unread, hq])
    simp [hcodec _ _ hdata] at hnone
  | @delivered side bytes wire hwire hs hr =>
    obtain ⟨rfl, rfl⟩ := Prod.mk.inj hout
    refine quiet ?_ ⟨(h.ends side).running, hs, hr, (h.ends side).waits⟩
    simp [Echo.pending, EchoEnd.unread, hwire]
  | @ignored side bytes wire hwire hr =>
    rw [(h.ends side).receiver] at hr
    simp at hr

/-! ## Rounds -/

/-- A step of a reliable channel that is not the interval of the offerer. -/
def Within (_ : State) (a : Action) : Prop := a.reliable = true ∧ a ≠ .tick

/-- The steps of a round that a task has before it, where its side has as many left when it is
about to put its message on its way. -/
def taskRank (left : Nat) : ChannelEchoTask → Nat
  | .sending _ false => left
  | .sending _ true => 1
  | .waiting _ | .receiving _ | .returned _ => 0

/-- The steps of a round that an end has before it, up to the next interval. -/
def endRank : Side → EchoEnd → Nat
  | .offerer, e => taskRank 8 e.task + 2 * e.wire.length + e.rx.queue.length
  | .answerer, e => taskRank 4 e.task + 6 * e.wire.length + 5 * e.rx.queue.length

/-- A task has no more steps before it than its message allows. -/
theorem taskRank_le (left : Nat) (task : ChannelEchoTask) :
    taskRank (left + 1) task ≤ left * task.busy + 1 := by
  rcases task with _ | ⟨_, _ | _⟩ | _ | _ <;> simp [taskRank, ChannelEchoTask.busy]

/-- A round has at most nine steps up to the next interval: those of a request and its response,
and the return of the `send` of the response before. -/
theorem Intact.rank_le (h : Intact s) : total endRank s ≤ 9 := by
  have hofferer : taskRank 8 (s .offerer).task ≤ 7 * (s .offerer).task.busy + 1 :=
    taskRank_le 7 _
  have hanswerer : taskRank 4 (s .answerer).task ≤ 3 * (s .answerer).task.busy + 1 :=
    taskRank_le 3 _
  have hone := h.pending
  simp only [total, Echo.pending, EchoEnd.unread, List.length_append] at hone
  simp only [total, endRank]
  omega

/-- A round goes on with each step but the interval. -/
theorem Moves.rank_lt (hm : Moves codec s a (t, evs)) (ha : Within s a) (h : Intact s) :
    total endRank t < total endRank s := by
  generalize hout : (t, evs) = out at hm
  cases hm with
  | ticked _ => exact absurd rfl ha.2
  | @transmitted side bytes htask =>
    obtain ⟨rfl, rfl⟩ := Prod.mk.inj hout
    have hsum := total_update_other endRank s side ((s side).proceed (.sending bytes true))
      { s side.other with wire := (s side.other).wire ++ [bytes] }
    cases side with
    | offerer =>
      simp only [endRank, Side.other, EchoEnd.proceed, htask, taskRank, List.length_append,
        List.length_singleton] at hsum ⊢
      omega
    | answerer =>
      simp only [endRank, Side.other, EchoEnd.proceed, htask, taskRank, List.length_append,
        List.length_singleton] at hsum ⊢
      omega
  | @sent side bytes htask =>
    obtain ⟨rfl, rfl⟩ := Prod.mk.inj hout
    refine total_update_lt ?_
    cases side <;> simp [endRank, EchoEnd.proceed, htask, taskRank]
  | sendFailed _ | lost _ | dropHandler => exact absurd ha.1 (by simp [Action.reliable])
  | @disconnected side bytes _ _ hs =>
    rw [(h.ends side).sender] at hs
    simp at hs
  | @received side bytes data rest text htask hq htext =>
    obtain ⟨rfl, rfl⟩ := Prod.mk.inj hout
    refine total_update_lt ?_
    cases side with
    | offerer => simp [endRank, EchoEnd.proceed, htask, taskRank, ChannelEchoTask.heard, hq]
    | answerer =>
      have hheard : taskRank 4 (ChannelEchoTask.heard .answerer bytes text) ≤ 4 := by
        simp only [ChannelEchoTask.heard]
        split <;> simp [taskRank]
      have hidle : taskRank 4 (.receiving bytes) = 0 := rfl
      simp only [endRank, EchoEnd.proceed, htask, hq, hidle, List.length_cons]
      omega
  | @malformed side bytes data rest htask hq hnone =>
    obtain ⟨rfl, rfl⟩ := Prod.mk.inj hout
    simp only [Function.update_self, Function.update_idem]
    refine total_update_lt ?_
    cases side <;> simp [endRank, EchoEnd.proceed, htask, taskRank, hq]
  | @delivered side bytes wire hwire hs hr =>
    obtain ⟨rfl, rfl⟩ := Prod.mk.inj hout
    refine total_update_lt ?_
    cases side with
    | offerer =>
      simp only [endRank, hwire, List.length_cons, List.length_append, List.length_nil]
      omega
    | answerer =>
      simp only [endRank, hwire, List.length_cons, List.length_append, List.length_nil]
      omega
  | @ignored side bytes wire hwire hr =>
    rw [(h.ends side).receiver] at hr
    simp at hr

/-- Where nothing but the interval is left, an end waits for it, or for a message that is not on
its way. -/
theorem EndOpen.stuck (h : EndOpen side (s side))
    (hstuck : (echo platform codec).Stuck Within s) :
    (s side).wire = [] ∧ ((∃ bytes, (s side).task = .waiting bytes ∧ side = .offerer) ∨
      ∃ bytes, (s side).task = .receiving bytes ∧ (s side).rx.queue = []) := by
  constructor
  · have hdeliver := hstuck (.deliver side) ⟨rfl, by simp⟩
    cases hwire : (s side).wire with
    | nil => rfl
    | cons bytes wire => simp [echo, step, hwire, h.sender] at hdeliver
  · cases htask : (s side).task with
    | waiting bytes => exact .inl ⟨bytes, rfl, h.waits bytes htask⟩
    | sending bytes onWay =>
      cases onWay with
      | false =>
        have htransmit := hstuck (.transmit side) ⟨rfl, by simp⟩
        simp [echo, step, htask] at htransmit
      | true =>
        have hsend := hstuck (.send side (.ok ())) ⟨rfl, by simp⟩
        simp [echo, step, htask] at hsend
    | receiving bytes =>
      refine .inr ⟨bytes, rfl, ?_⟩
      have hreceive := hstuck (.receive side) ⟨rfl, by simp⟩
      cases hq : (s side).rx.queue with
      | nil => rfl
      | cons data rest =>
        cases hdata : codec.deserialize data <;>
          simp [echo, step, htask, Queue.recv, hq, hdata] at hreceive
    | returned error =>
      have hrunning := h.running
      simp [htask, ChannelEchoTask.ended] at hrunning

/-- Where nothing but the interval is left, the offerer waits for it. -/
theorem Intact.waiting (h : Intact s) (hstuck : (echo platform codec).Stuck Within s) :
    ∃ bytes, (s .offerer).task = .waiting bytes := by
  obtain ⟨hwire, hofferer⟩ := (h.ends .offerer).stuck hstuck
  obtain ⟨hwire', hanswerer⟩ := (h.ends .answerer).stuck hstuck
  have hone := h.pending
  rcases hofferer with ⟨bytes, htask, _⟩ | ⟨bytes, htask, hq⟩
  · exact ⟨bytes, htask⟩
  -- two ends that both wait for a message have none between them
  · rcases hanswerer with ⟨_, _, hside⟩ | ⟨bytes', htask', hq'⟩
    · simp at hside
    · simp [total, Echo.pending, EchoEnd.unread, ChannelEchoTask.busy, htask, hq, hwire, htask',
        hq', hwire'] at hone

/-- While one message is between the ends, they have no account open but for it. -/
theorem Intact.balanced (h : Intact s) (hinv : Inv codec tr s) {bytes : Bytes}
    (htask : (s .offerer).task = .waiting bytes) :
    sentBy .offerer tr = receivedBy .answerer tr ∧ receivedBy .answerer tr = sentBy .answerer tr ∧
      sentBy .answerer tr = receivedBy .offerer tr := by
  have hone := h.pending
  have hunread := (hinv.ends .offerer).unread
  have hbusy := (hinv.ends .offerer).busy
  have hunread' := (hinv.ends .answerer).unread
  have hbusy' := (hinv.ends .answerer).busy
  have hwaiting : (s .offerer).task.busy = 1 := by rw [htask]; rfl
  simp only [total, Echo.pending, hwaiting] at hone
  simp only [Side.other, credit, hwaiting] at hunread hbusy hunread' hbusy'
  refine ⟨?_, ?_, ?_⟩ <;> omega

/-- The ends of a reliable channel, after every run. -/
theorem intact (hcodec : codec.Inverts) {request response : Bytes}
    (hrequest : codec.serialize echoRequest = some request)
    (hresponse : codec.serialize echoResponse = some response)
    (hr : (echo platform codec).Run Reliable tr s) : Intact s := by
  refine hr.invariant (I := fun _ s => Intact s) ?_ fun hr h ha hs =>
    (step_moves hs).intact ha hcodec (inv hcodec hr) h
  have hofferer : channelEchoTask codec .offerer = .waiting request := by
    simp [channelEchoTask, hrequest]
  have hanswerer : channelEchoTask codec .answerer = .receiving response := by
    simp [channelEchoTask, hresponse]
  refine ⟨?_, fun side => ?_⟩
  · simp [total, Echo.pending, echo, hofferer, hanswerer, EchoEnd.proceed, EchoEnd.unread,
      Queue.unbounded, ChannelEchoTask.busy]
  · cases side <;> constructor <;> simp [echo, hofferer, hanswerer, EchoEnd.proceed,
      Queue.unbounded, ChannelEchoTask.ended]

/-- On a reliable channel each request is answered before the next one: no task returns, every run
goes on to where only the interval of the offerer is left, by at most nine steps whatever their
order, and there each request has been received and answered, and its response received. -/
theorem requests_answered (hcodec : codec.Inverts) {request response : Bytes}
    (hrequest : codec.serialize echoRequest = some request)
    (hresponse : codec.serialize echoResponse = some response)
    {xs : List (Machine.Transition State Action Event)}
    (hr : (echo platform codec).recorded.Run Reliable xs s) :
    (∀ side, (s side).task.ended = false) ∧
    (∃ more t, (echo platform codec).recorded.Run Reliable (xs ++ more) t ∧
      (echo platform codec).Stuck Within t ∧ ∀ x ∈ more, Within x.source x.action) ∧
    (∀ more t, (echo platform codec).recorded.Run Reliable (xs ++ more) t →
      (∀ x ∈ more, Within x.source x.action) → more.length ≤ 9) ∧
    ((echo platform codec).Stuck Within s → (s .offerer).task = .waiting request ∧
      sentBy .offerer (Machine.trace xs) = receivedBy .answerer (Machine.trace xs) ∧
      receivedBy .answerer (Machine.trace xs) = sentBy .answerer (Machine.trace xs) ∧
      sentBy .answerer (Machine.trace xs) = receivedBy .offerer (Machine.trace xs)) := by
  have h := intact hcodec hrequest hresponse hr.forget
  have hinv := inv hcodec hr.forget
  have hless {tr s a t evs} (hr : (echo platform codec).Run Reliable tr s) (ha : Within s a)
      (hs : (echo platform codec).step s a = some (t, evs)) : total endRank t < total endRank s :=
    (step_moves hs).rank_lt ha (intact hcodec hrequest hresponse hr)
  refine ⟨fun side => (h.ends side).running, hr.settles (fun _ _ ha => ha.1) hless,
    fun more t hrun hmore => ?_, fun hstuck => ?_⟩
  · have hle := Machine.Run.rank_le hless hr hrun hmore
    have hnine := h.rank_le
    omega
  · obtain ⟨bytes, htask⟩ := h.waiting hstuck
    have hheld := (hinv.ends .offerer).holds bytes (by simp [htask, ChannelEchoTask.message])
    obtain rfl : request = bytes := Option.some.inj (hrequest.symm.trans hheld)
    exact ⟨htask, h.balanced hinv htask⟩

/-- The first request is answered. -/
theorem requests_answered_first : ∃ xs s,
    (echo (fun _ => .native) texts).recorded.Run Reliable xs s ∧
    (s .offerer).task = .waiting requestBytes ∧ 0 < receivedBy .offerer (Machine.trace xs) := by
  obtain ⟨xs, s, hr, htrace, _⟩ := request_sent (fun _ => .native) texts_request
  obtain ⟨_, ⟨more, t, hrun, hstuck, _⟩, _⟩ :=
    requests_answered texts_inverts texts_request texts_response hr
  obtain ⟨_, _, _, hrest⟩ :=
    requests_answered texts_inverts texts_request texts_response hrun
  obtain ⟨htask, hreceived, hanswered, hheard⟩ := hrest hstuck
  refine ⟨_, t, hrun, htask, ?_⟩
  rw [← hheard, ← hanswered, ← hreceived, Machine.trace_append, sentBy_append, htrace,
    sentBy_sent, if_pos rfl]
  omega

end Echo

end JustWebrtc.Example
