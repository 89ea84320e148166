import JustWebrtc.Core.Termination
import JustWebrtc.Signalling.System.Traffic

/-!
# Faultless runs end

Every step of a faultless run is paid for. A step of the server works; a step of a client consumes
a state or sends a request, or it settles something the client still owed: a stage of `start_peer`,
the answer to a request, or the first message of a listener. The server's work and the events of
the clients are bounded, so there is no run that goes on for ever.
-/

namespace JustWebrtc.Signalling

variable {ι A O C : Type*} [DecidableEq ι]

/-- What a listener future owes: its end, and its first message, which may be empty. -/
def Task.unread : Task A O C → Nat
  | .peerListener listener | .offerListener listener | .answerListener listener =>
    if listener.taken = 0 then 2 else 1
  | _ => 0

theorem Task.unread_callback {task : Task A O C} (h : task.isCallback = true) :
    task.unread = 0 := by
  cases task <;> simp_all [Task.isCallback, Task.unread]

theorem Task.unread_message (slot : Slot) (listener : Streaming) :
    (Task.signalListener slot listener.message : Task A O C).unread = 1 := by
  cases slot <;> simp [Task.signalListener, Task.unread, Streaming.message]

/-- What the listener futures of a client owe. -/
def Client.unread : Client A O C → Nat
  | .running p _ => (p.unorderedFuts.map Task.unread).sum
  | _ => 6

/-- What a client owes: an answer, the stages of `start_peer`, and the ends of its listeners. -/
def Client.debt (c : Client A O C) : Nat :=
  c.call.toList.length + (5 - c.stage) + c.unread

namespace Server

/-- Only the first message of a channel is empty. -/
theorem DeliveryInv.empty_first {s : Server} {tr : List Signalling.Event} (h : DeliveryInv tr s)
    {c n : Nat} (hn : (s.signalWire c)[n]? = some ⟨none⟩) : n = 0 := by
  unfold signalWire at hn
  cases hsc : s.channels[c]? with
  | none => simp [hsc] at hn
  | some sc =>
    rw [hsc, Option.elim_some] at hn
    have hitem : sc.channel.items[n]? = some ⟨none⟩ := by
      rw [Channel.items, List.getElem?_append_left (List.getElem?_eq_some_iff.mp hn).1, hn]
    cases n with
    | zero => rfl
    | succ n =>
      rw [h.items c sc hsc, List.getElem?_cons_succ, List.getElem?_map] at hitem
      simp at hitem

end Server

namespace Peer

variable {codecs : Codecs A O C} {p : Peer A O C}

/-- The futures of callbacks owe nothing. -/
theorem unread_called {tasks : List (Task A O C)} (h : ∀ task ∈ tasks, task.isCallback = true) :
    (tasks.map Task.unread).sum = 0 := by
  rw [List.sum_eq_zero_iff]
  intro n hn
  obtain ⟨task, ht, rfl⟩ := List.mem_map.mp hn
  exact Task.unread_callback (h task ht)

/-- A future that is taken out takes with it what it owes. -/
theorem unread_eraseIdx {i : Nat} {task : Task A O C} (hi : p.unorderedFuts[i]? = some task) :
    (p.unorderedFuts.map Task.unread).sum =
      task.unread + ((p.unorderedFuts.eraseIdx i).map Task.unread).sum := by
  rw [((futs_perm hi).map Task.unread).sum_eq, List.map_cons, List.sum_cons]

/-- An input consumes a state, takes something from what is owed, or answers a request. -/
theorem Acts.unread {input : Input A O C} {out : Outcome A O C} (h : p.Acts codecs input out)
    (hskip : ∀ i slot listener, input = .signalMessage i (.ok (some ⟨none⟩)) →
      p.unorderedFuts[i]? = some (.signalListener slot listener) → listener.taken = 0)
    (hok : ∀ i e, input ≠ .callback i (.error e)) :
    (out.peer.unorderedFuts.map Task.unread).sum + 1 ≤
        (p.unorderedFuts.map Task.unread).sum + out.consumed.toList.length ∨
      ∃ response, input = .response response ∧
        (out.peer.unorderedFuts.map Task.unread).sum = (p.unorderedFuts.map Task.unread).sum := by
  have hmessage {i : Nat} {task task' : Task A O C} (hi : p.unorderedFuts[i]? = some task)
      (h : task.unread = 2) (h' : task'.unread = 1) :
      ((p.unorderedFuts.set i task').map Task.unread).sum + 1 ≤
        (p.unorderedFuts.map Task.unread).sum := by
    have hset := sum_map_set Task.unread hi task'
    omega
  cases h with
  | @skipOffer i listener _ hi =>
    have htaken := hskip i .offer listener rfl hi
    exact Or.inl (hmessage hi (if_pos htaken) (Task.unread_message .offer listener))
  | @skipAnswer i listener _ hi =>
    have htaken := hskip i .answer listener rfl hi
    exact Or.inl (hmessage hi (if_pos htaken) (Task.unread_message .answer listener))
  | @fail i task _ e _ hi hb =>
    have hpos : 0 < task.unread := by
      cases hb with
      | callback _ => exact absurd rfl (hok _ _)
      | _ =>
        simp only [Task.unread]
        split <;> omega
    have herase := unread_eraseIdx hi
    refine Or.inl ?_
    simp only [Option.toList_none, List.length_nil]
    omega
  | @complete i task _ state hidle hi hc =>
    have hacts : p.Acts codecs _ _ := .complete hidle hi hc
    have hcalled := unread_called fun task ht => hacts.called ht
    obtain ⟨_, _, hfuts, hcons⟩ := step_spec codecs
      { p with unorderedFuts := p.unorderedFuts.eraseIdx i } hidle state
    have herase := unread_eraseIdx hi
    have hrelisten : (state.relisten.toList.map Task.unread).sum ≤ task.unread := by
      cases hc with
      | callback _ hyield => simp [Task.relisten_of_yields hyield]
      | _ =>
        simp only [SignallingState.relisten, Option.toList_some, List.map_singleton,
          List.sum_singleton, Task.unread, Streaming.message]
        rw [if_neg (Nat.succ_ne_zero _)]
        split <;> omega
    refine Or.inl ?_
    rw [hfuts, hcons]
    simp only [List.map_append, List.sum_append, Option.toList_some, List.length_singleton]
    omega
  | @resume response _ h =>
    have hacts : p.Acts codecs _ _ := .resume h
    have hcalled := unread_called fun task ht => hacts.called ht
    obtain ⟨_, _, hfuts, _⟩ := (resume_resumes h).spec
    refine Or.inr ⟨response, rfl, ?_⟩
    rw [hfuts, List.map_append, List.sum_append,
      hcalled, Nat.add_zero]

end Peer

namespace System

variable {codecs : Codecs A O C} {tr evs : List (Event ι A O C)} {s t : System ι A O C}
  {a : Action ι A O C} {j : ι}

/-- What a client consumes and requests. -/
def traffic (j : ι) (tr : List (Event ι A O C)) : Nat :=
  tr.countP (Event.Consumes j fun _ => true) + tr.countP (Event.Requests j fun _ => true)

@[simp] theorem traffic_append (j : ι) (tr evs : List (Event ι A O C)) :
    traffic j (tr ++ evs) = traffic j tr + traffic j evs := by
  simp only [traffic, List.countP_append]
  omega

variable [Fintype ι]

/-- What all clients owe. -/
def debt (s : System ι A O C) : Nat := ∑ j, (s.clients j).debt

/-- What has been earned: what the clients owe at first, the work of the server, and what the
clients have consumed and requested. -/
def credit (tr : List (Event ι A O C)) (s : System ι A O C) : Nat :=
  11 * Fintype.card ι + s.server.work + ∑ j, traffic j tr

/-- A client's step is paid for where the client pays for it. -/
theorem paid_of_client {c : Client A O C} (hclients : t.clients = Function.update s.clients j c)
    (hwork : s.server.work ≤ t.server.work)
    (hpays : c.debt + 1 ≤ (s.clients j).debt + traffic j evs) :
    debt t + 1 + credit tr s ≤ credit (tr ++ evs) t + debt s := by
  have hdebt : debt t + (s.clients j).debt = debt s + c.debt := by
    rw [debt, hclients]
    exact sum_update Client.debt s.clients j c
  have htraffic : traffic j evs ≤ ∑ i, traffic i evs :=
    Finset.single_le_sum (f := fun i => traffic i evs) (fun _ _ => Nat.zero_le _)
      (Finset.mem_univ j)
  simp only [credit, traffic_append, Finset.sum_add_distrib]
  omega

/-- Every step of a faultless run is paid for. -/
theorem Moves.paid (hm : Moves codecs s a (t, evs)) (ha : s.Faultless a)
    (hdel : Server.DeliveryInv (serverTrace tr) s.server) :
    debt t + 1 + credit tr s ≤ credit (tr ++ evs) t + debt s := by
  generalize hout : (t, evs) = out at hm
  cases hm with
  | @server b t' evs' hb =>
    rw [Prod.mk.injEq] at hout
    obtain ⟨rfl, rfl⟩ := hout
    have hwork : s.server.work < t'.work := by
      rcases (Server.step_moves hb).works ha.2 with ⟨request, rfl, _⟩ | hwork
      · exact absurd ha.1.1 (by simp [Action.outside])
      · exact hwork
    simp only [credit, debt, traffic_append, Finset.sum_add_distrib]
    omega
  | @start j hj | @advertised j _ _ hj _ | @peerListener j _ _ _ hj _
  | @offerListener j _ _ _ _ hj _ =>
    rw [send, Prod.mk.injEq] at hout
    obtain ⟨rfl, rfl⟩ := hout
    refine paid_of_client (j := j) rfl (by simp [Server.receive, Server.work, Phase.rank]) ?_
    rw [hj]
    simp [Client.debt, Client.call, Client.stage, Client.unread, traffic, Event.Consumes,
      Event.Requests]
  | @answerListener j _ _ _ _ _ hj _ =>
    rw [put, Prod.mk.injEq] at hout
    obtain ⟨rfl, rfl⟩ := hout
    refine paid_of_client (j := j) rfl le_rfl ?_
    rw [hj]
    simp only [Client.debt, Client.call, Client.stage, Client.unread, Peer.new, Task.unread,
      List.map_cons, List.map_nil, List.sum_cons, List.sum_nil, if_true, Option.toList_some,
      Option.toList_none, List.length_singleton, List.length_nil]
    omega
  | @giveUp j k status _ hst hk _ =>
    rw [put, Prod.mk.injEq] at hout
    obtain ⟨rfl, rfl⟩ := hout
    refine paid_of_client (j := j) rfl le_rfl ?_
    cases hc : s.clients j <;> simp [hc, Client.starting] at hst <;>
      simp [Client.debt, Client.call, Client.stage, Client.unread] <;> omega
  | close _ => simp [Faultless, Action.faulty] at ha
  | @closed j p k _ response hj _ =>
    rw [put, Prod.mk.injEq] at hout
    obtain ⟨rfl, rfl⟩ := hout
    refine paid_of_client (j := j) rfl le_rfl ?_
    rw [hj]
    simp [Client.debt, Client.call, Client.stage, Client.unread]
  | @act j p call _ input o hj hh hacts =>
    have hevents := hout
    rw [apply_eq, Prod.mk.injEq] at hout
    obtain ⟨rfl, hevs⟩ := hout
    obtain ⟨_, hconsumes, hrequests⟩ := countP_apply s j o
    have htraffic : traffic j evs = o.consumed.toList.length + o.request.toList.length := by
      rw [← congrArg Prod.snd hevents] at hconsumes hrequests
      rw [traffic, hconsumes, hrequests, List.countP_true, List.countP_true]
    refine paid_of_client (j := j) rfl ?_ ?_
    · cases o.request <;> simp [Server.receive, Server.work, Phase.rank]
    · have hskip : ∀ i slot listener, input = .signalMessage i (.ok (some ⟨none⟩)) →
          p.unorderedFuts[i]? = some (.signalListener slot listener) → listener.taken = 0 := by
        rintro i slot listener rfl hi
        exact hdel.empty_first (hh.signal_message hi)
      have hok : ∀ i e, input ≠ .callback i (.error e) := by
        rintro i e rfl
        cases hh
        exact absurd ha.2 (by simp [Action.faulty])
      have hrequest : (o.request.map fun _ => s.server.calls.length).toList.length =
          o.request.toList.length := by
        cases o.request <;> rfl
      rw [htraffic, hj]
      simp only [Client.debt, Client.call, Client.stage, Client.unread]
      rcases hacts.unread hskip hok with hpaid | ⟨response, rfl, hsame⟩
      · omega
      · have hcall : call.toList.length = 1 := by
          cases hh with
          | response hk _ | failure hk =>
            rw [hk]
            rfl
        omega

section

variable (hr : (system ι codecs).Run Faultless tr s) (hn : allocations (serverTrace tr) < 2 ^ 64)
  (hanswer : codecs.answer.Inverts) (hoffer : codecs.offer.Inverts)
  (hcandidates : codecs.candidates.Inverts)

include hr hn hanswer hoffer hcandidates

/-- What all clients consume and request. -/
theorem traffic_le (j : ι) : traffic j tr ≤ 17 * Fintype.card ι + 6 := by
  have hconsumed := consumed_le hr hn hanswer hoffer hcandidates j
  have hrequested := requests_le hr hn hanswer hoffer hcandidates j
  have hcard := allocations_le_card (honest hr)
  rw [traffic]
  omega

/-- The work of the server grows with the square of the number of clients. -/
theorem work_le : s.server.work ≤
    Fintype.card ι * (4 * (6 * Fintype.card ι + 5) + (Fintype.card ι + 1)) := by
  have hcard := allocations_le_card (honest hr)
  have hcalls : s.server.calls.length ≤ Fintype.card ι * (6 * Fintype.card ι + 5) := by
    have hle := countP_calls_le (honest hr) fun _ => true
    rw [List.countP_true] at hle
    refine hle.trans ((Finset.sum_le_card_nsmul _ _ (6 * Fintype.card ι + 5) fun j _ => ?_).trans
      (by simp))
    have hrequests := requests_le hr hn hanswer hoffer hcandidates j
    omega
  have hsubscribed : s.server.calls.countP Call.subscribed ≤ Fintype.card ι := by
    refine (List.countP_mono_left fun c _ hc => ?_).trans
      ((countP_calls_le (honest hr) fun r => decide (r.stage = 2)).trans
        ((Finset.sum_le_card_nsmul _ _ 1 fun j _ => ?_).trans (by simp)))
    · unfold Call.subscribed at hc
      split at hc
      · rfl
      · simp at hc
    · refine (started_once hr j (by decide)).trans ?_
      split <;> omega
  have hlog : (changeLog (serverTrace tr)).length ≤ Fintype.card ι := by
    have hchanges := changes_le_allocations hr
    omega
  calc s.server.work
      ≤ 4 * s.server.calls.length +
          s.server.calls.countP Call.subscribed * ((changeLog (serverTrace tr)).length + 1) :=
        Server.work_le (freeRun hr)
    _ ≤ 4 * (Fintype.card ι * (6 * Fintype.card ι + 5)) +
          Fintype.card ι * (Fintype.card ι + 1) := by gcongr
    _ = Fintype.card ι * (4 * (6 * Fintype.card ι + 5) + (Fintype.card ι + 1)) := by ring

/-- All that can be earned grows with the square of the number of clients. -/
theorem credit_le : credit tr s ≤ 42 * Fintype.card ι ^ 2 + 38 * Fintype.card ι := by
  have hwork := work_le hr hn hanswer hoffer hcandidates
  have htraffic : (∑ j, traffic j tr) ≤ Fintype.card ι * (17 * Fintype.card ι + 6) :=
    (Finset.sum_le_card_nsmul _ _ _ fun j _ =>
      traffic_le hr hn hanswer hoffer hcandidates j).trans (by simp)
  calc credit tr s
      ≤ 11 * Fintype.card ι +
          Fintype.card ι * (4 * (6 * Fintype.card ι + 5) + (Fintype.card ι + 1)) +
          Fintype.card ι * (17 * Fintype.card ι + 6) := by
        rw [credit]
        gcongr
    _ = 42 * Fintype.card ι ^ 2 + 38 * Fintype.card ι := by ring

end

/-- No more identifiers are drawn than there are clients. -/
theorem allocations_small (hr : (system ι codecs).Run Faultless tr s)
    (hcard : Fintype.card ι < 2 ^ 64) : allocations (serverTrace tr) < 2 ^ 64 :=
  lt_of_le_of_lt (allocations_le_card (honest hr)) hcard

/-- The steps of a faultless run, and what is still owed, have been earned. -/
theorem length_le_credit
    {xs : List (Machine.Transition (System ι A O C) (Action ι A O C) (Event ι A O C))}
    (hr : (system ι codecs).recorded.Run Faultless xs s) (hcard : Fintype.card ι < 2 ^ 64) :
    xs.length + debt s ≤ credit (Machine.trace xs) s := by
  refine hr.paid ?_ fun {tr s a t evs} hr ha hs => ?_
  · have hdebt : debt (system ι codecs).init = 11 * Fintype.card ι := by
      simp [debt, system, Client.debt, Client.call, Client.stage, Client.unread, mul_comm]
    rw [hdebt, credit]
    omega
  · have hn := allocations_small hr hcard
    exact (step_moves hs).paid ha (Server.deliveryInv (freeRun hr) hn).2

/-- Faultless runs end: no faultless run of `n` clients has more than `42 * n ^ 2 + 38 * n`
steps. -/
theorem runs_end {xs : List (Machine.Transition (System ι A O C) (Action ι A O C) (Event ι A O C))}
    (hr : (system ι codecs).recorded.Run Faultless xs s) (hcard : Fintype.card ι < 2 ^ 64)
    (hanswer : codecs.answer.Inverts) (hoffer : codecs.offer.Inverts)
    (hcandidates : codecs.candidates.Inverts) :
    xs.length ≤ 42 * Fintype.card ι ^ 2 + 38 * Fintype.card ι :=
  ((Nat.le_add_right _ _).trans (length_le_credit hr hcard)).trans
    (credit_le hr.forget (allocations_small hr.forget hcard) hanswer hoffer hcandidates)

/-- Two clients that start one after the other take 28 steps until the first knows the second. -/
theorem runs_end_two : ∃ xs s, (system Bool Codecs.unit).recorded.Run Faultless xs s ∧
    xs.length = 28 ∧ xs.length ≤ 42 * Fintype.card Bool ^ 2 + 38 * Fintype.card Bool := by
  obtain ⟨xs, s, hr, hc⟩ := (system Bool Codecs.unit).recorded.exec_reaches Faultless
    (Action.starting true 0 [] ++ Action.starting false 4 [0] ++
      [.server (.pollPeerStream 0), .listen true 0, .server (.pollPeerStream 0), .listen true 2])
    (fun c => decide (c.2.length = 28)) (by decide +kernel)
  exact ⟨xs, s, hr, of_decide_eq_true hc,
    runs_end hr (by simp) (fun _ _ _ => rfl) (fun _ _ _ => rfl) fun _ _ _ => rfl⟩

end System

end JustWebrtc.Signalling
