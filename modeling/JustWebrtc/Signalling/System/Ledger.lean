import JustWebrtc.Signalling.Client.Signals
import JustWebrtc.Signalling.System.Clients

/-!
# A ledger of callbacks

How often a client calls callbacks, consumes their results and sends signals is counted over
the trace. An input to a peer settles what it adds to one count with what it adds to another
or with what it takes from the peer, so each count is bounded by the next one.
-/

namespace JustWebrtc.Signalling

variable {ι A O C : Type*} [DecidableEq ι]

/-- The request carries a signal. -/
def Request.isSignal : Request → Bool
  | .signal _ _ _ => true
  | _ => false

namespace System

/-- Client `j` calls such a callback. -/
def Event.Calls (j : ι) (P : Task A O C → Bool) : Event ι A O C → Bool
  | .called i task => decide (i = j) && P task
  | _ => false

/-- Client `j` consumes such a state. -/
def Event.Consumes (j : ι) (Q : SignallingState A O C → Bool) : Event ι A O C → Bool
  | .consumed i state => decide (i = j) && Q state
  | _ => false

/-- Client `j` sends such a request. -/
def Event.Requests (j : ι) (R : Request → Bool) : Event ι A O C → Bool
  | .requested i _ request => decide (i = j) && R request
  | _ => false

/-- An input to the peer of client `j` records the event. -/
def Event.ofPeer (j : ι) : Event ι A O C → Bool
  | .called i _ | .consumed i _ => decide (i = j)
  | .requested i _ request => decide (i = j) && request.isSignal
  | _ => false

variable {codecs : Codecs A O C} {tr evs : List (Event ι A O C)} {s t : System ι A O C}
  {a : Action ι A O C} {j : ι}

/-- What an outcome adds to each count. -/
theorem countP_apply (s : System ι A O C) (j : ι) (out : Outcome A O C) :
    (∀ P, (s.apply j out).2.countP (Event.Calls j P) = out.called.countP P) ∧
      (∀ Q, (s.apply j out).2.countP (Event.Consumes j Q) = out.consumed.toList.countP Q) ∧
      ∀ R, (s.apply j out).2.countP (Event.Requests j R) = out.request.toList.countP R := by
  have hcalled (P : Task A O C → Bool) :
      (out.called.map (Event.called j)).countP (Event.Calls j P) = out.called.countP P := by
    rw [List.countP_map]
    congr 1
    funext task
    simp [Event.Calls]
  rw [apply_eq]
  refine ⟨fun P => ?_, fun Q => ?_, fun R => ?_⟩
  · simp only [eventsOf, List.countP_append, hcalled]
    cases out.consumed <;> cases out.request <;> simp [Event.Calls]
  · simp only [eventsOf, List.countP_append, List.countP_map]
    cases out.consumed <;> cases out.request <;> simp [Event.Consumes, List.countP_cons]
  · simp only [eventsOf, List.countP_append, List.countP_map]
    cases out.consumed <;> cases out.request <;> simp [Event.Requests, List.countP_cons]

/-- A step is an input to the running peer of client `j`, or it records nothing of the kind and
the peer stays as it is or is new. -/
theorem Moves.peer_cases {out : System ι A O C × List (Event ι A O C)}
    (hm : Moves codecs s a out) (j : ι) :
    (∃ p call input o, s.clients j = .running p call ∧ Hears s j p call a input ∧
        p.Acts codecs input o ∧ out = s.apply j o) ∨
      ((∀ e ∈ out.2, e.ofPeer j = false) ∧
        ((out.1.clients j).peer? = (s.clients j).peer? ∨
          ((s.clients j).peer? = none ∧ ∃ id i c c',
            (out.1.clients j).peer? = some (Peer.new id i c c')))) := by
  by_cases hown : a.client = some j
  · cases hm with
    | server _ => simp [Action.client] at hown
    | @act j' p call _ input o hj hh ha =>
      obtain rfl : j' = j := by
        rw [hh.client] at hown
        exact Option.some.inj hown
      exact Or.inl ⟨p, call, input, o, hj, hh, ha, rfl⟩
    | @start j' hj | @advertised j' _ _ hj _ | @peerListener j' _ _ _ hj _
    | @offerListener j' _ _ _ _ hj _ | @close j' _ hj =>
      obtain rfl : j' = j := Option.some.inj hown
      refine Or.inr ⟨?_, Or.inl ?_⟩
      · simp [send, Event.ofPeer, Request.isSignal]
      · simp [send, hj, Client.peer?]
    | @answerListener j' id i c k c' hj _ =>
      obtain rfl : j' = j := Option.some.inj hown
      refine Or.inr ⟨by simp [put], Or.inr ⟨by simp [hj, Client.peer?], id, i, c, c', ?_⟩⟩
      simp [put, Client.peer?]
    | @giveUp j' k status _ hst _ ha =>
      obtain rfl : j' = j := by
        rcases ha with rfl | ⟨rfl, _⟩ <;> exact Option.some.inj hown
      refine Or.inr ⟨by simp [put], Or.inl ?_⟩
      cases hc : s.clients j' <;> simp [hc, Client.starting] at hst <;> simp [put, Client.peer?]
    | @closed j' p k _ response hj ha =>
      obtain rfl : j' = j := by
        rcases ha with rfl | rfl <;> exact Option.some.inj hown
      exact Or.inr ⟨by simp [put], Or.inl (by simp [put, hj, Client.peer?])⟩
  · obtain ⟨hc, he⟩ := hm.others hown
    refine Or.inr ⟨fun e hmem => ?_, Or.inl (by rw [hc])⟩
    have hne := he e hmem
    cases e <;> simp_all [Event.client, Event.ofPeer]

omit [DecidableEq ι] in
/-- What an honest callback's future completes with. -/
theorem Honest.input {p : Peer A O C} {call : Option Nat} {input : Input A O C} (h : s.Honest a)
    (hj : s.clients j = .running p call) (hh : Hears s j p call a input) : input.Honest p := by
  cases hh with
  | @callback i result =>
    cases result with
    | error e => exact trivial
    | ok state => exact fun task ht => h.2 (j, i, state) rfl p (by rw [hj]; rfl) task ht
  | response _ _ => exact trivial
  | _ => exact trivial

/-- The counting rule. Where every input to the peer of client `j` pays for its `f` events and for
what it adds to the measure of the peer with `g` events and what it takes from the measure, there
are at most as many `f` events as `g` events, less the measure. -/
theorem ledger {ok : System ι A O C → Action ι A O C → Prop} (hr : (system ι codecs).Run ok tr s)
    (j : ι) {f g : Event ι A O C → Bool} {m : Peer A O C → Nat}
    (hf : ∀ e, f e = true → e.ofPeer j = true) (hnew : ∀ id i c c', m (Peer.new id i c c') = 0)
    (hact : ∀ {s a p call input out}, ok s a → s.clients j = .running p call →
      Hears s j p call a input → p.Acts codecs input out →
      (s.apply j out).2.countP f + m out.peer ≤ m p + (s.apply j out).2.countP g) :
    tr.countP f + (s.clients j).peer?.elim 0 m ≤ tr.countP g := by
  refine hr.invariant (I := fun tr s => tr.countP f + (s.clients j).peer?.elim 0 m ≤ tr.countP g)
    ?_ ?_
  · simp [system, Client.peer?]
  · intro tr s a t evs _ h ha hs
    have hm : Moves codecs s a (t, evs) := step_moves hs
    rw [List.countP_append, List.countP_append]
    rcases hm.peer_cases j with ⟨p, call, input, o, hj, hh, hacts, heq⟩ | ⟨he, hp⟩
    · rw [Prod.mk.injEq] at heq
      obtain ⟨rfl, rfl⟩ := heq
      have hstep := hact ha hj hh hacts
      rw [hj] at h
      rw [clients_apply]
      simp only [Client.peer?, Option.elim_some] at h ⊢
      omega
    · have hzero : evs.countP f = 0 := by
        rw [List.countP_eq_zero]
        intro e hmem hfe
        exact absurd (hf e hfe) (by simp [he e hmem])
      rcases hp with hp | ⟨hnone, id, i, c, c', hp⟩
      · rw [hp]
        omega
      · rw [hnone] at h
        rw [hp, Option.elim_some, hnew]
        simp only [Option.elim_none] at h
        omega

/-- Callbacks complete at most as often as they have been called, less those still queued. -/
theorem consumed_le_called (hr : (system ι codecs).Run Honest tr s) (j : ι)
    {P : Task A O C → Bool} {Q : SignallingState A O C → Bool}
    (hP : ∀ task, P task = true → task.isCallback = true)
    (hlisten : ∀ state, Q state = true → state.relisten = none)
    (hQ : ∀ task state, task.yields state = true → state.remoteId = task.remoteId →
      Q state = true → P task = true) :
    tr.countP (Event.Consumes j Q) +
        (s.clients j).peer?.elim 0 (fun p => p.unorderedFuts.countP P) ≤
      tr.countP (Event.Calls j P) := by
  refine ledger hr j (fun e he => ?_) (fun id i c c' => ?_) ?_
  · cases e <;> simp_all [Event.Consumes, Event.ofPeer]
  · rw [List.countP_eq_zero]
    intro task ht hp
    have hc := hP task hp
    simp only [Peer.new, List.mem_cons, List.not_mem_nil, or_false] at ht
    rcases ht with rfl | rfl | rfl <;> simp [Task.isCallback] at hc
  · intro s a p call input out ha hj hh hacts
    obtain ⟨hcalls, hconsumes, _⟩ := countP_apply s j out
    rw [hcalls, hconsumes]
    exact hacts.ledger (ha.input hj hh) hP hlisten hQ

/-- A signal is sent only for a description that a callback has returned. -/
theorem requested_le_consumed {ok : System ι A O C → Action ι A O C → Prop}
    (hr : (system ι codecs).Run ok tr s) (hanswer : codecs.answer.Inverts)
    (hoffer : codecs.offer.Inverts) (hcandidates : codecs.candidates.Inverts) (j : ι)
    {R : Request → Bool} {Q : SignallingState A O C → Bool}
    (hR : ∀ request, R request = true → request.isSignal = true)
    (hQ : ∀ slot state sig task, R (.signal slot state.remoteId (some sig)) = true →
      state.relayed sig.sender = some task → codecs.received slot sig = some task →
      Q state = true) :
    tr.countP (Event.Requests j R) ≤ tr.countP (Event.Consumes j Q) := by
  refine (Nat.le_add_right _ _).trans
    (ledger hr j (m := fun _ => 0) (fun e he => ?_) (fun _ _ _ _ => rfl) ?_)
  · cases e with
    | requested i k request =>
      simp only [Event.Requests, Bool.and_eq_true] at he
      simp [Event.ofPeer, he.1, hR request he.2]
    | _ => simp [Event.Requests] at he
  · intro s a p call input out _ _ _ hacts
    obtain ⟨_, hconsumes, hrequests⟩ := countP_apply s j out
    rw [hconsumes, hrequests]
    cases hreq : out.request with
    | none => simp
    | some request =>
      by_cases hRr : R request = true
      · cases request with
        | signal slot remotePeer signal =>
          obtain ⟨state, task, sig, hcons, rfl, rfl, hsender, hrelay, hrec⟩ :=
            hacts.sends hanswer hoffer hcandidates hreq
          rw [← hsender] at hrelay
          simp [hcons, hRr, hQ slot state sig task hRr hrelay hrec]
        | _ => simpa [Request.isSignal] using hR _ hRr
      · simp [hRr]

/-- A local signalling completion is called only for an answer that has been received. -/
theorem localSigCplt_le_consumed {ok : System ι A O C → Action ι A O C → Prop}
    (hr : (system ι codecs).Run ok tr s) (j : ι) {P : Task A O C → Bool}
    {Q : SignallingState A O C → Bool}
    (hP : ∀ task, P task = true → ∃ x, task = .localSigCplt x)
    (hQ : ∀ x, P (.localSigCplt x) = true → Q (.receiveAnswer x) = true) :
    tr.countP (Event.Calls j P) ≤ tr.countP (Event.Consumes j Q) := by
  have hno {task : Task A O C} (ht : ∀ x, task ≠ .localSigCplt x) : ¬ P task = true := fun hp => by
    obtain ⟨x, hx⟩ := hP task hp
    exact ht x hx
  refine (Nat.le_add_right _ _).trans
    (ledger hr j (m := fun _ => 0) (fun e he => ?_) (fun _ _ _ _ => rfl) ?_)
  · cases e <;> simp_all [Event.Calls, Event.ofPeer]
  · intro s a p call input out _ _ _ hacts
    obtain ⟨hcalls, hconsumes, _⟩ := countP_apply s j out
    rw [hcalls, hconsumes]
    rcases hacts.called_cases with h | ⟨_, _, _, _, task, _, _, hrec, hc⟩ |
      ⟨_, x, _, _, _, _, hc, hcons⟩ | ⟨x, _, _, hc, _⟩
    · rw [List.countP_eq_zero.mpr]
      · simp
      · intro task ht
        obtain ⟨id, rfl⟩ := h task ht
        exact hno (by simp)
    · have hslot := (Codecs.received_spec hrec).1
      have hnot : ¬ P task = true := hno fun x hx => by simp [hx, Task.slot] at hslot
      simp [hc, hnot]
    · rw [hc, hcons]
      by_cases hp : P (.localSigCplt x) = true
      · simp [hp, hQ x hp]
      · simp [hp]
    · rw [hc, List.countP_cons_of_neg (hno (by simp))]
      exact Nat.zero_le _

/-- Whether the step of the peer is about to call such a completion for a signalled answer. -/
def answering (P : Task A O C → Bool) (p : Peer A O C) : Nat :=
  match p.progress with
  | .signallingAnswer x => if P (.remoteSigCplt x) then 1 else 0
  | _ => 0

/-- A remote signalling completion is called only for an answer that has been sent. -/
theorem remoteSigCplt_le_requested {ok : System ι A O C → Action ι A O C → Prop}
    (hr : (system ι codecs).Run ok tr s) (j : ι) {P : Task A O C → Bool} {R : Request → Bool}
    (hP : ∀ task, P task = true → ∃ x, task = .remoteSigCplt x)
    (hR : ∀ x sig, P (.remoteSigCplt x) = true → R (.signalAnswer (some x) (some sig)) = true) :
    tr.countP (Event.Calls j P) + (s.clients j).peer?.elim 0 (answering P) ≤
      tr.countP (Event.Requests j R) := by
  have hno {task : Task A O C} (ht : ∀ x, task ≠ .remoteSigCplt x) : ¬ P task = true :=
    fun hp => by
      obtain ⟨x, hx⟩ := hP task hp
      exact ht x hx
  refine ledger hr j (fun e he => ?_) (fun _ _ _ _ => rfl) ?_
  · cases e <;> simp_all [Event.Calls, Event.ofPeer]
  · intro s a p call input out _ _ _ hacts
    obtain ⟨hcalls, _, hrequests⟩ := countP_apply s j out
    rw [hcalls, hrequests]
    have hsent : answering P out.peer ≤ out.request.toList.countP R := by
      have hset := hacts.spec.2
      unfold answering Outcome.Settled at *
      cases hprog : out.peer.progress with
      | signallingAnswer x =>
        by_cases hp : P (.remoteSigCplt x) = true
        · split at hset
          · rw [hprog] at hset
            simp at hset
          · rename_i request hreq
            rw [hprog] at hset
            obtain ⟨sig, rfl, _⟩ := hset
            simp [hreq, hR x sig hp, hp]
        · simp [hp]
      | _ => simp
    rcases hacts.called_cases with h | ⟨_, _, _, _, task, _, _, hrec, hc⟩ |
      ⟨_, x, _, _, _, _, hc, _⟩ | ⟨x, _, hprog, hc, hidle⟩
    · rw [List.countP_eq_zero.mpr]
      · omega
      · intro task ht
        obtain ⟨id, rfl⟩ := h task ht
        exact hno (by simp)
    · have hslot := (Codecs.received_spec hrec).1
      have hnot : ¬ P task = true := hno fun x hx => by simp [hx, Task.slot] at hslot
      rw [hc, List.countP_cons_of_neg hnot, List.countP_nil]
      omega
    · rw [hc, List.countP_cons_of_neg (hno (by simp)), List.countP_nil]
      omega
    · simp [hc, answering, hprog, hidle, List.countP_cons]

end System

end JustWebrtc.Signalling
