import JustWebrtc.Example.Entries

/-!
# Pairing of connections

While an example peer runs, every entry of its map is at one of the stages of the signalling. So
the map fails only where two peers have offered to each other, and two connections that are
monitored for each other have been given each other's descriptions.
-/

namespace JustWebrtc.Example

open Connection (SessionDescription ICECandidate)
open Signalling
open Signalling.System (Done serverTrace)

variable {ι : Type*} [DecidableEq ι]

/-- The connection that a client starts to monitor for a remote peer. -/
def Event.monitors (j : ι) (callback : Callback) (r : Id) : Event ι → Option PeerConnection
  | .app j' (.monitored callback' r' c) =>
    if j' = j ∧ callback' = callback ∧ r' = r then some c else none
  | _ => none

/-- The connections that a client has monitored for a remote peer. -/
def monitored (tr : List (Event ι)) (j : ι) (callback : Callback) (r : Id) :
    List PeerConnection :=
  tr.filterMap (Event.monitors j callback r)

theorem mem_monitored {tr : List (Event ι)} {j : ι} {callback : Callback} {r : Id}
    {c : PeerConnection} :
    c ∈ monitored tr j callback r ↔ .app j (.monitored callback r c) ∈ tr := by
  rw [monitored, List.mem_filterMap]
  constructor
  · rintro ⟨e, hm, he⟩
    unfold Event.monitors at he
    split at he
    · rw [Option.ite_none_right_eq_some, Option.some.injEq] at he
      obtain ⟨⟨rfl, rfl, rfl⟩, rfl⟩ := he
      exact hm
    · simp at he
  · intro hm
    exact ⟨_, hm, by simp [Event.monitors]⟩

/-- The failure of a callback of a client for a remote peer. -/
def Event.failsWith (j : ι) (callback : Callback) (r : Id) (e : Error) : Event ι → Bool
  | .app j' (.failed callback' r' e') => j' = j ∧ callback' = callback ∧ r' = r ∧ e' = e
  | _ => false

theorem mem_failed {tr : List (Event ι)} {j : ι} {callback : Callback} {r : Id} {e : Error} :
    0 < tr.countP (Event.failsWith j callback r e) ↔ .app j (.failed callback r e) ∈ tr := by
  rw [List.countP_pos_iff]
  constructor
  · rintro ⟨e', hm, he⟩
    unfold Event.failsWith at he
    split at he
    · obtain ⟨rfl, rfl, rfl, rfl⟩ := of_decide_eq_true he
      exact hm
    · simp at he
  · intro hm
    exact ⟨_, hm, by simp [Event.failsWith]⟩

namespace Peers

variable {codecs : Bincode} {s t : Peers ι} {tr evs : List (Event ι)}

/-- What was recorded of the futures of callbacks has its causes. -/
structure Recorded (tr : Trace ι) (evs : List (Event ι)) : Prop where
  monitored : ∀ j callback r c, .app j (.monitored callback r c) ∈ evs →
    callback = .localSigCplt ∧ c.Links tr j r ∨ callback = .remoteSigCplt ∧ c.Accepts tr j r
  failed : ∀ j callback r e, .app j (.failed callback r e) ∈ evs → e.ofMap = true →
    e = .preExistingPeerId ∧ ∃ task, System.Event.called j task ∈ tr ∧
      task.callback = some (callback, r) ∧
      (callback = .createOffer ∧ Done tr j (.receiveOffer, r) ∨
        callback = .receiveOffer ∧ Done tr j (.createOffer, r))

/-- What holds of the maps of the peers that have not stopped, and of what was recorded. -/
structure Inv (tr : List (Event ι)) (s : Peers ι) : Prop where
  entries : ∀ j, (s.apps j).stopped = false → ∀ r, Entry (signals tr) j r ((s.apps j).view r)
  exclusive : ∀ j r,
    ¬ (Done (signals tr) j (.createOffer, r) ∧ Done (signals tr) j (.receiveOffer, r))
  recorded : Recorded (signals tr) tr

section

variable {past new : Trace ι}

omit [DecidableEq ι] in
/-- Recorded events keep their causes. -/
theorem Recorded.mono (h : Recorded past evs) : Recorded (past ++ new) evs := by
  refine ⟨fun j callback r c hm => ?_, fun j callback r e hm hmap => ?_⟩
  · exact (h.monitored j callback r c hm).imp (fun hc => ⟨hc.1, hc.2.mono⟩)
      fun hc => ⟨hc.1, hc.2.mono⟩
  · obtain ⟨he, task, hcalled, hkey, hcause⟩ := h.failed j callback r e hm hmap
    exact ⟨he, task, List.mem_append_left _ hcalled, hkey,
      hcause.imp (fun hd => ⟨hd.1, hd.2.mono⟩) fun hd => ⟨hd.1, hd.2.mono⟩⟩

omit [DecidableEq ι] in
theorem Recorded.append (h : Recorded past tr) (h' : Recorded past evs) :
    Recorded past (tr ++ evs) where
  monitored j callback r c hm := (List.mem_append.mp hm).elim (h.monitored j callback r c)
    (h'.monitored j callback r c)
  failed j callback r e hm hmap := (List.mem_append.mp hm).elim
    (fun hm => h.failed j callback r e hm hmap) fun hm => h'.failed j callback r e hm hmap

omit [DecidableEq ι] in
/-- The signalling records nothing of the futures. -/
theorem Recorded.system : Recorded past (new.map Event.system) := by
  constructor <;> simp

omit [DecidableEq ι] in
/-- Where no callback completes, and a map stays as it is unless its peer stops, the invariant is
kept. -/
theorem Inv.frame (h : Inv tr s) (hsignals : signals (tr ++ evs) = signals tr ++ new)
    (hnone : ∀ j state, System.Event.consumed j state ∈ new → ∀ key, state.callback ≠ some key)
    (happs : ∀ j, t.apps j = s.apps j ∨ (t.apps j).stopped = true)
    (hrecorded : Recorded (signals tr) evs) : Inv (tr ++ evs) t := by
  refine ⟨fun j hstopped r => ?_, fun j r hboth => ?_, ?_⟩
  · rw [hsignals]
    rcases happs j with heq | hstop
    · rw [heq] at hstopped ⊢
      exact (h.entries j hstopped r).frame fun state hm callback => hnone j state hm _
    · simp [hstop] at hstopped
  · rw [hsignals] at hboth
    exact h.exclusive j r ⟨hboth.1.of_append fun state hm => hnone j state hm _,
      hboth.2.of_append fun state hm => hnone j state hm _⟩
  · rw [hsignals]
    exact (h.recorded.append hrecorded).mono

/-- Where nothing but a callback of one client for one remote peer completes, and only the entry of
that remote peer changes, the invariant is kept if it is for that entry. -/
theorem Inv.updated (h : Inv tr s) {j : ι} {r : Id} {app : App} {signalling : Signals ι}
    (hsignals : signals (tr ++ evs) = signals tr ++ new) (hstopped : (s.apps j).stopped = false)
    (hother : ∀ j' r', ¬ (j' = j ∧ r' = r) → ∀ state, System.Event.consumed j' state ∈ new →
      ∀ callback, state.callback ≠ some (callback, r'))
    (hviews : app.stopped = false → ∀ r', r' ≠ r → app.view r' = (s.apps j).view r')
    (hentry : app.stopped = false → Entry (signals tr ++ new) j r (app.view r))
    (hexclusive : ¬ (Done (signals tr ++ new) j (.createOffer, r) ∧
      Done (signals tr ++ new) j (.receiveOffer, r)))
    (hrecorded : Recorded (signals tr) evs) :
    Inv (tr ++ evs) ⟨signalling, Function.update s.apps j app⟩ := by
  refine ⟨fun j' hstopped' r' => ?_, fun j' r' hboth => ?_, ?_⟩
  · rw [hsignals]
    by_cases hjj : j' = j
    · subst hjj
      simp only [Function.update_self] at hstopped' ⊢
      by_cases hrr : r' = r
      · subst hrr
        exact hentry hstopped'
      · rw [hviews hstopped' r' hrr]
        exact (h.entries j' hstopped r').frame (hother j' r' (by simp [hrr]))
    · simp only [Function.update_of_ne hjj] at hstopped' ⊢
      exact (h.entries j' hstopped' r').frame (hother j' r' (by simp [hjj]))
  · rw [hsignals] at hboth
    by_cases hsame : j' = j ∧ r' = r
    · obtain ⟨rfl, rfl⟩ := hsame
      exact hexclusive hboth
    · exact h.exclusive j' r' ⟨hboth.1.of_append fun state hm => hother j' r' hsame state hm _,
        hboth.2.of_append fun state hm => hother j' r' hsame state hm _⟩
  · rw [hsignals]
    exact (h.recorded.append hrecorded).mono

end

section

variable (hr : (peers ι codecs).Run Machine.Free tr s)
  (hn : allocations (serverTrace (signals tr)) < 2 ^ 64) (hanswer : codecs.answer.Inverts)
  (hoffer : codecs.offer.Inverts) (hcandidates : codecs.candidates.Inverts)

include hr hn hanswer hoffer hcandidates

theorem causes (j : ι) (r : Id) : Causes (signals tr) j r where
  created _ h := System.createOffer_done (signals_run hr) hn hanswer hoffer hcandidates h
  answered h := System.receiveAnswer_done (signals_run hr) h
  received h := System.receiveOffer_done (signals_run hr) hn hanswer hoffer hcandidates h
  called _ h := System.called_of_done (signals_run hr) h

section

variable {j : ι} {p : Peer SessionDescription SessionDescription (List ICECandidate)}
  {call : Option Nat} {task : Task SessionDescription SessionDescription (List ICECandidate)}

/-- A queued callback has been called and has not completed. -/
theorem queued (hj : s.signalling.clients j = .running p call) (ht : task ∈ p.unorderedFuts)
    (hcallback : task.isCallback = true) : ∃ callback r,
      task.callback = some (callback, r) ∧ System.Event.called j task ∈ signals tr ∧
        ¬ Done (signals tr) j (callback, r) := by
  have hrun := signals_run hr
  obtain ⟨⟨callback, r⟩, hkey⟩ : ∃ key, task.callback = some key := by
    cases task <;> simp_all [Task.callback, Task.isCallback]
  have hp : (s.signalling.clients j).peer? = some p := by rw [hj]; rfl
  exact ⟨callback, r, hkey, System.called_of_queued hrun hp ht hcallback,
    System.not_done_of_queued hrun hn hanswer hoffer hcandidates hp ht hkey⟩

/-- A poll that leaves the future pending keeps the invariant. -/
theorem Inv.pending (h : Inv tr s) {app : App} {events : List App.Event}
    (hstopped : (s.apps j).stopped = false) (hj : s.signalling.clients j = .running p call)
    (ht : task ∈ p.unorderedFuts) (hpolls : (s.apps j).Polls task ⟨app, none, events⟩) :
    Inv (tr ++ events.map (Event.app j)) { s with apps := Function.update s.apps j app } := by
  obtain ⟨callback, r, hkey, hcalled, hnot⟩ :=
    queued hr hn hanswer hoffer hcandidates hj ht hpolls.isCallback
  obtain ⟨hentry, hevents⟩ := (h.entries j hstopped r).pending
    (causes hr hn hanswer hoffer hcandidates j r) hpolls hcalled hkey hnot
  have hsignals : signals (tr ++ events.map (Event.app j)) = signals tr ++ [] := by
    rw [signals_append, signals_app]
  have hviews (r' : Id) (hrr : r' ≠ r) : app.view r' = (s.apps j).view r' :=
    hpolls.view_ne hkey hrr (by simp)
  refine h.updated hsignals hstopped (by simp) (fun _ => hviews) (fun _ => ?_) ?_ ⟨?_, ?_⟩
  · rw [List.append_nil]
    exact hentry
  · rw [List.append_nil]
    exact h.exclusive j r
  · intro j' callback' r' c hm
    obtain ⟨e, he, heq⟩ := List.mem_map.mp hm
    obtain ⟨rfl, rfl⟩ := Event.app.inj heq
    obtain ⟨c', heq', hcase⟩ := hevents _ he
    obtain ⟨rfl, rfl, rfl⟩ := App.Event.monitored.inj heq'
    exact hcase
  · intro j' callback' r' e hm
    obtain ⟨e', he, heq⟩ := List.mem_map.mp hm
    obtain ⟨rfl, rfl⟩ := Event.app.inj heq
    obtain ⟨c', heq', _⟩ := hevents _ he
    simp at heq'

/-- A poll that completes the future keeps the invariant. -/
theorem Inv.finished (h : Inv tr s) {i : Nat} {app app' : App} {state : State}
    {events : List App.Event} {signalling : Signals ι} {new : Trace ι}
    (hstopped : (s.apps j).stopped = false) (hj : s.signalling.clients j = .running p call)
    (ht : p.unorderedFuts[i]? = some task)
    (hpolls : (s.apps j).Polls task ⟨app, some (.ok state), events⟩)
    (hstep : s.signalling.step codecs (.finish j i (.ok state)) = some (signalling, new))
    (happ : app' = app ∨ app' = app.stop) :
    Inv (tr ++ (events.map (Event.app j) ++ new.map Event.system))
      ⟨signalling, Function.update s.apps j app'⟩ := by
  obtain ⟨callback, r, hkey, hcalled, hnot⟩ :=
    queued hr hn hanswer hoffer hcandidates hj (List.mem_of_getElem? ht) hpolls.isCallback
  have hstate : state.callback = some (callback, r) := (hpolls.state rfl).2.2.trans hkey
  have hnew (j' : ι) (state' : State) (hm : System.Event.consumed j' state' ∈ new) :
      state'.callback = none ∨ (j' = j ∧ state' = state) := by
    rcases hcb : state'.callback with _ | key
    · exact Or.inl rfl
    · obtain ⟨i', heq⟩ := System.finish_of_consumed hstep hm hcb
      obtain ⟨rfl, _, hs⟩ := System.Action.finish.inj heq
      exact Or.inr ⟨rfl, (Except.ok.inj hs).symm⟩
  obtain ⟨hentry, rfl⟩ := (h.entries j hstopped r).finished
    (causes hr hn hanswer hoffer hcandidates j r) hpolls hcalled hkey hnot
    (System.consumed_of_finish hstep) (fun state' hm => (hnew j state' hm).imp_right And.right)
  have hsignals : signals (tr ++ new.map Event.system) = signals tr ++ new := by
    rw [signals_append, signals_system]
  have hopen (hstop : app'.stopped = false) : app' = app := by
    rcases happ with rfl | rfl
    · rfl
    · simp [App.stop] at hstop
  rw [List.map_nil, List.nil_append]
  refine h.updated hsignals hstopped ?_ (fun hstop r' hrr => ?_) (fun hstop => ?_)
    hentry.exclusive .system
  · intro j' r' hne state' hm callback' hcb
    rcases hnew j' state' hm with hnone | ⟨rfl, rfl⟩
    · simp [hnone] at hcb
    · rw [hstate, Option.some.injEq, Prod.mk.injEq] at hcb
      exact hne ⟨rfl, hcb.2.symm⟩
  · rw [hopen hstop]
    exact hpolls.view_ne hkey hrr (by simp)
  · rw [hopen hstop]
    exact hentry

/-- A poll that fails stops the peer, and what it records has its cause. -/
theorem Inv.failed (h : Inv tr s) {i : Nat} {app : App} {e : Error} {events : List App.Event}
    {signalling : Signals ι} {new : Trace ι} (hstopped : (s.apps j).stopped = false)
    (hj : s.signalling.clients j = .running p call) (ht : task ∈ p.unorderedFuts)
    (hpolls : (s.apps j).Polls task ⟨app, some (.error e), events⟩)
    (hstep : s.signalling.step codecs (.finish j i (.error .externalFn)) =
      some (signalling, new)) :
    Inv (tr ++ (events.map (Event.app j) ++ new.map Event.system))
      ⟨signalling, Function.update s.apps j app.stop⟩ := by
  obtain ⟨callback, r, hkey, hcalled, hnot⟩ :=
    queued hr hn hanswer hoffer hcandidates hj ht hpolls.isCallback
  obtain ⟨hfault, rfl⟩ := hpolls.error hkey
  have hsignals : signals (tr ++ ([App.Event.failed callback r e].map (Event.app j) ++
      new.map Event.system)) = signals tr ++ new := by
    rw [signals_append, signals_append, signals_app, signals_system, List.nil_append]
  have hrecorded : Recorded (signals tr) ([App.Event.failed callback r e].map (Event.app j)) := by
    refine ⟨by simp, fun j' callback' r' e' hm hmap => ?_⟩
    obtain ⟨rfl, heq⟩ := Event.app.inj (List.mem_singleton.mp hm)
    obtain ⟨rfl, rfl, rfl⟩ := App.Event.failed.inj heq
    obtain ⟨he, hcause⟩ := (h.entries j' hstopped r').failed
      (causes hr hn hanswer hoffer hcandidates j' r') hfault hmap hcalled hkey hnot
    exact ⟨he, task, hcalled, hkey, hcause⟩
  refine h.frame hsignals (fun j' state hm key hcb => ?_) (fun j' => ?_)
    (hrecorded.append .system)
  · obtain ⟨i', heq⟩ := System.finish_of_consumed hstep hm hcb
    simp at heq
  · by_cases hjj : j' = j
    · subst hjj
      exact Or.inr (by simp [App.stop])
    · exact Or.inl (Function.update_of_ne hjj ..)

end

/-- The step lemma. -/
theorem Moves.inv {a : Action ι} (h : Inv tr s) (hm : Moves codecs s a (t, evs)) :
    Inv (tr ++ evs) t := by
  generalize hout : (t, evs) = out at hm
  cases hm with
  | @system a t apps evs hdriven hstep happs =>
    obtain ⟨rfl, rfl⟩ := Prod.mk.inj hout
    refine h.frame (by rw [signals_append, signals_system]) (fun j state hm key hkey => ?_)
      (fun j => (happs j).imp_right fun heq => ?_) .system
    · obtain ⟨i, rfl⟩ := System.finish_of_consumed hstep hm hkey
      simp [driven] at hdriven
    · simp [heq, App.stop]
  | pending hstopped hj ht hpolls =>
    obtain ⟨rfl, rfl⟩ := Prod.mk.inj hout
    exact h.pending hr hn hanswer hoffer hcandidates hstopped hj ht hpolls
  | finished hstopped hj ht hpolls hstep happ =>
    obtain ⟨rfl, rfl⟩ := Prod.mk.inj hout
    exact h.finished hr hn hanswer hoffer hcandidates hstopped hj ht hpolls hstep happ
  | failed hstopped hj ht hpolls hstep =>
    obtain ⟨rfl, rfl⟩ := Prod.mk.inj hout
    exact h.failed hr hn hanswer hoffer hcandidates hstopped hj ht hpolls hstep

/-- Every run keeps the invariant. -/
theorem inv : Inv tr s := by
  refine hr.invariant_while (P := fun tr => allocations (serverTrace (signals tr)) < 2 ^ 64)
    (I := Inv) (fun tr evs h => ?_) ?_ ?_ hn
  · rw [signals_append] at h
    exact System.serverTrace_allocations_lt _ _ h
  · refine ⟨fun j _ r => ?_, fun j r h => ?_, ⟨by simp, by simp⟩⟩
    · exact .absent (fun h => by simpa [signals] using h.choose_spec.1)
        fun h => by simpa [signals] using h.choose_spec.1
    · simpa [signals] using h.1.choose_spec.1
  · intro tr s a t evs hr hn _ h _ hs
    exact (step_moves hs).inv hr hn hanswer hoffer hcandidates h

/-- The map of an example peer fails only where two peers have created offers to each other: of
`create_offer` and `receive_offer` for one remote peer, the one that completes first inserts its
connection, and the other fails. So at most one of them ever completes. -/
theorem map_fails_in_glare :
    (∀ j r, ¬ (Done (signals tr) j (.createOffer, r) ∧
      Done (signals tr) j (.receiveOffer, r))) ∧
    ∀ j p callback r e, System.Event.advertised j p ∈ signals tr →
      .app j (.failed callback r e) ∈ tr → e.ofMap = true →
      e = .preExistingPeerId ∧ (callback = .createOffer ∨ callback = .receiveOffer) ∧
        ∃ i, System.Event.advertised i r ∈ signals tr ∧
          System.Event.called j (.createOffer r) ∈ signals tr ∧
          System.Event.called i (.createOffer p) ∈ signals tr := by
  have hrun := signals_run hr
  have hinv := inv hr hn hanswer hoffer hcandidates
  -- The offer of the remote peer that a client has been handed.
  have hoffered {j : ι} {p r : Id} {offerSet : DescriptionSet}
      (hadv : System.Event.advertised j p ∈ signals tr)
      (h : System.Event.called j (.receiveOffer r offerSet) ∈ signals tr) :
      ∃ i, System.Event.advertised i r ∈ signals tr ∧
        System.Event.called i (.createOffer p) ∈ signals tr := by
    have hlocal := (((System.clientInv hrun).2 j).given p).mp hadv
    obtain ⟨i, _, state, hi, _, _, _, hcons, hremote, hrelay⟩ :=
      System.relayed hrun hn hanswer hoffer hcandidates hlocal h rfl rfl
    obtain rfl : state = .createOffer p offerSet := by
      cases state <;> simp_all [SignallingState.relayed, SignallingState.remoteId]
    obtain ⟨task, hcalled, hkey⟩ := System.called_of_done hrun ⟨_, hcons, rfl⟩
    obtain rfl : task = .createOffer p := by
      cases task <;> simp_all [Task.callback]
    exact ⟨i, (((System.clientInv hrun).2 i).given r).mpr hi, hcalled⟩
  refine ⟨hinv.exclusive, fun j p callback r e hadv hfailed hmap => ?_⟩
  obtain ⟨rfl, task, hcalled, hkey, ⟨rfl, hdone⟩ | ⟨rfl, hdone⟩⟩ :=
    hinv.recorded.failed j callback r e hfailed hmap
  · obtain rfl : task = .createOffer r := by
      cases task <;> simp_all [Task.callback]
    obtain ⟨task', hcalled', hkey'⟩ := System.called_of_done hrun hdone
    obtain ⟨offerSet, rfl⟩ : ∃ offerSet, task' = .receiveOffer r offerSet := by
      cases task' <;> simp_all [Task.callback]
    obtain ⟨i, hi, hoffers⟩ := hoffered hadv hcalled'
    exact ⟨rfl, Or.inl rfl, i, hi, hcalled, hoffers⟩
  · obtain ⟨offerSet, rfl⟩ : ∃ offerSet, task = .receiveOffer r offerSet := by
      cases task <;> simp_all [Task.callback]
    obtain ⟨task', hcalled', hkey'⟩ := System.called_of_done hrun hdone
    obtain rfl : task' = .createOffer r := by
      cases task' <;> simp_all [Task.callback]
    obtain ⟨i, hi, hoffers⟩ := hoffered hadv hcalled
    exact ⟨rfl, Or.inr rfl, i, hi, hcalled', hoffers⟩

/-- A connection that an offerer monitors has been given the answer to its own offer. -/
theorem offerer_paired {i : ι} {p r : Id} {c : PeerConnection}
    (hadv : System.Event.advertised i p ∈ signals tr)
    (hc : c ∈ monitored tr i .localSigCplt r) :
    c.built.isOfferer = true ∧ ∃ j answerSet, System.Event.advertised j r ∈ signals tr ∧
      System.Event.called j (.receiveOffer p c.localSet) ∈ signals tr ∧
      System.Event.consumed j (.receiveOffer p answerSet) ∈ signals tr ∧
      c.remoteSet = some answerSet := by
  have hrun := signals_run hr
  have hinv := inv hr hn hanswer hoffer hcandidates
  obtain ⟨_, hoff, hcons, answerSet, hset, hcalled⟩ | ⟨hk, _⟩ :=
    hinv.recorded.monitored i .localSigCplt r c (mem_monitored.mp hc)
  · have hlocal := (((System.clientInv hrun).2 i).given p).mp hadv
    obtain ⟨j, offerSet, hex⟩ := System.exchanged hrun hn hanswer hoffer hcandidates hlocal hcalled
    have heq := System.consumed_unique hrun hn hanswer hoffer hcandidates hcons hex.offer rfl rfl
    obtain ⟨_, rfl⟩ := SignallingState.createOffer.inj heq
    exact ⟨hoff, j, answerSet, hex.answerer, hex.received, hex.answer, hset⟩
  · simp at hk

/-- Connections are paired. A connection that is monitored by `local_sig_cplt` is an offerer that
has been given the answer to its own offer; one that is monitored by `remote_sig_cplt` is an
answerer that has been given an offer which its remote peer has created. Where two peers monitor
connections for each other, each connection has been given what the other one made. -/
theorem connections_paired :
    (∀ i p r c, System.Event.advertised i p ∈ signals tr → c ∈ monitored tr i .localSigCplt r →
      c.built.isOfferer = true ∧ ∃ j answerSet, System.Event.advertised j r ∈ signals tr ∧
        System.Event.called j (.receiveOffer p c.localSet) ∈ signals tr ∧
        System.Event.consumed j (.receiveOffer p answerSet) ∈ signals tr ∧
        c.remoteSet = some answerSet) ∧
    (∀ j p r c, System.Event.advertised j r ∈ signals tr → c ∈ monitored tr j .remoteSigCplt p →
      c.built.isOfferer = false ∧ ∃ i offerSet, System.Event.advertised i p ∈ signals tr ∧
        System.Event.consumed i (.createOffer r offerSet) ∈ signals tr ∧
        System.Event.consumed j (.receiveOffer p c.localSet) ∈ signals tr ∧
        c.remoteSet = some offerSet) ∧
    ∀ i j p r c c', System.Event.advertised i p ∈ signals tr →
      System.Event.advertised j r ∈ signals tr → c ∈ monitored tr i .localSigCplt r →
      c' ∈ monitored tr j .remoteSigCplt p →
      c.remoteSet = some c'.localSet ∧ c'.remoteSet = some c.localSet := by
  have hrun := signals_run hr
  have hinv := inv hr hn hanswer hoffer hcandidates
  have haccepts {j : ι} {p : Id} {c : PeerConnection} (hc : c ∈ monitored tr j .remoteSigCplt p) :
      c.Accepts (signals tr) j p := by
    rcases hinv.recorded.monitored j .remoteSigCplt p c (mem_monitored.mp hc) with ⟨hk, _⟩ | ⟨_, h⟩
    · simp at hk
    · exact h
  refine ⟨fun i p r c hadv hc => offerer_paired hr hn hanswer hoffer hcandidates hadv hc,
    fun j p r c hadv hc => ?_, fun i j p r c c' hi hj hc hc' => ?_⟩
  · obtain ⟨hoff, hcons, offerSet, hset, hcalled⟩ := haccepts hc
    have hlocal := (((System.clientInv hrun).2 j).given r).mp hadv
    obtain ⟨i, _, state, hi, _, _, _, hcons', hremote, hrelay⟩ :=
      System.relayed hrun hn hanswer hoffer hcandidates hlocal hcalled rfl rfl
    obtain rfl : state = .createOffer r offerSet := by
      cases state <;> simp_all [SignallingState.relayed, SignallingState.remoteId]
    exact ⟨hoff, i, offerSet, (((System.clientInv hrun).2 i).given p).mpr hi, hcons', hcons, hset⟩
  · obtain ⟨_, j', answerSet, hj', hcalled, hcons, hset⟩ :=
      offerer_paired hr hn hanswer hoffer hcandidates hi hc
    obtain ⟨_, hcons', offerSet, hset', hcalled'⟩ := haccepts hc'
    obtain rfl : j' = j := System.localId_unique hrun hn
      ((((System.clientInv hrun).2 j').given r).mp hj')
      ((((System.clientInv hrun).2 j).given r).mp hj)
    have hanswers :=
      System.consumed_unique hrun hn hanswer hoffer hcandidates hcons hcons' rfl rfl
    have hoffers := System.called_unique hrun hn hanswer hoffer hcandidates hcalled hcalled' rfl rfl
    obtain ⟨_, rfl⟩ := SignallingState.receiveOffer.inj hanswers
    obtain ⟨_, rfl⟩ := Task.receiveOffer.inj hoffers
    exact ⟨hset, hset'⟩

end

/-! ## Two peers -/

/-- A codec that knows one value. -/
def single {α : Type} [DecidableEq α] (x : α) (bytes : Bytes) : Codec α where
  serialize y := if y = x then some bytes else none
  deserialize b := if b = bytes then some x else none

theorem single_inverts {α : Type} [DecidableEq α] (x : α) (bytes : Bytes) :
    (single x bytes).Inverts := by
  intro y b h
  simp only [single, Option.ite_none_right_eq_some, Option.some.injEq] at h
  obtain ⟨rfl, rfl⟩ := h
  simp [single]

/-- The codecs for one offer and one answer, without candidates. -/
def singles : Bincode where
  answer := single ⟨.answer, "a"⟩ [2, 0, 0, 0, 1, 0, 0, 0, 0, 0, 0, 0, 97]
  offer := single ⟨.offer, "o"⟩ [0, 0, 0, 0, 1, 0, 0, 0, 0, 0, 0, 0, 111]
  candidates := single [] [0, 0, 0, 0, 0, 0, 0, 0]

/-- A native platform that answers every call. -/
def answering (description : SessionDescription) : Answers where
  platform := .native
  api := {
    newPeerConnection := .ok ()
    setRemoteDescription := fun _ => .ok ()
    createAnswer := .ok description
    createDataChannel := fun _ => .ok ()
    createOffer := .ok description
    setLocalDescription := fun _ => .ok () }
  localDescription := some description
  collectIceCandidates := .ok []
  addIceCandidates := fun _ => .ok ()
  setRemoteDescription := fun _ => .ok ()
  peerEchoTask := true

/-- A schedule of the signalling system. -/
def drives
    (schedule : List (List
      (System.Action ι SessionDescription SessionDescription (List ICECandidate)))) :
    List (Action ι) :=
  schedule.flatten.map .system

/-- The second of two clients offers to the first; both monitor their connections. -/
theorem connections_paired_two : ∃ tr s c c', (peers Bool singles).Run Machine.Free tr s ∧
    c ∈ monitored tr false .localSigCplt 0 ∧ c' ∈ monitored tr true .remoteSigCplt 1 ∧
      c.remoteSet = some c'.localSet ∧ c'.remoteSet = some c.localSet := by
  obtain ⟨tr, s, hr, hc⟩ := (peers Bool singles).exec_reaches Machine.Free
    (List.flatten [drives [[.start true], System.Action.handling 0 3 [], [.reply true],
        System.Action.handling 1 2 [], [.reply true], System.Action.handling 2 1 [],
        [.reply true], System.Action.handling 3 1 [], [.reply true, .start false],
        System.Action.handling 4 3 [], [.reply false], System.Action.handling 5 2 [0],
        [.reply false], System.Action.handling 6 1 [], [.reply false],
        System.Action.handling 7 1 [],
        [.reply false, .server (.pollPeerStream 1), .listen false 0]],
      [.poll false 3 (answering ⟨.offer, "o"⟩)],
      drives [System.Action.handling 8 1 [], [.reply false, .server (.pollChannel 0),
        .listen true 1, .server (.pollChannel 0), .listen true 1]],
      [.poll true 3 (answering ⟨.answer, "a"⟩)],
      drives [System.Action.handling 9 1 [], [.reply true, .server (.pollChannel 3),
        .listen false 1, .server (.pollChannel 3), .listen false 1]],
      [.poll false 3 (answering ⟨.offer, "o"⟩), .poll false 3 (answering ⟨.offer, "o"⟩),
        .poll false 3 (answering ⟨.offer, "o"⟩), .poll true 3 (answering ⟨.answer, "a"⟩)]])
    (fun d => decide (allocations (serverTrace (signals d.2)) = 2 ∧
      System.Event.advertised false 1 ∈ signals d.2 ∧
      System.Event.advertised true 0 ∈ signals d.2 ∧
      0 < (monitored d.2 false .localSigCplt 0).length ∧
      0 < (monitored d.2 true .remoteSigCplt 1).length)) (by decide +kernel)
  obtain ⟨hn, hfalse, htrue, hlocal, hremote⟩ := of_decide_eq_true hc
  obtain ⟨c, hc⟩ := List.exists_mem_of_length_pos hlocal
  obtain ⟨c', hc'⟩ := List.exists_mem_of_length_pos hremote
  have hlt : allocations (serverTrace (signals tr)) < 2 ^ 64 := by
    rw [hn]
    decide
  obtain ⟨_, _, hpaired⟩ := connections_paired hr hlt (single_inverts _ _) (single_inverts _ _)
    (single_inverts _ _)
  exact ⟨tr, s, c, c', hr, hc, hc', hpaired false true 1 0 c c' hfalse htrue hc hc'⟩

/-- Two clients offer to each other; the map of one of them fails. -/
theorem map_fails_in_glare_two : ∃ tr s, (peers Bool singles).Run Machine.Free tr s ∧
    0 < tr.countP (Event.failsWith false .receiveOffer 0 .preExistingPeerId) ∧
    ∃ i, System.Event.advertised i 0 ∈ signals tr ∧
      System.Event.called false (.createOffer 0) ∈ signals tr ∧
      System.Event.called i (.createOffer 1) ∈ signals tr := by
  obtain ⟨tr, s, hr, hc⟩ := (peers Bool singles).exec_reaches Machine.Free
    (List.flatten [drives [[.start true], System.Action.handling 0 3 [],
        [.reply true, .start false], System.Action.handling 2 3 [], [.reply false],
        System.Action.handling 1 2 [1], System.Action.handling 3 2 [0], [.reply true],
        System.Action.handling 4 1 [], [.reply true], System.Action.handling 5 1 [],
        [.reply true, .reply false], System.Action.handling 6 1 [], [.reply false],
        System.Action.handling 7 1 [],
        [.reply false, .server (.pollPeerStream 0), .listen true 0,
          .server (.pollPeerStream 1), .listen false 0]],
      [.poll true 3 (answering ⟨.offer, "o"⟩)],
      drives [System.Action.handling 8 1 [], [.reply true]],
      [.poll false 3 (answering ⟨.offer, "o"⟩)],
      drives [System.Action.handling 9 1 [], [.reply false, .server (.pollChannel 2),
        .listen false 0, .server (.pollChannel 2), .listen false 0]],
      [.poll false 3 (answering ⟨.answer, "a"⟩)]])
    (fun d => decide (allocations (serverTrace (signals d.2)) = 2 ∧
      System.Event.advertised false 1 ∈ signals d.2 ∧
      0 < d.2.countP (Event.failsWith false .receiveOffer 0 .preExistingPeerId)))
    (by decide +kernel)
  obtain ⟨hn, hadv, hpos⟩ := of_decide_eq_true hc
  have hlt : allocations (serverTrace (signals tr)) < 2 ^ 64 := by
    rw [hn]
    decide
  obtain ⟨_, hfails⟩ := map_fails_in_glare hr hlt (single_inverts _ _) (single_inverts _ _)
    (single_inverts _ _)
  obtain ⟨_, _, hglare⟩ := hfails false 1 _ 0 _ hadv (mem_failed.mp hpos) rfl
  exact ⟨tr, s, hr, hpos, hglare⟩

end Peers

end JustWebrtc.Example
