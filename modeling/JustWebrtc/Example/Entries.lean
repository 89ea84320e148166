import JustWebrtc.Example.Peers
import JustWebrtc.Signalling.System.Callbacks

/-!
# Entries of the connection map

The entry of a remote peer in the map of an example peer goes through the stages of the
signalling: as an offerer its connection is inserted, taken to receive the answer, placed back and
taken to be monitored; as an answerer it is inserted and taken to be monitored. In each stage the
entry says which callbacks have completed, so a future that is polled finds the connection that
belongs to it.
-/

namespace JustWebrtc.Example

open Connection (SessionDescription ICECandidate)
open Signalling
open Signalling.System (Done Honest serverTrace)

variable {ι : Type*} [DecidableEq ι]

/-- A run of the signalling system of example peers. -/
abbrev Trace (ι : Type*) :=
  List (System.Event ι SessionDescription SessionDescription (List ICECandidate))

/-! ## Connections -/

namespace PeerConnection

/-- The connection has made the offer for a remote peer. -/
def Offers (c : PeerConnection) (tr : Trace ι) (j : ι) (r : Id) : Prop :=
  c.built.isOfferer = true ∧ c.remoteSet = none ∧
    System.Event.consumed j (.createOffer r c.localSet) ∈ tr

/-- The connection has made the offer for a remote peer and been given the answer. -/
def Links (c : PeerConnection) (tr : Trace ι) (j : ι) (r : Id) : Prop :=
  c.built.isOfferer = true ∧ System.Event.consumed j (.createOffer r c.localSet) ∈ tr ∧
    ∃ answerSet, c.remoteSet = some answerSet ∧
      System.Event.called j (.receiveAnswer r answerSet) ∈ tr

/-- The connection has been given the offer of a remote peer and made the answer. -/
def Accepts (c : PeerConnection) (tr : Trace ι) (j : ι) (r : Id) : Prop :=
  c.built.isOfferer = false ∧ System.Event.consumed j (.receiveOffer r c.localSet) ∈ tr ∧
    ∃ offerSet, c.remoteSet = some offerSet ∧
      System.Event.called j (.receiveOffer r offerSet) ∈ tr

variable {c : PeerConnection} {tr evs : Trace ι} {j : ι} {r : Id}

omit [DecidableEq ι] in
theorem Offers.mono (h : c.Offers tr j r) : c.Offers (tr ++ evs) j r :=
  ⟨h.1, h.2.1, List.mem_append_left _ h.2.2⟩

omit [DecidableEq ι] in
theorem Links.mono (h : c.Links tr j r) : c.Links (tr ++ evs) j r := by
  obtain ⟨hoff, hcons, answerSet, hset, hcalled⟩ := h
  exact ⟨hoff, List.mem_append_left _ hcons, answerSet, hset, List.mem_append_left _ hcalled⟩

omit [DecidableEq ι] in
theorem Accepts.mono (h : c.Accepts tr j r) : c.Accepts (tr ++ evs) j r := by
  obtain ⟨hoff, hcons, offerSet, hset, hcalled⟩ := h
  exact ⟨hoff, List.mem_append_left _ hcons, offerSet, hset, List.mem_append_left _ hcalled⟩

end PeerConnection

/-! ## Stages -/

namespace App

/-- What a peer keeps for a remote peer: the entry of its map, and the connections that the
futures of its callbacks hold. -/
def view (app : App) (r : Id) :
    Option (Option PeerConnection) × (Callback → Option PeerConnection) :=
  (app.peerConnections.get r, fun callback => app.taken (callback, r))

theorem view_set (app : App) (r : Id) (entry : Option PeerConnection) :
    { app with peerConnections := app.peerConnections.set r entry }.view r =
      (some entry, (app.view r).2) := by
  rw [view, PeerConnectionMap.get_set]
  rfl

theorem view_set_ne {app : App} {r r' : Id} {entry : Option PeerConnection} (h : r' ≠ r) :
    { app with peerConnections := app.peerConnections.set r entry }.view r' = app.view r' := by
  rw [view, PeerConnectionMap.get_set_ne h]
  rfl

theorem view_hold (app : App) (callback : Callback) (r : Id) (c : PeerConnection) :
    (app.hold (callback, r) (c, app.peerConnections.set r none)).view r =
      (some none, Function.update (app.view r).2 callback (some c)) := by
  rw [view, hold, PeerConnectionMap.get_set, Prod.mk.injEq]
  refine ⟨rfl, funext fun callback' => ?_⟩
  by_cases h : callback' = callback
  · rw [h, Function.update_self]
    exact Function.update_self ..
  · rw [Function.update_of_ne h]
    exact Function.update_of_ne (by simpa using h) ..

theorem view_hold_ne {app : App} {callback : Callback} {r r' : Id} {c : PeerConnection}
    (h : r' ≠ r) :
    (app.hold (callback, r) (c, app.peerConnections.set r none)).view r' = app.view r' := by
  rw [view, hold, PeerConnectionMap.get_set_ne h, view, Prod.mk.injEq]
  refine ⟨rfl, funext fun callback' => ?_⟩
  exact Function.update_of_ne (by simp [h]) ..

theorem view_release (app : App) (callback : Callback) (r : Id) :
    (app.release (callback, r)).view r =
      ((app.view r).1, Function.update (app.view r).2 callback none) := by
  rw [view, Prod.mk.injEq]
  refine ⟨rfl, funext fun callback' => ?_⟩
  by_cases h : callback' = callback
  · rw [h, Function.update_self]
    exact Function.update_self ..
  · rw [Function.update_of_ne h]
    exact Function.update_of_ne (by simpa using h) ..

theorem view_release_ne {app : App} {callback : Callback} {r r' : Id} (h : r' ≠ r) :
    (app.release (callback, r)).view r' = app.view r' := by
  rw [view, view, Prod.mk.injEq]
  exact ⟨rfl, funext fun callback' => Function.update_of_ne (by simp [h]) ..⟩

/-- A poll that does not fail changes what is kept for one remote peer. -/
theorem Polls.view_ne {app : App} {callback : Callback} {r r' : Id}
    {task : Task SessionDescription SessionDescription (List ICECandidate)} {polled : Polled}
    (h : app.Polls task polled) (hkey : task.callback = some (callback, r)) (hr : r' ≠ r)
    (hok : ∀ e, polled.result ≠ some (.error e)) : polled.app.view r' = app.view r' := by
  cases h with
  | failed _ _ => exact absurd rfl (hok _)
  | @created remoteId _ _ _ _ | @received remoteId _ _ _ _ _ =>
    obtain rfl : remoteId = r := (Prod.mk.inj (Option.some.inj hkey)).2
    exact view_set_ne hr
  | @took remoteId _ _ _ _ =>
    obtain rfl : remoteId = r := (Prod.mk.inj (Option.some.inj hkey)).2
    exact view_hold_ne hr
  | @placed remoteId _ _ _ _ =>
    obtain rfl : remoteId = r := (Prod.mk.inj (Option.some.inj hkey)).2
    exact (@view_set_ne (app.release (.receiveAnswer, remoteId)) _ _ _ hr).trans
      (view_release_ne hr)
  | monitored hm _ _ =>
    cases hm <;> obtain rfl := (Prod.mk.inj (Option.some.inj hkey)).2 <;> exact view_hold_ne hr
  | ended hm _ =>
    cases hm <;> obtain rfl := (Prod.mk.inj (Option.some.inj hkey)).2 <;> exact view_release_ne hr

end App

/-- The stages of what a peer keeps for a remote peer. -/
inductive Entry (tr : Trace ι) (j : ι) (r : Id) :
    Option (Option PeerConnection) × (Callback → Option PeerConnection) → Prop
  | absent : ¬ Done tr j (.createOffer, r) → ¬ Done tr j (.receiveOffer, r) →
      Entry tr j r (none, fun _ => none)
  | offered {c} : c.Offers tr j r → ¬ Done tr j (.receiveAnswer, r) →
      ¬ Done tr j (.receiveOffer, r) → Entry tr j r (some (some c), fun _ => none)
  | answering {c} : c.Offers tr j r → ¬ Done tr j (.receiveAnswer, r) →
      ¬ Done tr j (.receiveOffer, r) →
      Entry tr j r (some none, Function.update (fun _ => none) .receiveAnswer (some c))
  | linked {c} : c.Links tr j r → Done tr j (.receiveAnswer, r) →
      ¬ Done tr j (.receiveOffer, r) → Entry tr j r (some (some c), fun _ => none)
  | monitoring {c} : c.Links tr j r → Done tr j (.receiveAnswer, r) →
      ¬ Done tr j (.receiveOffer, r) →
      Entry tr j r (some none, Function.update (fun _ => none) .localSigCplt (some c))
  | left : Done tr j (.createOffer, r) → Done tr j (.receiveAnswer, r) →
      Done tr j (.localSigCplt, r) → ¬ Done tr j (.receiveOffer, r) →
      Entry tr j r (some none, fun _ => none)
  | received {c} : c.Accepts tr j r → ¬ Done tr j (.createOffer, r) →
      Entry tr j r (some (some c), fun _ => none)
  | monitoringRemote {c} : c.Accepts tr j r → ¬ Done tr j (.createOffer, r) →
      Entry tr j r (some none, Function.update (fun _ => none) .remoteSigCplt (some c))
  | leftRemote : Done tr j (.remoteSigCplt, r) → Done tr j (.receiveOffer, r) →
      ¬ Done tr j (.createOffer, r) → Entry tr j r (some none, fun _ => none)

/-- What the signalling says of the callbacks for a remote peer. -/
structure Causes (tr : Trace ι) (j : ι) (r : Id) : Prop where
  created : ∀ answerSet, System.Event.called j (.receiveAnswer r answerSet) ∈ tr →
    Done tr j (.createOffer, r)
  answered : System.Event.called j (.localSigCplt r) ∈ tr → Done tr j (.receiveAnswer, r)
  received : System.Event.called j (.remoteSigCplt r) ∈ tr → Done tr j (.receiveOffer, r)
  called : ∀ callback, Done tr j (callback, r) →
    ∃ task, System.Event.called j task ∈ tr ∧ task.callback = some (callback, r)

namespace Causes

variable {tr : Trace ι} {j : ι} {r : Id}

omit [DecidableEq ι] in
theorem createOffer (hc : Causes tr j r) (h : Done tr j (.receiveAnswer, r)) :
    Done tr j (.createOffer, r) := by
  obtain ⟨task, hcalled, hkey⟩ := hc.called _ h
  cases task <;> simp only [Task.callback, Option.some.injEq, Prod.mk.injEq, reduceCtorEq,
    false_and, true_and] at hkey
  subst hkey
  exact hc.created _ hcalled

end Causes

namespace Entry

variable {tr evs : Trace ι} {j : ι} {r : Id}
  {v : Option (Option PeerConnection) × (Callback → Option PeerConnection)}

omit [DecidableEq ι] in
/-- A peer never completes both an offer to a remote peer and an answer to its offer. -/
theorem exclusive (h : Entry tr j r v) :
    ¬ (Done tr j (.createOffer, r) ∧ Done tr j (.receiveOffer, r)) := by
  rintro ⟨hcreate, hreceive⟩
  cases h <;> contradiction

omit [DecidableEq ι] in
/-- An entry that exists belongs to an offer or to an answer. -/
theorem of_ne_none (h : Entry tr j r v) (hne : v.1 ≠ none) :
    Done tr j (.createOffer, r) ∨ Done tr j (.receiveOffer, r) := by
  cases h with
  | absent _ _ => exact absurd rfl hne
  | offered h _ _ | answering h _ _ => exact Or.inl ⟨_, h.2.2, rfl⟩
  | linked h _ _ | monitoring h _ _ => exact Or.inl ⟨_, h.2.1, rfl⟩
  | left h _ _ _ => exact Or.inl h
  | received h _ | monitoringRemote h _ => exact Or.inr ⟨_, h.2.1, rfl⟩
  | leftRemote _ h _ => exact Or.inr h

omit [DecidableEq ι] in
/-- A connection is inserted where nothing is kept yet. -/
theorem of_none (h : Entry tr j r v) (hnone : v.1 = none) : v.2 = (fun _ => none) ∧
    ¬ Done tr j (.createOffer, r) ∧ ¬ Done tr j (.receiveOffer, r) := by
  cases h with
  | absent hcreate hreceive => exact ⟨rfl, hcreate, hreceive⟩
  | _ => simp at hnone

omit [DecidableEq ι] in
/-- A future that receives an answer finds the connection of the offer, or holds it. -/
theorem of_receiveAnswer (h : Entry tr j r v) (hcreate : Done tr j (.createOffer, r))
    (hnot : ¬ Done tr j (.receiveAnswer, r)) :
    ∃ c : PeerConnection, c.Offers tr j r ∧ ¬ Done tr j (.receiveOffer, r) ∧
      (v = (some (some c), fun _ => none) ∨
        v = (some none, Function.update (fun _ => none) .receiveAnswer (some c))) := by
  cases h with
  | offered h _ hno => exact ⟨_, h, hno, Or.inl rfl⟩
  | answering h _ hno => exact ⟨_, h, hno, Or.inr rfl⟩
  | _ => contradiction

omit [DecidableEq ι] in
/-- A future that completes the local signalling finds a linked connection, or holds it. -/
theorem of_localSigCplt (h : Entry tr j r v) (hc : Causes tr j r)
    (hanswer : Done tr j (.receiveAnswer, r)) (hnot : ¬ Done tr j (.localSigCplt, r)) :
    ∃ c : PeerConnection, c.Links tr j r ∧ ¬ Done tr j (.receiveOffer, r) ∧
      (v = (some (some c), fun _ => none) ∨
        v = (some none, Function.update (fun _ => none) .localSigCplt (some c))) := by
  have hcreate := hc.createOffer hanswer
  cases h with
  | linked h _ hno => exact ⟨_, h, hno, Or.inl rfl⟩
  | monitoring h _ hno => exact ⟨_, h, hno, Or.inr rfl⟩
  | _ => contradiction

omit [DecidableEq ι] in
/-- A future that completes the remote signalling finds an accepted connection, or holds it. -/
theorem of_remoteSigCplt (h : Entry tr j r v) (hreceive : Done tr j (.receiveOffer, r))
    (hnot : ¬ Done tr j (.remoteSigCplt, r)) :
    ∃ c : PeerConnection, c.Accepts tr j r ∧ ¬ Done tr j (.createOffer, r) ∧
      (v = (some (some c), fun _ => none) ∨
        v = (some none, Function.update (fun _ => none) .remoteSigCplt (some c))) := by
  cases h with
  | received h hno => exact ⟨_, h, hno, Or.inl rfl⟩
  | monitoringRemote h hno => exact ⟨_, h, hno, Or.inr rfl⟩
  | _ => contradiction

omit [DecidableEq ι] in
/-- Other events leave the stage as it is. -/
theorem frame (h : Entry tr j r v)
    (hevs : ∀ state, System.Event.consumed j state ∈ evs →
      ∀ callback, state.callback ≠ some (callback, r)) : Entry (tr ++ evs) j r v := by
  have hno {callback : Callback} (h : ¬ Done tr j (callback, r)) :
      ¬ Done (tr ++ evs) j (callback, r) :=
    fun hdone => h (hdone.of_append fun state hm => hevs state hm callback)
  cases h with
  | absent h1 h2 => exact .absent (hno h1) (hno h2)
  | offered h1 h2 h3 => exact .offered h1.mono (hno h2) (hno h3)
  | answering h1 h2 h3 => exact .answering h1.mono (hno h2) (hno h3)
  | linked h1 h2 h3 => exact .linked h1.mono h2.mono (hno h3)
  | monitoring h1 h2 h3 => exact .monitoring h1.mono h2.mono (hno h3)
  | left h1 h2 h3 h4 => exact .left h1.mono h2.mono h3.mono (hno h4)
  | received h1 h2 => exact .received h1.mono (hno h2)
  | monitoringRemote h1 h2 => exact .monitoringRemote h1.mono (hno h2)
  | leftRemote h1 h2 h3 => exact .leftRemote h1.mono h2.mono (hno h3)

/-! ## Polls -/

variable {app app' : App} {callback : Callback} {events : List App.Event}
  {task : Task SessionDescription SessionDescription (List ICECandidate)}

theorem update_update_none (callback : Callback) (c : Option PeerConnection) :
    Function.update (Function.update (fun _ => none) callback c) callback none =
      (fun _ => none : Callback → Option PeerConnection) := by
  rw [Function.update_idem, Function.update_eq_self_iff]

/-- A future takes the connection that the entry has. -/
theorem view_took {c c' : PeerConnection} (callback : Callback)
    (hv : app.view r = (some (some c'), fun _ => none) ∨
      app.view r = (some none, Function.update (fun _ => none) callback (some c')))
    (hget : app.peerConnections.get r = some (some c)) :
    c = c' ∧ (app.hold (callback, r) (c, app.peerConnections.set r none)).view r =
      (some none, Function.update (fun _ => none) callback (some c')) := by
  have hfst : (app.view r).1 = some (some c) := hget
  rcases hv with hv | hv
  · rw [hv, Option.some.injEq, Option.some.injEq] at hfst
    rw [App.view_hold, hv, hfst]
    exact ⟨rfl, rfl⟩
  · simp [hv] at hfst

/-- A future holds the connection that it has taken. -/
theorem view_held {c c' : PeerConnection} (callback : Callback)
    (hv : app.view r = (some (some c'), fun _ => none) ∨
      app.view r = (some none, Function.update (fun _ => none) callback (some c')))
    (htaken : app.taken (callback, r) = some c) :
    c = c' ∧ (app.release (callback, r)).view r = (some none, fun _ => none) := by
  have hsnd : (app.view r).2 callback = some c := htaken
  rcases hv with hv | hv
  · simp [hv] at hsnd
  · simp only [hv, Function.update_self, Option.some.injEq] at hsnd
    rw [App.view_release, hv, update_update_none]
    exact ⟨hsnd.symm, rfl⟩

omit [DecidableEq ι] in
/-- A poll that leaves the future pending takes the connection that belongs to it. -/
theorem pending (h : Entry tr j r (app.view r)) (hc : Causes tr j r)
    (hpolls : app.Polls task ⟨app', none, events⟩)
    (hcalled : System.Event.called j task ∈ tr) (hkey : task.callback = some (callback, r))
    (hnot : ¬ Done tr j (callback, r)) :
    Entry tr j r (app'.view r) ∧ ∀ e ∈ events, ∃ c, e = .monitored callback r c ∧
      (callback = .localSigCplt ∧ c.Links tr j r ∨
        callback = .remoteSigCplt ∧ c.Accepts tr j r) := by
  generalize hout : (⟨app', none, events⟩ : App.Polled) = polled at hpolls
  cases hpolls with
  | failed _ _ | created _ _ _ | received _ _ _ | placed _ _ | ended _ _ => cases hout
  | @took remoteId answerSet c htaken hget =>
    obtain ⟨rfl, rfl⟩ := Prod.mk.inj (Option.some.inj hkey)
    cases hout
    obtain ⟨c', hoffers, hno, hv⟩ := h.of_receiveAnswer (hc.created _ hcalled) hnot
    rw [(view_took .receiveAnswer hv hget).2]
    exact ⟨.answering hoffers hnot hno, by simp⟩
  | @monitored _ key state c hm htaken hget =>
    cases hm with
    | @localSigCplt remoteId =>
      obtain ⟨rfl, rfl⟩ := Prod.mk.inj (Option.some.inj hkey)
      cases hout
      obtain ⟨c', hlinks, hno, hv⟩ := h.of_localSigCplt hc (hc.answered hcalled) hnot
      obtain ⟨rfl, hview⟩ := view_took .localSigCplt hv hget
      rw [hview]
      refine ⟨.monitoring hlinks (hc.answered hcalled) hno,
        fun e he => ⟨c, ?_, Or.inl ⟨rfl, hlinks⟩⟩⟩
      exact List.mem_singleton.mp he
    | @remoteSigCplt remoteId =>
      obtain ⟨rfl, rfl⟩ := Prod.mk.inj (Option.some.inj hkey)
      cases hout
      obtain ⟨c', haccepts, hno, hv⟩ := h.of_remoteSigCplt (hc.received hcalled) hnot
      obtain ⟨rfl, hview⟩ := view_took .remoteSigCplt hv hget
      rw [hview]
      refine ⟨.monitoringRemote haccepts hno, fun e he => ⟨c, ?_, Or.inr ⟨rfl, haccepts⟩⟩⟩
      exact List.mem_singleton.mp he

omit [DecidableEq ι] in
/-- A poll that completes the future leaves the entry at the next stage. -/
theorem finished {state : State} (h : Entry tr j r (app.view r)) (hc : Causes tr j r)
    (hpolls : app.Polls task ⟨app', some (.ok state), events⟩)
    (hcalled : System.Event.called j task ∈ tr) (hkey : task.callback = some (callback, r))
    (hnot : ¬ Done tr j (callback, r)) (hcons : System.Event.consumed j state ∈ evs)
    (hevs : ∀ state', System.Event.consumed j state' ∈ evs →
      state'.callback = none ∨ state' = state) :
    Entry (tr ++ evs) j r (app'.view r) ∧ events = [] := by
  have hstate : state.callback = some (callback, r) := (hpolls.state rfl).2.2.trans hkey
  have hmem : System.Event.consumed j state ∈ tr ++ evs := List.mem_append_right _ hcons
  have hdone : Done (tr ++ evs) j (callback, r) := ⟨state, hmem, hstate⟩
  -- Nothing but the callback of the future completes.
  have hno {callback' : Callback} (hne : callback' ≠ callback)
      (h : ¬ Done tr j (callback', r)) : ¬ Done (tr ++ evs) j (callback', r) := by
    refine fun hdone => h (hdone.of_append fun state' hm hkey' => ?_)
    rcases hevs state' hm with hnone | rfl
    · simp [hnone] at hkey'
    · rw [hstate, Option.some.injEq, Prod.mk.injEq] at hkey'
      exact hne hkey'.1.symm
  generalize hout : (⟨app', some (.ok state), events⟩ : App.Polled) = polled at hpolls
  cases hpolls with
  | failed _ _ | took _ _ | monitored _ _ _ => cases hout
  | @created remoteId c hnone hoff hremote =>
    obtain ⟨rfl, rfl⟩ := Prod.mk.inj (Option.some.inj hkey)
    cases hout
    obtain ⟨hview, hcreate, hreceive⟩ := h.of_none hnone
    rw [App.view_set, hview]
    refine ⟨.offered ⟨hoff, hremote, hmem⟩ (hno (by simp) fun h => ?_) (hno (by simp) hreceive),
      rfl⟩
    exact hcreate (hc.createOffer h)
  | @received remoteId offerSet c hnone hoff hremote =>
    obtain ⟨rfl, rfl⟩ := Prod.mk.inj (Option.some.inj hkey)
    cases hout
    obtain ⟨hview, hcreate, _⟩ := h.of_none hnone
    rw [App.view_set, hview]
    exact ⟨.received ⟨hoff, hmem, offerSet, hremote, List.mem_append_left _ hcalled⟩
      (hno (by simp) hcreate), rfl⟩
  | @placed remoteId answerSet c htaken hget =>
    obtain ⟨rfl, rfl⟩ := Prod.mk.inj (Option.some.inj hkey)
    cases hout
    obtain ⟨c', ⟨hoff, _, hcons'⟩, hreceive, hv⟩ :=
      h.of_receiveAnswer (hc.created _ hcalled) hnot
    obtain ⟨rfl, hview⟩ := view_held .receiveAnswer hv htaken
    have hset := App.view_set (app.release (.receiveAnswer, remoteId)) remoteId
      (some { c with remoteSet := some answerSet })
    rw [hview] at hset
    rw [show ({ app.release (.receiveAnswer, remoteId) with
      peerConnections := app.peerConnections.set remoteId
        (some { c with remoteSet := some answerSet }) } : App).view remoteId = _ from hset]
    exact ⟨.linked ⟨hoff, List.mem_append_left _ hcons', answerSet, rfl,
      List.mem_append_left _ hcalled⟩ hdone (hno (by simp) hreceive), rfl⟩
  | @ended _ key state c hm htaken =>
    cases hm with
    | @localSigCplt remoteId =>
      obtain ⟨rfl, rfl⟩ := Prod.mk.inj (Option.some.inj hkey)
      cases hout
      obtain ⟨c', hlinks, hreceive, hv⟩ := h.of_localSigCplt hc (hc.answered hcalled) hnot
      rw [(view_held .localSigCplt hv htaken).2]
      exact ⟨.left ⟨_, hlinks.mono.2.1, rfl⟩ (hc.answered hcalled).mono hdone
        (hno (by simp) hreceive), rfl⟩
    | @remoteSigCplt remoteId =>
      obtain ⟨rfl, rfl⟩ := Prod.mk.inj (Option.some.inj hkey)
      cases hout
      obtain ⟨c', haccepts, hcreate, hv⟩ := h.of_remoteSigCplt (hc.received hcalled) hnot
      rw [(view_held .remoteSigCplt hv htaken).2]
      exact ⟨.leftRemote hdone (hc.received hcalled).mono (hno (by simp) hcreate), rfl⟩

/-- A future that takes the connection of the entry, or holds it, does not fail for want of it. -/
theorem not_missing {c : PeerConnection} {e : Error} (hcreate : callback ≠ .createOffer)
    (hreceive : callback ≠ .receiveOffer)
    (hv : app.view r = (some (some c), fun _ => none) ∨
      app.view r = (some none, Function.update (fun _ => none) callback (some c)))
    (hfault : app.Faults (callback, r) e) : e.ofMap = false := by
  generalize hkey : (callback, r) = key at hfault
  cases hfault with
  | outside h => exact h
  | preExisting hk _ =>
    rw [← hkey] at hk
    exact absurd hk (not_or.mpr ⟨hcreate, hreceive⟩)
  | missing _ _ hget =>
    rw [← hkey] at hget
    have hfst : (app.view r).1 = none := hget
    rcases hv with hv | hv <;> simp [hv] at hfst
  | gone _ _ htaken hget =>
    rw [← hkey] at htaken hget
    have hfst : (app.view r).1 = some none := hget
    have hsnd : (app.view r).2 callback = none := htaken
    rcases hv with hv | hv
    · simp [hv] at hfst
    · simp [hv] at hsnd
  | @dropped remoteId c' c'' htaken hget =>
    obtain ⟨rfl, rfl⟩ := Prod.mk.inj hkey
    have hfst : (app.view r).1 = some (some c'') := hget
    have hsnd : (app.view r).2 .receiveAnswer = some c' := htaken
    rcases hv with hv | hv
    · simp [hv] at hsnd
    · simp [hv] at hfst

omit [DecidableEq ι] in
/-- The map fails only where both an offer and an answer are made for one remote peer. -/
theorem failed {e : Error} (h : Entry tr j r (app.view r)) (hc : Causes tr j r)
    (hfault : app.Faults (callback, r) e) (hmap : e.ofMap = true)
    (hcalled : System.Event.called j task ∈ tr) (hkey : task.callback = some (callback, r))
    (hnot : ¬ Done tr j (callback, r)) :
    e = .preExistingPeerId ∧
      (callback = .createOffer ∧ Done tr j (.receiveOffer, r) ∨
        callback = .receiveOffer ∧ Done tr j (.createOffer, r)) := by
  have hcreator (hk : callback = .createOffer ∨ callback = .receiveOffer) :
      e = .preExistingPeerId ∧ app.peerConnections.get r ≠ none := by
    generalize hkey : (callback, r) = key at hfault
    cases hfault with
    | outside h => simp [h] at hmap
    | preExisting _ hne => exact ⟨rfl, by rwa [← hkey] at hne⟩
    | missing h1 h2 _ | gone h1 h2 _ _ =>
      rw [← hkey] at h1 h2
      exact absurd hk (not_or.mpr ⟨h1, h2⟩)
    | dropped _ _ =>
      obtain ⟨rfl, _⟩ := Prod.mk.inj hkey
      simp at hk
  have hother {c : PeerConnection} (h1 : callback ≠ .createOffer) (h2 : callback ≠ .receiveOffer)
      (hv : app.view r = (some (some c), fun _ => none) ∨
        app.view r = (some none, Function.update (fun _ => none) callback (some c))) : False := by
    have hfalse := not_missing h1 h2 hv hfault
    simp [hfalse] at hmap
  cases task with
  | peerListener _ | offerListener _ | answerListener _ => simp [Task.callback] at hkey
  | createOffer remoteId =>
    obtain ⟨rfl, rfl⟩ := Prod.mk.inj (Option.some.inj hkey)
    obtain ⟨rfl, hne⟩ := hcreator (Or.inl rfl)
    exact ⟨rfl, Or.inl ⟨rfl, (h.of_ne_none hne).resolve_left hnot⟩⟩
  | receiveOffer remoteId offerSet =>
    obtain ⟨rfl, rfl⟩ := Prod.mk.inj (Option.some.inj hkey)
    obtain ⟨rfl, hne⟩ := hcreator (Or.inr rfl)
    exact ⟨rfl, Or.inr ⟨rfl, (h.of_ne_none hne).resolve_right hnot⟩⟩
  | receiveAnswer remoteId answerSet =>
    obtain ⟨rfl, rfl⟩ := Prod.mk.inj (Option.some.inj hkey)
    obtain ⟨c, _, _, hv⟩ := h.of_receiveAnswer (hc.created _ hcalled) hnot
    exact (hother (by simp) (by simp) hv).elim
  | localSigCplt remoteId =>
    obtain ⟨rfl, rfl⟩ := Prod.mk.inj (Option.some.inj hkey)
    obtain ⟨c, _, _, hv⟩ := h.of_localSigCplt hc (hc.answered hcalled) hnot
    exact (hother (by simp) (by simp) hv).elim
  | remoteSigCplt remoteId =>
    obtain ⟨rfl, rfl⟩ := Prod.mk.inj (Option.some.inj hkey)
    obtain ⟨c, _, _, hv⟩ := h.of_remoteSigCplt (hc.received hcalled) hnot
    exact (hother (by simp) (by simp) hv).elim

end Entry

end JustWebrtc.Example
