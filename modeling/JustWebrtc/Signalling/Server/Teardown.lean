import JustWebrtc.Signalling.Server.Views

/-!
# Teardowns and their announcements

A teardown broadcasts the removal of its peer first and looks into the map afterwards. So
each broadcast removal is paid for by an actual removal, by a handler that still waits for
the map, or by a teardown that has failed. The count balances exactly when no teardown
comes to the map too late.
-/

namespace JustWebrtc.Signalling

/-- The call has broadcast the removal of `id` and has not removed it. -/
def Call.departed (id : Id) (c : Call) : Bool :=
  match c.phase with
  | .removing x _ => x = id
  | .done (.error e) => e = Status.notAdvertised ∧ c.request.addressee = some id
  | _ => false

@[simp] theorem Call.departed_removing (id x : Id) (request : Request) (caller : Caller) :
    Call.departed id ⟨request, .removing x caller⟩ = decide (x = id) := rfl

/-- A call that has not failed has removed what it has broadcast. -/
theorem Call.departed_done (id : Id) (request : Request) {result : Except Status Response}
    (h : result ≠ .error Status.notAdvertised) :
    Call.departed id ⟨request, .done result⟩ = false := by
  cases result with
  | ok _ => rfl
  | error e =>
    have hne : e ≠ Status.notAdvertised := fun he => h (by rw [he])
    simp [Call.departed, hne]

/-- A failed call has broadcast the removal of the peer it is addressed to. -/
theorem Call.departed_failed (id : Id) {x : Id} {request : Request}
    (h : request.addressee = some x) :
    Call.departed id ⟨request, .done (.error Status.notAdvertised)⟩ = decide (x = id) := by
  simp [Call.departed, h]

/-- A removal is addressed to the peer it removes. -/
theorem Call.Consistent.addressee {request : Request} {id : Id} {caller : Caller}
    (h : (Call.mk request (.removing id caller)).Consistent) : request.addressee = some id := by
  cases caller with
  | teardown =>
    rw [show request = .teardown (some id) from h]
    rfl
  | signal slot =>
    obtain ⟨sig, hreq⟩ := h
    rw [show request = .signal slot (some id) (some sig) from hreq]
    rfl

/-- A removal that was made is not answered like a failed teardown. -/
theorem Caller.result_ne_notAdvertised (caller : Caller) :
    caller.result ≠ .error Status.notAdvertised := by
  cases caller with
  | teardown => simp [Caller.result]
  | signal slot => cases slot <;> decide

namespace Server

section

variable {s u t : Server} {a : Action} {k : Nat} {order : List Id} {call : Call} {phase : Phase}
  {evs tr : List Event} {id : Id}

/-- Moving a call changes a count of calls by what the call counted and what it counts now. -/
theorem countP_setPhase (phase : Phase) (hu : u.calls = s.calls) (hk : s.calls[k]? = some call)
    (f : Call → Bool) :
    (u.setPhase k phase).calls.countP f + (if f call then 1 else 0) =
      s.calls.countP f + if f { call with phase := phase } then 1 else 0 := by
  obtain ⟨hlt, hget⟩ := List.getElem?_eq_some_iff.mp hk
  have hset : (u.setPhase k phase).calls = s.calls.set k { call with phase := phase } := by
    rw [setPhase, hu, List.modify_eq_set_get _ hlt, List.get_eq_getElem, hget]
  have hpos : f call = true → 0 < s.calls.countP f := fun hf =>
    List.countP_pos_iff.mpr ⟨call, List.mem_of_getElem? hk, hf⟩
  rw [hset, List.countP_set hlt, hget]
  split
  · have := hpos ‹_›
    omega
  · omega

/-- Only a teardown that finds its peer missing from the map is answered so. -/
theorem Responds.notAdvertised {result : Except Status Response}
    (h : s.Responds order call result) (he : result = .error Status.notAdvertised) :
    ∃ request id caller, call = ⟨request, .removing id caller⟩ ∧ id ∉ s.peers := by
  cases h with
  | removeAbsent hmem => exact ⟨_, _, _, rfl, hmem⟩
  | @remoteMissing slot | @signalMissing slot | @remoteNotAdvertised slot
  | @remoteNotListening slot | @bufferFull slot | @listenerExists slot =>
    cases slot <;> exact absurd he (by decide)
  | discover _ => simp at he
  | _ => exact absurd he (by decide)

/-- Every step keeps the balance: a broadcast removal adds a call that has broadcast it, and
a call is only taken off by an actual removal. -/
theorem Moves.departed (hm : s.Moves a t evs) (hb : BroadcastInv tr s)
    (hc : ∀ c ∈ s.calls, c.Consistent) (id : Id) :
    (Signalling.changes evs).count (.remove id) + s.calls.countP (Call.departed id) =
      evs.count (.removed id) + t.calls.countP (Call.departed id) := by
  -- a handler that records no removal and is about none before and after its step
  have idle : ∀ {k : Nat} {call : Call} {phase : Phase} {u : Server} {evs : List Event},
      u.calls = s.calls → s.calls[k]? = some call → call.departed id = false →
      Call.departed id { call with phase := phase } = false →
      (Signalling.changes evs).count (.remove id) = 0 → evs.count (.removed id) = 0 →
      (Signalling.changes evs).count (.remove id) + s.calls.countP (Call.departed id) =
        evs.count (.removed id) + (u.setPhase k phase).calls.countP (Call.departed id) := by
    intro k call phase u evs hu hk hbefore hafter hch hrem
    have h := countP_setPhase phase hu hk (Call.departed id)
    simp only [hbefore, hafter, Bool.false_eq_true, if_false, Nat.add_zero] at h
    rw [hch, hrem, h]
  cases hm with
  | receive request => simp [Signalling.changes, changeLog, Call.departed, changesOf]
  | generate hk => exact idle rfl hk rfl rfl rfl rfl
  | duplicate hk _ => exact idle rfl hk rfl (Call.departed_done id _ (by decide)) rfl rfl
  | insert hk _ | collect hk _ => exact idle rfl hk rfl rfl rfl rfl
  | subscribe hk => exact idle rfl hk rfl rfl rfl rfl
  | accept hk _ _ _ _ | disconnect hk _ _ _ _ | openListener hk _ _ _ =>
    exact idle rfl hk rfl rfl rfl rfl
  | @announce k order request x hk =>
    refine idle (by simp) hk rfl rfl ?_ ?_
    · rw [changes_broadcastChange hb]
      rfl
    · rw [(broadcastChange_sent hb.records _).1]
      rfl
  | @depart k order call x caller hk hd =>
    have h := countP_setPhase (u := (s.broadcastChange (.remove x)).1) (.removing x caller)
      (by simp) hk (Call.departed id)
    have hbefore : call.departed id = false := by cases hd <;> rfl
    rw [hbefore, Call.departed_removing] at h
    simp only [Bool.false_eq_true, if_false, Nat.add_zero, decide_eq_true_eq] at h
    rw [changes_broadcastChange hb, (broadcastChange_sent hb.records _).1, h]
    simp [List.count_cons, Nat.add_comm]
  | @remove k order request x caller hk _ =>
    have h := countP_setPhase (u := { s with peers := s.peers.erase x }) (.done caller.result)
      rfl hk (Call.departed id)
    have hafter := Call.departed_done id request caller.result_ne_notAdvertised
    have hch : Signalling.changes [Event.removed x] = [] := rfl
    rw [hafter, Call.departed_removing] at h
    simp only [Bool.false_eq_true, if_false, Nat.add_zero, decide_eq_true_eq] at h
    rw [hch, ← h]
    simp [List.count_cons, Nat.add_comm]
  | @respond k order call result hk hr =>
    by_cases hres : result = .error Status.notAdvertised
    · obtain ⟨request, x, caller, rfl, _⟩ := hr.notAdvertised hres
      have h := countP_setPhase (u := s) (.done result) rfl hk (Call.departed id)
      have hadd := (hc _ (List.mem_of_getElem? hk)).addressee
      rw [hres, Call.departed_failed id hadd, Call.departed_removing] at h
      rw [hres, Nat.add_right_cancel h]
      rfl
    · refine idle rfl hk ?_ (Call.departed_done id _ hres) rfl rfl
      cases hr <;> first | rfl | exact absurd rfl hres
  | _ => simp [Signalling.changes, changeLog, sentChange, changesOf]

/-- After every run, the broadcast removals of a peer are its actual removals and those of the
handlers that wait for the map or have failed. -/
theorem departed {ok : Server → Action → Prop} (hr : server.Run ok tr s) (id : Id) :
    (changes tr).count (.remove id) =
      tr.count (.removed id) + s.calls.countP (Call.departed id) := by
  refine hr.invariant (I := fun tr s => (changes tr).count (.remove id) =
    tr.count (.removed id) + s.calls.countP (Call.departed id)) ?_ ?_
  · simp [server, Server.new, changes, changeLog, changesOf]
  · intro tr s a t evs hr h _ hs
    have hstep := (step_moves hs).departed (broadcastInv hr) (consistent hr) id
    have hch : changes (tr ++ evs) = changes tr ++ changes evs := by
      rw [changes, changeLog_append, changesOf_append]
      rfl
    rw [hch, List.count_append, List.count_append]
    omega

/-! ## Failed teardowns -/

/-- A `handle_teardown` of call `k` has returned its error. -/
def TeardownFailed (s : Server) (k : Nat) : Prop := s.At k (.done (.error Status.notAdvertised))

/-- A step that takes the map's lock to remove a peer finds it in the map. -/
def RemovesPresent (s : Server) (a : Action) : Prop :=
  ∀ id ∈ (s.phaseOf a).bind Phase.removes, id ∈ s.peers

instance (s : Server) (a : Action) : Decidable (s.RemovesPresent a) :=
  Option.decidableForallMem ((s.phaseOf a).bind Phase.removes)

/-- Teardowns are atomic on failure and announced once: a failed one has left the map alone
and broadcast nothing, and while no removal of a peer is under way, its removal was broadcast
as often as it was removed. -/
structure TeardownAtomic (steps : List (Machine.Transition Server Action Event)) (s : Server) :
    Prop where
  failed : ∀ k, s.TeardownFailed k → ∀ x ∈ steps, x.action.call = some k →
    x.target.peers = x.source.peers ∧ changes x.events = []
  once : ∀ id, ¬ s.Removing id →
    (changes (Machine.trace steps)).count (.remove id) =
      (Machine.trace steps).count (.removed id)

/-- A failed teardown stays failed, and a teardown fails by not finding its peer. -/
theorem Moves.teardownFailed (hm : s.Moves a t evs) :
    t.TeardownFailed k ↔ s.TeardownFailed k ∨ ∃ order id caller,
      a = .advance k order ∧ s.At k (.removing id caller) ∧ id ∉ s.peers := by
  constructor
  · intro h
    rcases hm.enters (by simp) h with ⟨_, hold⟩ | ⟨order, call, rfl, hk, he⟩
    · exact Or.inl hold
    · rcases he with hr | ⟨_, _, _, he⟩ | ⟨_, slot, _, _, he⟩
      · obtain ⟨request, id, caller, rfl, hmem⟩ := hr.notAdvertised rfl
        exact Or.inr ⟨order, id, caller, rfl, ⟨request, hk⟩, hmem⟩
      · exact absurd he (by decide)
      · exact absurd (congrArg Except.error he.symm) (Caller.result_ne_notAdvertised (.signal slot))
  · rintro (⟨request, hk⟩ | ⟨order, id, caller, rfl, ⟨request, hk⟩, hmem⟩)
    · exact ⟨request, hm.done hk⟩
    · rcases hm.resumes hk with ⟨hin, _⟩ | ⟨_, rfl, _⟩
      · exact absurd hin hmem
      · exact (at_setPhase hk).mpr (Or.inl ⟨rfl, rfl⟩)

/-- The removals of a run all found their peer exactly when no teardown has failed. -/
theorem removesPresent_iff {ok : Server → Action → Prop}
    {steps : List (Machine.Transition Server Action Event)} (hr : server.recorded.Run ok steps s) :
    (∀ x ∈ steps, x.source.RemovesPresent x.action) ↔ ∀ k, ¬ s.TeardownFailed k := by
  refine hr.recorded_invariant (I := fun steps s =>
    (∀ x ∈ steps, x.source.RemovesPresent x.action) ↔ ∀ k, ¬ s.TeardownFailed k) ?_ ?_
  · simp [TeardownFailed, At, server, Server.new]
  · intro steps s a t evs _ ih _ hs
    have hm := step_moves hs
    simp only [List.forall_mem_append, List.forall_mem_singleton, ih, hm.teardownFailed, not_or,
      forall_and]
    refine and_congr_right fun _ => ⟨fun h k => ?_, fun h id hid => ?_⟩
    · rintro ⟨order, id, caller, rfl, ⟨request, hk⟩, hmem⟩
      exact hmem (h id (by simp [phaseOf, Action.call, hk, Phase.removes]))
    · by_contra hmem
      cases a with
      | advance k order =>
        cases hk : s.calls[k]? with
        | none => simp [phaseOf, Action.call, hk] at hid
        | some call =>
          obtain ⟨request, phase⟩ := call
          cases phase with
          | removing x caller =>
            obtain rfl : x = id := by simpa [phaseOf, Action.call, hk, Phase.removes] using hid
            exact h k ⟨order, x, caller, rfl, ⟨request, hk⟩, hmem⟩
          | _ => simp [phaseOf, Action.call, hk, Phase.removes] at hid
      | _ => simp [phaseOf, Action.call] at hid

/-- A call that is due to broadcast a removal does so. -/
theorem Moves.departs {caller : Caller} (hm : s.Moves (.advance k order) t evs)
    (hk : s.calls[k]? = some call) (hd : Departs call id caller) :
    evs = [(s.broadcastChange (.remove id)).2] := by
  cases hm with
  | depart hj hd' =>
    rw [hk, Option.some.injEq] at hj
    subst hj
    cases hd <;> cases hd' <;> rfl
  | respond hj hr =>
    rw [hk, Option.some.injEq] at hj
    subst hj
    cases hd <;> cases hr
  | generate hj | duplicate hj _ | insert hj _ | announce hj | remove hj _ | collect hj _
  | subscribe hj | accept hj _ _ _ _ | disconnect hj _ _ _ _ | openListener hj _ _ _ =>
    rw [hk, Option.some.injEq] at hj
    cases hd <;> simp at hj

/-- A handler that waits for the map to remove a peer, or has not found it there, has broadcast
a change before. -/
theorem broadcast_first {ok : Server → Action → Prop}
    {steps : List (Machine.Transition Server Action Event)} (hr : server.recorded.Run ok steps s) :
    ∀ k, (s.TeardownFailed k ∨ ∃ id caller, s.At k (.removing id caller)) →
      ∃ x ∈ steps, x.action.call = some k ∧ changes x.events ≠ [] := by
  refine hr.recorded_invariant (I := fun steps s => ∀ k,
    (s.TeardownFailed k ∨ ∃ id caller, s.At k (.removing id caller)) →
      ∃ x ∈ steps, x.action.call = some k ∧ changes x.events ≠ []) ?_ ?_
  · simp [TeardownFailed, At, server, Server.new]
  · intro steps s a t evs hr ih _ hs k h
    have hm := step_moves hs
    have hold (hk : s.TeardownFailed k ∨ ∃ id caller, s.At k (.removing id caller)) :
        ∃ x ∈ steps ++ [⟨s, a, t, evs⟩], x.action.call = some k ∧ changes x.events ≠ [] := by
      obtain ⟨x, hx, hc⟩ := ih k hk
      exact ⟨x, List.mem_append_left _ hx, hc⟩
    rcases h with h | ⟨id, caller, h⟩
    · rcases hm.teardownFailed.mp h with h | ⟨_, id, caller, _, hk, _⟩
      · exact hold (Or.inl h)
      · exact hold (Or.inr ⟨id, caller, hk⟩)
    · rcases hm.enters (by simp) h with ⟨_, h⟩ | ⟨order, call, rfl, hk, hd⟩
      · exact hold (Or.inr ⟨id, caller, h⟩)
      · refine ⟨_, List.mem_append_right _ (List.mem_singleton_self _), rfl, ?_⟩
        have hev : evs = [(s.broadcastChange (.remove id)).2] := hm.departs hk hd
        change changes evs ≠ []
        rw [hev, changes_broadcastChange (broadcastInv hr.forget)]
        simp

/-- Without a failed teardown, the balance of a peer is settled once no removal of it is
under way. -/
theorem departed_of_not_failed (hf : ∀ k, ¬ s.TeardownFailed k) (hid : ¬ s.Removing id) :
    s.calls.countP (Call.departed id) = 0 := by
  rw [List.countP_eq_zero]
  intro c hc hdep
  obtain ⟨k, hk⟩ := List.getElem?_of_mem hc
  obtain ⟨request, phase⟩ := c
  cases phase with
  | removing x caller =>
    rw [Call.departed_removing, decide_eq_true_eq] at hdep
    exact hid ⟨_, hc, by rw [hdep]; rfl⟩
  | done result =>
    by_cases hres : result = .error Status.notAdvertised
    · exact hf k ⟨request, by rw [← hres]; exact hk⟩
    · rw [Call.departed_done id request hres] at hdep
      simp at hdep
  | _ => simp [Call.departed] at hdep

/-- Teardowns are atomic on failure and announced once if every removal finds its peer in the
map. -/
theorem teardownAtomic {ok : Server → Action → Prop}
    {steps : List (Machine.Transition Server Action Event)} (hr : server.recorded.Run ok steps s)
    (h : ∀ x ∈ steps, x.source.RemovesPresent x.action) : TeardownAtomic steps s := by
  have hf := (removesPresent_iff hr).mp h
  refine ⟨fun k hk => absurd hk (hf k), fun id hid => ?_⟩
  rw [departed hr.forget id, departed_of_not_failed hf hid, Nat.add_zero]

/-- In every run, teardowns are atomic on failure and announced once exactly when every removal
finds its peer in the map. -/
theorem teardown_atomic {steps : List (Machine.Transition Server Action Event)} {s : Server}
    (hr : server.recorded.Run Machine.Free steps s) :
    TeardownAtomic steps s ↔ ∀ x ∈ steps, x.source.RemovesPresent x.action := by
  refine ⟨fun h => ?_, teardownAtomic hr⟩
  rw [removesPresent_iff hr]
  intro k hk
  obtain ⟨x, hx, hc, hch⟩ := broadcast_first hr k (Or.inl hk)
  exact hch (h.failed k hk x hx hc).2

/-- One teardown of an advertised peer is announced once. -/
theorem teardown_atomic_once : ∃ steps s, server.recorded.Run Machine.Free steps s ∧
    (changes (Machine.trace steps)).count (.remove 0) = 1 ∧
    (Machine.trace steps).count (.removed 0) = 1 ∧ TeardownAtomic steps s := by
  obtain ⟨steps, s, hr, hc⟩ := server.recorded.exec_reaches Machine.Free
    (List.flatten [Action.handling .advertise 0 3 [], Action.handling (.teardown (some 0)) 1 2 []])
    (fun c => decide ((changes (Machine.trace c.2)).count (.remove 0) = 1 ∧
      (Machine.trace c.2).count (.removed 0) = 1 ∧
      ∀ x ∈ c.2, x.source.RemovesPresent x.action)) (by decide +kernel)
  obtain ⟨hb, hrem, hp⟩ := of_decide_eq_true hc
  exact ⟨steps, s, hr, hb, hrem, (teardown_atomic hr).mpr hp⟩

/-- A teardown of a peer that was never advertised fails and is broadcast all the same. -/
theorem teardown_broadcast_on_failure : ∃ steps s, server.recorded.Run Machine.Free steps s ∧
    ¬ TeardownAtomic steps s := by
  obtain ⟨steps, s, hr, hc⟩ := server.recorded.exec_reaches Machine.Free
    (Action.handling (.teardown (some 0)) 0 2 [])
    (fun c => decide (¬ c.1.Removing 0 ∧ (changes (Machine.trace c.2)).count (.remove 0) = 1 ∧
      (Machine.trace c.2).count (.removed 0) = 0)) (by decide +kernel)
  obtain ⟨hid, hb, hrem⟩ := of_decide_eq_true hc
  refine ⟨steps, s, hr, fun h => ?_⟩
  have hone := h.once 0 hid
  rw [hb, hrem] at hone
  simp at hone

/-! ## Teardowns of advertised peers, one at a time -/

/-- A teardown or eviction begins only when its peer is in the map and no other one has
broadcast the removal of the same peer without having removed it yet. -/
def DepartsPresent (s : Server) (a : Action) : Prop :=
  ∀ k ∈ a.call, ∀ call ∈ s.calls[k]?, ∀ id caller, Departs call id caller →
    id ∈ s.peers ∧ ¬ s.Removing id

/-- Only the handler that removes a peer takes it out of the map. -/
theorem Moves.lost (hm : s.Moves a t evs) (hx : id ∈ s.peers) (hlost : id ∉ t.peers) :
    ∃ k order request caller, a = .advance k order ∧
      s.calls[k]? = some ⟨request, .removing id caller⟩ ∧
      t = { s with peers := s.peers.erase id }.setPhase k (.done caller.result) := by
  cases hm with
  | insert _ _ | openListener _ _ _ _ =>
    exact absurd (Finmap.mem_insert.mpr (Or.inr hx)) hlost
  | @remove k order request x caller hk _ =>
    obtain rfl : x = id := by
      by_contra hne
      exact hlost (Finmap.mem_erase.mpr ⟨Ne.symm hne, hx⟩)
    exact ⟨k, order, request, caller, rfl, hk, rfl⟩
  | announce _ | depart _ _ =>
    rw [peers_setPhase, peers_broadcastChange] at hlost
    exact absurd hx hlost
  | _ => exact absurd hx hlost

/-- Every removal under way is of a peer in the map, and no other removes the same peer. -/
structure RemovingInv (s : Server) : Prop where
  present : ∀ k id caller, s.At k (.removing id caller) → id ∈ s.peers
  single : ∀ j k id caller caller', s.At j (.removing id caller) →
    s.At k (.removing id caller') → j = k

/-- A handler that removes a peer makes the server busy with the removal. -/
theorem At.removing {caller : Caller} (h : s.At k (.removing id caller)) : s.Removing id := by
  obtain ⟨request, hk⟩ := h
  exact ⟨_, List.mem_of_getElem? hk, rfl⟩

/-- Every step that begins removals in order keeps them so. -/
theorem Moves.removingInv (hm : s.Moves a t evs) (ha : s.DepartsPresent a)
    (h : RemovingInv s) : RemovingInv t := by
  have hnew {k id caller} (hk : t.At k (.removing id caller)) :
      (a.call ≠ some k ∧ s.At k (.removing id caller)) ∨
        (a.call = some k ∧ id ∈ s.peers ∧ ¬ s.Removing id) := by
    rcases hm.enters (by simp) hk with hold | ⟨order, call, rfl, hcall, hd⟩
    · exact Or.inl hold
    · exact Or.inr ⟨rfl, ha k rfl call hcall id caller hd⟩
  constructor
  · intro k id caller hk
    by_contra hlost
    have hx : id ∈ s.peers := by
      rcases hnew hk with ⟨_, hold⟩ | ⟨_, hmem, _⟩
      · exact h.present k id caller hold
      · exact hmem
    obtain ⟨j, order, request, caller', rfl, hj, rfl⟩ := hm.lost hx hlost
    rcases hnew hk with ⟨hne, hold⟩ | ⟨_, _, hnone⟩
    · exact hne (congrArg some (h.single j k id caller' caller ⟨request, hj⟩ hold))
    · exact hnone (At.removing ⟨request, hj⟩)
  · intro j k id caller caller' hj hk
    rcases hnew hj with ⟨_, hj⟩ | ⟨hja, _, hj⟩ <;> rcases hnew hk with ⟨_, hk⟩ | ⟨hka, _, hk⟩
    · exact h.single j k id caller caller' hj hk
    · exact absurd hj.removing hk
    · exact absurd hk.removing hj
    · rw [hja, Option.some.injEq] at hka
      exact hka

/-- Where teardowns and evictions begin with their peer in the map and one at a time, every
removal finds its peer, so they are atomic on failure and announced once. -/
theorem teardownAtomic_of_departsPresent
    {steps : List (Machine.Transition Server Action Event)}
    (hr : server.recorded.Run DepartsPresent steps s) : TeardownAtomic steps s := by
  have hinv {ys : List (Machine.Transition Server Action Event)} {u : Server}
      (hr : server.recorded.Run DepartsPresent ys u) : RemovingInv u := by
    refine hr.forget.invariant (I := fun _ s => RemovingInv s) ?_ ?_
    · constructor <;> simp [At, server, Server.new]
    · intro tr s a t evs _ h ha hs
      exact (step_moves hs).removingInv ha h
  refine teardownAtomic hr fun x hx => ?_
  obtain ⟨ys, zs, hsplit⟩ := List.append_of_mem hx
  have hys := (hr.split hsplit).1
  intro id hid
  rw [Option.mem_def, Option.bind_eq_some_iff] at hid
  obtain ⟨phase, hphase, hid⟩ := hid
  rw [phaseOf, Option.bind_eq_some_iff] at hphase
  obtain ⟨k, _, hk⟩ := hphase
  rw [Option.map_eq_some_iff] at hk
  obtain ⟨⟨request, phase'⟩, hk, rfl⟩ := hk
  cases phase' with
  | removing y caller =>
    rw [Phase.removes, Option.some.injEq] at hid
    rw [← hid]
    exact (hinv hys).present k y caller ⟨request, hk⟩
  | _ => simp [Phase.removes] at hid

end

end Server

end JustWebrtc.Signalling
