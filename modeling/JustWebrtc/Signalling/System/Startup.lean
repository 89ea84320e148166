import JustWebrtc.Signalling.Server.Views
import JustWebrtc.Signalling.Server.Snapshots
import JustWebrtc.Signalling.System.Clients

/-!
# What a failed `start_peer` leaves behind

`start_peer` returns an error as soon as one of its requests does, and drops the identifier
that `advertise` has returned. Nobody tears that peer down, so its entry stays in the map
unless its `advertise` has not inserted it and never will, or somebody else removes it.
-/

namespace JustWebrtc.Signalling

variable {ι A O C : Type*} [DecidableEq ι]

/-- `start_peer` has returned an error. -/
def Client.hasFailed : Client A O C → Bool
  | .failed _ => true
  | _ => false

/-- The handler has returned an error. -/
def Call.refused (c : Call) : Bool :=
  match c.phase with
  | .done (.error _) => true
  | _ => false

/-- The handler of `advertise` is about to insert its entry. -/
def Call.inserts (c : Call) : Bool :=
  match c.phase with
  | .inserting _ => true
  | _ => false

namespace System

/-- The client and the call of an `advertise` request. -/
def Event.advertiser : Event ι A O C → Option (ι × Nat)
  | .requested j k .advertise => some (j, k)
  | _ => none

/-- Who has sent an `advertise` request, and as which call. -/
def advertisers (tr : List (Event ι A O C)) : List (ι × Nat) := tr.filterMap Event.advertiser

omit [DecidableEq ι] in
@[simp] theorem advertisers_append (tr evs : List (Event ι A O C)) :
    advertisers (tr ++ evs) = advertisers tr ++ advertisers evs := List.filterMap_append

omit [DecidableEq ι] in
theorem mem_advertisers {tr : List (Event ι A O C)} {j : ι} {k : Nat} :
    (j, k) ∈ advertisers tr ↔ Event.requested j k .advertise ∈ tr := by
  rw [advertisers, List.mem_filterMap]
  constructor
  · rintro ⟨e, he, h⟩
    cases e with
    | requested i k' request =>
      cases request with
      | advertise =>
        simp only [Event.advertiser, Option.some.injEq, Prod.mk.injEq] at h
        rwa [← h.1, ← h.2]
      | _ => simp [Event.advertiser] at h
    | _ => simp [Event.advertiser] at h
  · intro h
    exact ⟨_, h, rfl⟩

/-- The identifier that an event has inserted for an `advertise` request of client `j`. -/
def entry (tr : List (Event ι A O C)) (j : ι) : Signalling.Event → Option Id
  | .inserted k id => if (j, k) ∈ advertisers tr then some id else none
  | _ => none

/-- The identifiers that were inserted for the `advertise` requests of client `j`. -/
def entries (tr : List (Event ι A O C)) (j : ι) : List Id :=
  (serverTrace tr).filterMap (entry tr j)

theorem mem_entries {tr : List (Event ι A O C)} {j : ι} {id : Id} :
    id ∈ entries tr j ↔
      ∃ k, Event.requested j k .advertise ∈ tr ∧ .inserted k id ∈ serverTrace tr := by
  rw [entries, List.mem_filterMap]
  constructor
  · rintro ⟨e, he, h⟩
    cases e with
    | inserted k x =>
      rw [entry, Option.ite_none_right_eq_some, Option.some.injEq, mem_advertisers] at h
      exact ⟨k, h.1, h.2 ▸ he⟩
    | _ => simp [entry] at h
  · rintro ⟨k, hk, he⟩
    exact ⟨_, he, by rw [entry, if_pos (mem_advertisers.mpr hk)]⟩

/-- The client whose request ends in an error by this action. -/
def failing (s : System ι A O C) : Action ι A O C → Option ι
  | .fail j _ => some j
  | .reply j =>
    if ((s.clients j).call.bind fun k => s.server.calls[k]?).any Call.refused then some j else none
  | _ => none

/-- The call whose `advertise` handler inserts its entry by this action. -/
def inserting (s : System ι A O C) : Action ι A O C → Option Nat
  | .server (.advance k _) => if (s.server.calls[k]?).any Call.inserts then some k else none
  | _ => none

/-- `start_peer` returns its error only before its entry is inserted or after it was removed,
and no `advertise` handler inserts an entry for a `start_peer` that has returned an error. -/
def StartsClean (c : System ι A O C × List (Event ι A O C)) (a : Action ι A O C) : Prop :=
  (∀ j ∈ c.1.failing a, (c.1.clients j).starting = true →
      ∀ id ∈ entries c.2 j, .removed id ∈ serverTrace c.2) ∧
    ∀ k ∈ c.1.inserting a, ∀ q ∈ advertisers c.2, q.2 = k →
      (c.1.clients q.1).hasFailed = false

instance (c : System ι A O C × List (Event ι A O C)) (a : Action ι A O C) :
    Decidable (StartsClean c a) :=
  letI _removed (j : ι) : Decidable (∀ id ∈ entries c.2 j, .removed id ∈ serverTrace c.2) :=
    List.decidableBAll _ _
  inferInstanceAs (Decidable ((∀ j ∈ c.1.failing a, _) ∧ ∀ k ∈ c.1.inserting a, _))

/-- A `start_peer` that has returned an error leaves nothing behind: once no handler of its
requests is mid-way, no identifier allocated for it is in the map. -/
def LeavesNothing (tr : List (Event ι A O C)) (s : System ι A O C) : Prop :=
  ∀ j, (s.clients j).hasFailed = true →
    (∀ k request, Event.requested j k request ∈ tr →
      ∀ c ∈ s.server.calls[k]?, c.phase.midway = false) →
    ∀ k id, Event.requested j k .advertise ∈ tr → .allocated k id ∈ serverTrace tr →
      id ∉ s.server.peers

/-- All that was inserted for a `start_peer` that has returned an error has been removed. -/
def CleanInv (tr : List (Event ι A O C)) (s : System ι A O C) : Prop :=
  ∀ j, (s.clients j).hasFailed = true → ∀ id ∈ entries tr j, .removed id ∈ serverTrace tr

section

variable {codecs : Codecs A O C} {tr evs : List (Event ι A O C)} {s t : System ι A O C}
  {a : Action ι A O C} {j : ι}

/-- A client's `start_peer` fails by an error that ends its request. -/
theorem Moves.fails (hm : Moves codecs s a (t, evs)) (hj : a.client = some j)
    (hf : (t.clients j).hasFailed = true) :
    j ∈ s.failing a ∧ (s.clients j).starting = true ∧ evs = [] := by
  generalize hout : (t, evs) = out at hm
  have hmoved {clients : ι → Client A O C} {c : Client A O C}
      (hc : t.clients = Function.update clients j c) (hn : c.hasFailed = false) : False := by
    rw [hc, Function.update_self, hn] at hf
    simp at hf
  cases hm with
  | server _ => simp [Action.client] at hj
  | @giveUp j' k status _ hst hk ha =>
    simp only [put, Prod.mk.injEq] at hout
    rcases ha with rfl | ⟨rfl, request, hret⟩
    · obtain rfl : j' = j := Option.some.inj hj
      exact ⟨rfl, hst, hout.2⟩
    · obtain rfl : j' = j := Option.some.inj hj
      refine ⟨?_, hst, hout.2⟩
      simp [failing, hk, hret, Call.refused]
  | @start j' _ | @advertised j' _ _ _ _ | @peerListener j' _ _ _ _ _
  | @offerListener j' _ _ _ _ _ _ | @answerListener j' _ _ _ _ _ _ _ | @close j' _ _ =>
    obtain rfl : j' = j := Option.some.inj hj
    rw [Prod.mk.injEq] at hout
    exact (hmoved (congrArg System.clients hout.1) rfl).elim
  | @closed j' _ _ _ _ _ ha =>
    obtain rfl : j' = j := by
      rcases ha with rfl | rfl <;> exact Option.some.inj hj
    rw [Prod.mk.injEq] at hout
    exact (hmoved (congrArg System.clients hout.1) rfl).elim
  | @act j' _ _ _ _ o _ hh _ =>
    obtain rfl : j' = j := by
      rw [hh.client] at hj
      exact Option.some.inj hj
    rw [apply_eq, Prod.mk.injEq] at hout
    exact (hmoved (congrArg System.clients hout.1) rfl).elim

/-- What is inserted for a client by a step was requested before. -/
theorem Moves.entries (hm : Moves codecs s a (t, evs)) (hj : a.client ≠ some j) {id : Id}
    (h : id ∈ entries (tr ++ evs) j) :
    id ∈ System.entries tr j ∨ ∃ k ∈ s.inserting a, (j, k) ∈ advertisers tr := by
  obtain ⟨k, hk, hins⟩ := mem_entries.mp h
  have hk : Event.requested j k .advertise ∈ tr := by
    rcases List.mem_append.mp hk with hk | hk
    · exact hk
    · exact absurd rfl ((hm.others hj).2 _ hk)
  rw [serverTrace_append] at hins
  rcases List.mem_append.mp hins with hins | hins
  · exact Or.inl (mem_entries.mpr ⟨k, hk, hins⟩)
  · refine Or.inr ⟨k, ?_, mem_advertisers.mpr hk⟩
    rcases hm.server_moves with ⟨_, hnil⟩ | ⟨b, hb, hab⟩
    · simp [hnil] at hins
    · obtain ⟨_, _, ⟨request, hat⟩, hann⟩ := hb.inserted hins
      rcases hb.enters (by simp) hann with ⟨_, _, hold⟩ | ⟨order, _, rfl, _⟩
      · rw [hat] at hold
        simp at hold
      · rcases hab with rfl | ⟨_, _, hab, _⟩
        · simp [inserting, hat, Call.inserts]
        · simp at hab

/-- Every clean step keeps the map clean of what failed `start_peer` calls had. -/
theorem Moves.cleanInv (hm : Moves codecs s a (t, evs)) (ha : StartsClean (s, tr) a)
    (h : CleanInv tr s) : CleanInv (tr ++ evs) t := by
  intro j hf id hid
  rw [serverTrace_append, List.mem_append]
  by_cases hj : a.client = some j
  · obtain ⟨hfail, hst, rfl⟩ := hm.fails hj hf
    rw [List.append_nil] at hid
    exact Or.inl (ha.1 j hfail hst id hid)
  · rw [(hm.others hj).1] at hf
    rcases hm.entries hj hid with hid | ⟨k, hk, hadv⟩
    · exact Or.inl (h j hf id hid)
    · have hnot := ha.2 k hk (j, k) hadv rfl
      rw [hf] at hnot
      simp at hnot

/-- In every run whose steps are all clean, and in which the process draws fewer than `2 ^ 64`
identifiers, a `start_peer` that has returned an error leaves nothing behind. -/
theorem start_peer_leaves_nothing {c : System ι A O C × List (Event ι A O C)}
    (hr : (system ι codecs).traced.Run StartsClean tr c)
    (hn : allocations (serverTrace tr) < 2 ^ 64) : LeavesNothing tr c.1 := by
  have hclean : CleanInv c.2 c.1 := by
    refine hr.invariant (I := fun _ c => CleanInv c.2 c.1) ?_ ?_
    · intro j hf
      simp [Machine.traced, system, Client.hasFailed] at hf
    · intro tr s a t evs _ h ha hs
      obtain ⟨hstep, ht⟩ := Machine.traced_step.mp hs
      rw [ht]
      exact Moves.cleanInv (step_moves hstep) ha h
  obtain ⟨rfl, hrun⟩ := hr.untraced
  have hid := Server.identityInv (freeRun hrun) hn
  intro j hf _ k id hk halloc hmem
  obtain ⟨k', hins⟩ := hid.keys id hmem
  obtain rfl : k' = k := hid.once k' k id (hid.inserted k' id hins) halloc
  exact (hid.removed id (hclean j hf id (mem_entries.mpr ⟨k', hk, hins⟩))).1 hmem

/-- A `start_peer` whose entry was torn down by somebody else leaves nothing behind. -/
theorem start_peer_leaves_nothing_torn_down : ∃ tr c,
    (system Unit Codecs.unit).traced.Run StartsClean tr c ∧ entries tr () = [0] ∧
      (c.1.clients ()).hasFailed = true ∧ LeavesNothing tr c.1 := by
  obtain ⟨tr, c, hr, hc⟩ := (system Unit Codecs.unit).traced.exec_reaches StartsClean
    (List.flatten [[.start ()], Action.handling 0 3 [],
      [.server (.receive (.teardown (some 0)))], Action.handling 1 2 [],
      [.fail () ⟨.transport, "timeout"⟩]])
    (fun c => decide (entries c.2 () = [0] ∧ (c.1.1.clients ()).hasFailed = true ∧
      allocations (serverTrace c.2) = 1)) (by decide +kernel)
  obtain ⟨he, hf, hn⟩ := of_decide_eq_true hc
  exact ⟨tr, c, hr, he, hf, start_peer_leaves_nothing hr (by rw [hn]; decide)⟩

/-- A `start_peer` that times out after its `advertise` has returned leaves its entry behind. -/
theorem start_peer_leaves_entry : ∃ tr s, (system Unit Codecs.unit).Run Machine.Free tr s ∧
    ¬ LeavesNothing tr s := by
  obtain ⟨tr, s, hr, hc⟩ := (system Unit Codecs.unit).exec_reaches Machine.Free
    (List.flatten [[.start ()], Action.handling 0 3 [], [.reply ()], Action.handling 1 2 [],
      [.fail () ⟨.transport, "timeout"⟩]])
    (fun c => decide ((c.1.clients ()).hasFailed = true ∧ c.1.server.Settled ∧
      Event.requested () 0 .advertise ∈ c.2 ∧ .allocated 0 0 ∈ serverTrace c.2 ∧
      (0 : Id) ∈ c.1.server.peers)) (by decide +kernel)
  obtain ⟨hf, hq, hreq, halloc, hmem⟩ := of_decide_eq_true hc
  refine ⟨tr, s, hr, fun h => h () hf (fun k _ _ c hk => ?_) 0 0 hreq halloc hmem⟩
  exact hq c (List.mem_of_getElem? hk)

end

end System

end JustWebrtc.Signalling
