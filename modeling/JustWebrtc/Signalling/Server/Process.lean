import JustWebrtc.Signalling.Server.Identity

/-!
# Several instances in one process

`GENERATOR` is a static of the process, so all `Signalling` instances draw identifiers
from one counter. A step of an instance sees the counter as the process left it and
leaves it for the others.
-/

namespace JustWebrtc.Signalling

/-- A process: the shared counter and its instances. -/
structure Process (ι : Type) where
  generator : UInt64
  instances : ι → Server

namespace Process

variable {ι : Type} [DecidableEq ι]

/-- An instance with the counter as it stands in the process. -/
def view (p : Process ι) (j : ι) : Server := { p.instances j with generator := p.generator }

/-- One step of one instance. -/
def step (p : Process ι) (a : ι × Server.Action) : Option (Process ι × List (ι × Event)) :=
  ((p.view a.1).step a.2).map fun out =>
    ({ generator := out.1.generator, instances := Function.update p.instances a.1 out.1 },
      out.2.map (Prod.mk a.1))

end Process

/-- A process of `Signalling` instances. -/
def process (ι : Type) [DecidableEq ι] : Machine (Process ι) (ι × Server.Action) (ι × Event) where
  init := { generator := 0, instances := fun _ => Server.new }
  step := Process.step

namespace Process

variable {ι : Type} [DecidableEq ι]

/-- The events of one instance. -/
def traceOf (j : ι) (tr : List (ι × Event)) : List Event :=
  tr.filterMap fun e => if e.1 = j then some e.2 else none

/-- The number of `advertise` requests of the process that have drawn an identifier. -/
def allocations (tr : List (ι × Event)) : Nat := tr.countP fun e => e.2.isAllocated

/-- Call `k` of instance `j` has returned an identifier from `advertise`. -/
def Returned (p : Process ι) (j : ι) (k : Nat) (id : Id) : Prop :=
  (p.instances j).At k (.done (.ok (.advertise (some id))))

theorem mem_traceOf {j : ι} {tr : List (ι × Event)} {e : Event} :
    e ∈ traceOf j tr ↔ (j, e) ∈ tr := by
  simp only [traceOf, List.mem_filterMap, Option.ite_none_right_eq_some, Option.some.injEq]
  constructor
  · rintro ⟨⟨i, e'⟩, hm, rfl, rfl⟩
    exact hm
  · intro hm
    exact ⟨_, hm, rfl, rfl⟩

theorem traceOf_append_self (j : ι) (tr : List (ι × Event)) (evs : List Event) :
    traceOf j (tr ++ evs.map (Prod.mk j)) = traceOf j tr ++ evs := by
  rw [traceOf, List.filterMap_append, List.filterMap_map]
  congr 1
  induction evs with
  | nil => rfl
  | cons e evs ih => simp

theorem traceOf_append_of_ne {j j' : ι} (h : j' ≠ j) (tr : List (ι × Event)) (evs : List Event) :
    traceOf j' (tr ++ evs.map (Prod.mk j)) = traceOf j' tr := by
  rw [traceOf, List.filterMap_append, List.filterMap_map]
  have hnil : evs.filterMap ((fun e : ι × Event => if e.1 = j' then some e.2 else none) ∘
      Prod.mk j) = [] := by
    rw [List.filterMap_eq_nil_iff]
    intro e _
    simp [Ne.symm h]
  rw [hnil, List.append_nil]
  rfl

omit [DecidableEq ι] in
theorem allocations_append (j : ι) (tr : List (ι × Event)) (evs : List Event) :
    allocations (tr ++ evs.map (Prod.mk j)) = allocations tr + Signalling.allocations evs := by
  rw [allocations, List.countP_append, List.countP_map]
  rfl

/-- Every instance keeps the identity invariant at the shared counter, an identifier comes
from one instance only, and only from an `advertise` request. -/
structure Inv (tr : List (ι × Event)) (p : Process ι) : Prop where
  identity : ∀ j, (p.view j).IdentityInv (allocations tr) (traceOf j tr)
  one : ∀ j j' k k' id, (j, Event.allocated k id) ∈ tr → (j', Event.allocated k' id) ∈ tr → j = j'
  advertiser : ∀ j k id, (j, Event.allocated k id) ∈ tr →
    ∃ phase, (p.instances j).calls[k]? = some ⟨.advertise, phase⟩
  consistent : ∀ j, ∀ c ∈ (p.instances j).calls, c.Consistent

omit [DecidableEq ι] in
/-- An untouched instance only sees the counter move. -/
theorem view_of_ne {p q : Process ι} {j : ι} (h : q.instances j = p.instances j) :
    q.view j = { p.view j with generator := q.generator } := by
  simp only [view, h]

/-- One step of one instance keeps the process invariant. -/
theorem Inv.step {tr : List (ι × Event)} {p q : Process ι} {j : ι} {a : Server.Action}
    {t : Server} {evs : List Event} (h : Inv tr p)
    (hn : allocations tr + Signalling.allocations evs < 2 ^ 64)
    (hs : (p.view j).step a = some (t, evs))
    (hq : q = { generator := t.generator, instances := Function.update p.instances j t }) :
    Inv (tr ++ evs.map (Prod.mk j)) q := by
  have hm := Server.step_moves hs
  have hj := hm.identityInv (h.identity j) hn.le
  have hnew {k id} (he : Event.allocated k id ∈ evs) : id.toNat = allocations tr := by
    rw [(hm.allocated he).1, (h.identity j).generator, UInt64.toNat_ofNat']
    exact Nat.mod_eq_of_lt (by omega)
  have hold {i k id} (he : (i, Event.allocated k id) ∈ tr) : id.toNat < allocations tr :=
    (h.identity i).below k id (mem_traceOf.mpr he)
  have hmem {i : ι} {e : Event} (he : (i, e) ∈ tr ++ evs.map (Prod.mk j)) :
      (i, e) ∈ tr ∨ i = j ∧ e ∈ evs := by
    rcases List.mem_append.mp he with he | he
    · exact Or.inl he
    · obtain ⟨e', he', heq⟩ := List.mem_map.mp he
      rw [Prod.mk.injEq] at heq
      exact Or.inr ⟨heq.1.symm, heq.2 ▸ he'⟩
  have hself : q.instances j = t := by rw [hq]; exact Function.update_self j t p.instances
  have hother {i : ι} (hi : i ≠ j) : q.instances i = p.instances i := by
    rw [hq]
    exact Function.update_of_ne hi t p.instances
  have hgen : q.generator = t.generator := by rw [hq]
  refine ⟨fun i => ?_, ?_, ?_, fun i => ?_⟩
  · rw [allocations_append]
    by_cases hi : i = j
    · subst hi
      rw [traceOf_append_self, view, hself, hgen]
      exact hj
    · rw [traceOf_append_of_ne hi, view_of_ne (hother hi), hgen, hj.generator]
      exact (h.identity i).mono (Nat.le_add_right _ _)
  · intro i i' k k' id he he'
    rcases hmem he with ho | ⟨hi, hn⟩ <;> rcases hmem he' with ho' | ⟨hi', hn'⟩
    · exact h.one i i' k k' id ho ho'
    · exact absurd (hnew hn') (hold ho).ne
    · exact absurd (hnew hn) (hold ho').ne
    · rw [hi, hi']
  · intro i k id he
    by_cases hi : i = j
    · subst hi
      rw [hself]
      rcases hmem he with he | ⟨_, he⟩
      · obtain ⟨phase, hc⟩ := h.advertiser i k id he
        exact hm.request hc
      · exact hm.request (hm.allocated he).2
    · rw [hother hi]
      rcases hmem he with he | ⟨hij, _⟩
      · exact h.advertiser i k id he
      · exact absurd hij hi
  · by_cases hi : i = j
    · subst hi
      rw [hself]
      exact hm.consistent (h.consistent i)
    · rw [hother hi]
      exact h.consistent i

/-- The process invariant holds after every run in which the counter has not wrapped. -/
theorem inv {tr : List (ι × Event)} {p : Process ι}
    (hr : (process ι).Run Machine.Free tr p) (hn : allocations tr < 2 ^ 64) : Inv tr p := by
  refine hr.invariant (I := fun tr p => allocations tr < 2 ^ 64 → Inv tr p) ?_ ?_ hn
  · intro _
    refine ⟨fun j => ?_, by simp, by simp, fun j c hc => ?_⟩
    · exact Server.identityInv (Machine.Run.init : server.Run Machine.Free [] server.init)
        (by decide)
    · simp [process, Server.new] at hc
  · intro tr p a q evs _ h _ hs hn
    obtain ⟨j, a⟩ := a
    simp only [process, step, Option.map_eq_some_iff, Prod.mk.injEq] at hs
    obtain ⟨⟨t, evs'⟩, hs, rfl, rfl⟩ := hs
    rw [allocations_append] at hn
    exact (h (by omega)).step hn hs rfl

/-- Identifiers are unique and never reused, in all instances of the process at once: what
`advertise` returned is distinct, the duplicate branch is never taken, a key was allocated
by exactly one `advertise`, of its own instance, a removed identifier is no key of any
instance any more, and a signal or teardown addressed to it changes no map, no channel and
no stream and broadcasts at most its removal. -/
theorem peer_ids_unique {tr : List (ι × Event)} {p : Process ι}
    (hr : (process ι).Run Machine.Free tr p) (hn : allocations tr < 2 ^ 64) :
    (∀ j j' k k' id, p.Returned j k id → p.Returned j' k' id → j = j' ∧ k = k') ∧
      (∀ j k, (∀ id, (j, Event.duplicated k id) ∉ tr) ∧
        ¬ (p.instances j).At k (.done (.error Status.duplicateId))) ∧
      (∀ j, ∀ id ∈ (p.instances j).peers, ∃ k, (j, Event.allocated k id) ∈ tr ∧
        (∃ phase, (p.instances j).calls[k]? = some ⟨.advertise, phase⟩) ∧
        ∀ j' k', (j', Event.allocated k' id) ∈ tr → j' = j ∧ k' = k) ∧
      (∀ j id, (j, Event.removed id) ∈ tr → ∀ j', id ∉ (p.instances j').peers) ∧
      ∀ j id, (j, Event.removed id) ∈ tr → ∀ j' k order call q evs,
        (p.instances j').calls[k]? = some call → call.request.addressee = some id →
        (process ι).step p (j', .advance k order) = some (q, evs) →
        (∀ i, (q.instances i).peers = (p.instances i).peers ∧
          (q.instances i).channels = (p.instances i).channels ∧
          (q.instances i).streams = (p.instances i).streams) ∧
        ∀ e ∈ evs, ∃ sent, e = (j', .broadcast ⟨[.remove id]⟩ sent) := by
  have h := inv hr hn
  have hallocated {j k id} (hi : Event.inserted k id ∈ traceOf j tr) :
      (j, Event.allocated k id) ∈ tr := mem_traceOf.mp ((h.identity j).inserted k id hi)
  have hunique {j j' k k' id} (ha : (j, Event.allocated k id) ∈ tr)
      (ha' : (j', Event.allocated k' id) ∈ tr) : j' = j ∧ k' = k := by
    have hj : j' = j := h.one j' j k' k id ha' ha
    subst hj
    exact ⟨rfl, (h.identity j').once k' k id (mem_traceOf.mpr ha') (mem_traceOf.mpr ha)⟩
  have hgone : ∀ j id, (j, Event.removed id) ∈ tr → ∀ j', id ∉ (p.instances j').peers := by
    intro j id hrem j' hmem
    obtain ⟨hnot, k, hk⟩ := (h.identity j).removed id (mem_traceOf.mpr hrem)
    obtain ⟨k', hk'⟩ := (h.identity j').keys id hmem
    obtain ⟨rfl, _⟩ := hunique (hallocated hk) (hallocated hk')
    exact hnot hmem
  refine ⟨?_, ?_, ?_, hgone, ?_⟩
  · intro j j' k k' id hj hj'
    obtain ⟨x, hx, hi⟩ := (h.identity j).returned k (some id) hj
    obtain ⟨x', hx', hi'⟩ := (h.identity j').returned k' (some id) hj'
    rw [Option.some.injEq] at hx hx'
    subst hx hx'
    obtain ⟨hjj, hkk⟩ := hunique (hallocated hi) (hallocated hi')
    exact ⟨hjj.symm, hkk.symm⟩
  · intro j k
    exact ⟨fun id hm => (h.identity j).duplicated k id (mem_traceOf.mpr hm),
      (h.identity j).fresh k⟩
  · intro j id hmem
    obtain ⟨k, hk⟩ := (h.identity j).keys id hmem
    exact ⟨k, hallocated hk, h.advertiser j k id (hallocated hk),
      fun j' k' ha => hunique (hallocated hk) ha⟩
  · intro j id hrem j' k order call q evs hk ha hs
    simp only [process, step, Option.map_eq_some_iff, Prod.mk.injEq] at hs
    obtain ⟨⟨t, evs'⟩, hs, rfl, rfl⟩ := hs
    obtain ⟨hp, hc, hst, he⟩ := (Server.step_moves hs).absent hk
      (h.consistent j' call (List.mem_of_getElem? hk)) ha (hgone j id hrem j')
    refine ⟨fun i => ?_, ?_⟩
    · by_cases hi : i = j'
      · subst hi
        simp only [Function.update_self]
        exact ⟨hp, hc, hst⟩
      · simp only [Function.update_of_ne hi]
        exact ⟨trivial, trivial, trivial⟩
    · intro e hmem
      obtain ⟨e', he', rfl⟩ := List.mem_map.mp hmem
      obtain ⟨sent, hsent⟩ := he e' he'
      exact ⟨sent, by rw [hsent]⟩

/-- Two instances: identifier 0 of the first is torn down after the second has drawn 1. -/
theorem peer_ids_unique_two_instances : ∃ tr p, (process Bool).Run Machine.Free tr p ∧
    (false, Event.removed 0) ∈ tr ∧ (true, Event.inserted 0 1) ∈ tr ∧
    ∀ j', 0 ∉ (p.instances j').peers := by
  obtain ⟨tr, p, hr, hc⟩ := (process Bool).exec_reaches Machine.Free
    ((Server.Action.handling .advertise 0 3 []).map (Prod.mk false) ++
      (Server.Action.handling .advertise 0 3 []).map (Prod.mk true) ++
      (Server.Action.handling (.teardown (some 0)) 1 2 []).map (Prod.mk false))
    (fun c => decide (allocations c.2 = 2 ∧ (false, Event.removed 0) ∈ c.2 ∧
      (true, Event.inserted 0 1) ∈ c.2)) (by decide +kernel)
  obtain ⟨hn, hrem, hins⟩ := of_decide_eq_true hc
  have hlt : allocations tr < 2 ^ 64 := by
    rw [hn]
    decide
  exact ⟨tr, p, hr, hrem, hins, (peer_ids_unique hr hlt).2.2.2.1 false 0 hrem⟩

end Process

end JustWebrtc.Signalling
