import Mathlib.Data.List.Chain
import JustWebrtc.Core.Machine

/-!
# Cells that are awaited

A cell holds at most one value. Setting it overwrites the value, taking it waits for one and
leaves the cell empty. So a cell gives its latest value once: what is set onto a full cell
replaces a value that nobody will see.
-/

namespace JustWebrtc

/-- A cell that is empty or holds a value. -/
structure AsyncCell (α : Type*) where
  value : Option α
  deriving DecidableEq, Repr

namespace AsyncCell

variable {α : Type*}

/-- An empty cell. -/
def new : AsyncCell α := ⟨none⟩

/-- Put a value into the cell, whatever it holds. -/
def set (_ : AsyncCell α) (x : α) : AsyncCell α := ⟨some x⟩

/-- Take the value out of the cell, if there is one. -/
def take (c : AsyncCell α) : Option (α × AsyncCell α) := c.value.map fun x => (x, new)

@[simp] theorem value_new : (new : AsyncCell α).value = none := rfl

@[simp] theorem value_set (c : AsyncCell α) (x : α) : (c.set x).value = some x := rfl

/-- A value is taken where there is one, and leaves the cell empty. -/
theorem take_eq_some {c d : AsyncCell α} {x : α} :
    c.take = some (x, d) ↔ c.value = some x ∧ d = new := by
  simp only [take, Option.map_eq_some_iff, Prod.mk.injEq]
  constructor
  · rintro ⟨y, hv, rfl, rfl⟩
    exact ⟨hv, rfl⟩
  · rintro ⟨hv, rfl⟩
    exact ⟨x, hv, rfl, rfl⟩

/-- What happens to a cell. -/
inductive Event (α : Type*)
  | set (x : α)
  | taken (x : α)
  deriving DecidableEq, Repr

/-- The value that an event sets. -/
def Event.written : Event α → Option α
  | .set x => some x
  | .taken _ => none

/-- The value that an event takes. -/
def Event.read : Event α → Option α
  | .set _ => none
  | .taken x => some x

/-- A cell whose values are set and taken in any order. -/
def machine : Machine (AsyncCell α) (Option α) (Event α) where
  init := new
  step c
    | some x => some (c.set x, [.set x])
    | none => c.take.map fun out => (out.2, [.taken out.1])

/-- A step sets a value, or takes the one that is there. -/
theorem machine_step {c d : AsyncCell α} {a : Option α} {evs : List (Event α)}
    (h : machine.step c a = some (d, evs)) :
    (∃ x, d = c.set x ∧ evs = [.set x]) ∨
      ∃ x, c.value = some x ∧ d = new ∧ evs = [.taken x] := by
  cases a with
  | some x =>
    simp only [machine, Option.some.injEq, Prod.mk.injEq] at h
    exact Or.inl ⟨x, h.1.symm, h.2.symm⟩
  | none =>
    simp only [machine, Option.map_eq_some_iff, Prod.mk.injEq, Prod.exists] at h
    obtain ⟨x, e, htake, rfl, rfl⟩ := h
    obtain ⟨hv, rfl⟩ := take_eq_some.mp htake
    exact Or.inr ⟨x, hv, rfl, rfl⟩

variable {ok : AsyncCell α → Option α → Prop} {tr : List (Event α)} {c : AsyncCell α}

/-- Behind the last value that was set, the cell holds it, or it has been taken once. -/
theorem latest (hr : machine.Run ok tr c) : ∀ {before after x}, tr = before ++ .set x :: after →
    (∀ e ∈ after, e.written = none) →
    (after = [] ∧ c.value = some x) ∨ (after = [.taken x] ∧ c.value = none) := by
  induction hr with
  | init =>
    intro before after x h
    simp at h
  | @step tr c a d evs _ _ hs ih =>
    intro before after x h hafter
    rcases machine_step hs with ⟨y, rfl, rfl⟩ | ⟨y, hv, rfl, rfl⟩
    · rcases List.eq_nil_or_concat after with rfl | ⟨after, e, rfl⟩
      · have hlast := (List.append_inj' h rfl).2
        rw [List.cons.injEq, Event.set.injEq] at hlast
        exact Or.inl ⟨rfl, by rw [value_set, hlast.1]⟩
      · rw [List.concat_eq_append, ← List.cons_append, ← List.append_assoc] at h
        have hlast := (List.append_inj' h rfl).2
        rw [List.cons.injEq] at hlast
        have hnone := hafter e (by simp)
        rw [← hlast.1] at hnone
        simp [Event.written] at hnone
    · rcases List.eq_nil_or_concat after with rfl | ⟨after, e, rfl⟩
      · have hlast := (List.append_inj' h rfl).2
        simp at hlast
      · rw [List.concat_eq_append, ← List.cons_append, ← List.append_assoc] at h
        obtain ⟨htr, hlast⟩ := List.append_inj' h rfl
        rw [List.cons.injEq] at hlast
        rcases ih htr fun e' he' => hafter e' (by simp [he']) with ⟨rfl, hx⟩ | ⟨_, hx⟩
        · rw [hv, Option.some.injEq] at hx
          subst hx
          exact Or.inr ⟨by rw [← hlast.1]; rfl, rfl⟩
        · rw [hv] at hx
          simp at hx

/-- A full cell holds the last value that was set, and nothing has happened since. -/
theorem full (hr : machine.Run ok tr c) {x : α} (h : c.value = some x) :
    ∃ before, tr = before ++ [.set x] := by
  revert h
  refine hr.invariant (I := fun tr c => c.value = some x → ∃ before, tr = before ++ [.set x]) ?_ ?_
  · intro h
    simp [machine] at h
  · intro tr c a d evs _ _ _ hs h
    rcases machine_step hs with ⟨y, rfl, rfl⟩ | ⟨y, _, rfl, rfl⟩
    · rw [value_set, Option.some.injEq] at h
      exact ⟨tr, by rw [h]⟩
    · simp at h

/-- No value is set onto another. -/
def NoOverwrite (tr : List (Event α)) : Prop :=
  tr.IsChain fun e e' => e.written = none ∨ e'.written = none

/-- What has been set and not been overwritten is what has been taken and what is there. -/
theorem taken_le (hr : machine.Run ok tr c) :
    (tr.filterMap Event.read).length + c.value.toList.length ≤
      (tr.filterMap Event.written).length := by
  refine hr.invariant (I := fun tr c => (tr.filterMap Event.read).length +
    c.value.toList.length ≤ (tr.filterMap Event.written).length) (Nat.le_refl _) ?_
  intro tr c a d evs _ h _ hs
  rw [List.filterMap_append, List.filterMap_append, List.length_append, List.length_append]
  rcases machine_step hs with ⟨x, rfl, rfl⟩ | ⟨x, hv, rfl, rfl⟩
  · have hr : [Event.set x].filterMap Event.read = [] := rfl
    have hw : [Event.set x].filterMap Event.written = [x] := rfl
    rw [hr, hw, value_set]
    simp only [List.length_nil, Option.toList_some, List.length_singleton]
    omega
  · have hr : [Event.taken x].filterMap Event.read = [x] := rfl
    have hw : [Event.taken x].filterMap Event.written = [] := rfl
    rw [hv] at h
    rw [hr, hw, value_new]
    simpa using h

/-- Everything that was set is seen, in order, if and only if no value is set onto another. -/
theorem lossless_iff (hr : machine.Run ok tr c) :
    tr.filterMap Event.read ++ c.value.toList = tr.filterMap Event.written ↔ NoOverwrite tr := by
  refine hr.invariant (I := fun tr c => tr.filterMap Event.read ++ c.value.toList =
    tr.filterMap Event.written ↔ NoOverwrite tr) (iff_of_true rfl .nil) ?_
  intro tr c a d evs hr h _ hs
  rw [NoOverwrite, List.isChain_append, List.filterMap_append, List.filterMap_append]
  rcases machine_step hs with ⟨x, rfl, rfl⟩ | ⟨x, hv, rfl, rfl⟩
  · have hread : [Event.set x].filterMap Event.read = [] := rfl
    have hw : [Event.set x].filterMap Event.written = [x] := rfl
    rw [hread, hw, value_set, List.append_nil, Option.toList_some, List.append_left_inj]
    cases hv : c.value with
    | none =>
      rw [hv, Option.toList_none, List.append_nil] at h
      rw [h, NoOverwrite]
      refine ⟨fun hno => ⟨hno, .singleton _, fun e he e' _ => Or.inl ?_⟩, And.left⟩
      cases e with
      | taken _ => rfl
      | set y =>
        obtain ⟨before, htr⟩ := List.getLast?_eq_some_iff.mp he
        rcases latest hr htr (by simp) with ⟨_, hy⟩ | ⟨hnil, _⟩
        · rw [hv] at hy
          simp at hy
        · simp at hnil
    | some y =>
      have hle := taken_le hr
      rw [hv, Option.toList_some, List.length_singleton] at hle
      refine iff_of_false (fun heq => ?_) fun hchain => ?_
      · rw [heq] at hle
        omega
      · obtain ⟨before, rfl⟩ := full hr hv
        have hlast := hchain.2.2 (.set y) (by simp) (.set x) rfl
        simp [Event.written] at hlast
  · have hread : [Event.taken x].filterMap Event.read = [x] := rfl
    have hw : [Event.taken x].filterMap Event.written = [] := rfl
    rw [hread, hw, value_new, Option.toList_none, List.append_nil, List.append_nil]
    rw [hv, Option.toList_some] at h
    rw [h, NoOverwrite]
    refine ⟨fun hno => ⟨hno, .singleton _, fun e _ e' he' => Or.inr ?_⟩, And.left⟩
    rw [List.head?_cons, Option.mem_some_iff] at he'
    rw [← he']
    rfl

/-- A value is taken right after it was set. -/
theorem taken_split (hr : machine.Run ok tr c) {x : α} : ∀ before after,
    tr = before ++ .taken x :: after → ∃ before', before = before' ++ [.set x] := by
  refine hr.emitted (Q := fun before => ∃ before', before = before' ++ [.set x]) ?_
  intro tr c a d before after hr _ hs
  rcases machine_step hs with ⟨y, _, hevs⟩ | ⟨y, hv, _, hevs⟩
  · have hmem : Event.taken x ∈ [Event.set y] := by rw [← hevs]; simp
    simp at hmem
  · rw [List.append_eq_singleton_iff] at hevs
    rcases hevs with ⟨rfl, he⟩ | ⟨_, he⟩
    · rw [List.cons.injEq, Event.taken.injEq] at he
      rw [← he.1] at hv
      rw [List.append_nil]
      exact full hr hv
    · simp at he

/-- A value is seen if and only if it was set once and nothing was set onto it. -/
theorem mem_seen_iff (hr : machine.Run ok tr c) (x : α) :
    x ∈ tr.filterMap Event.read ++ c.value.toList ↔
      ∃ before after, tr = before ++ .set x :: after ∧ ∀ e ∈ after.head?, e.written = none := by
  rw [List.mem_append, List.mem_filterMap, Option.mem_toList]
  constructor
  · rintro (⟨e, he, hx⟩ | hx)
    · cases e with
      | set y => simp [Event.read] at hx
      | taken y =>
        rw [Event.read, Option.some.injEq] at hx
        subst hx
        obtain ⟨before, after, rfl⟩ := List.append_of_mem he
        obtain ⟨before', rfl⟩ := taken_split hr before after rfl
        exact ⟨before', .taken y :: after, by simp, by simp [Event.written]⟩
    · obtain ⟨before, rfl⟩ := full hr hx
      exact ⟨before, [], rfl, by simp⟩
  · rintro ⟨before, after, rfl, hhead⟩
    cases after with
    | nil =>
      rcases latest hr rfl (by simp) with ⟨_, hx⟩ | ⟨hnil, _⟩
      · exact Or.inr hx
      · simp at hnil
    | cons e after =>
      cases e with
      | set y => simp [Event.written] at hhead
      | taken y =>
        obtain ⟨before', hb⟩ := taken_split hr (x := y) (before ++ [.set x]) after (by simp)
        obtain ⟨_, hlast⟩ := List.append_inj' hb rfl
        rw [List.cons.injEq, Event.set.injEq] at hlast
        exact Or.inl ⟨.taken y, by simp, by rw [Event.read, hlast.1]⟩

end AsyncCell

end JustWebrtc
