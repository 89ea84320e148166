import Mathlib.Data.Finset.Lattice.Lemmas
import Mathlib.Tactic

/-!
# Replaying membership changes

A log of additions and removals turns a set into another one. The last change of a
member decides whether it is in; a member the log does not mention keeps its place.
-/

namespace JustWebrtc

/-- One change of a set's membership. -/
inductive Change (ι : Type*)
  | add (x : ι)
  | remove (x : ι)
  deriving DecidableEq, Repr

namespace Change

variable {ι : Type*}

/-- The member a change is about. -/
def subject : Change ι → ι
  | .add x | .remove x => x

theorem add_injective : Function.Injective (Change.add : ι → Change ι) := fun _ _ =>
  Change.add.inj

variable [DecidableEq ι]

/-- Apply one change. -/
def apply (S : Finset ι) : Change ι → Finset ι
  | .add x => insert x S
  | .remove x => S.erase x

/-- Apply a log of changes in order. -/
def replay (S : Finset ι) (cs : List (Change ι)) : Finset ι := cs.foldl apply S

@[simp] theorem replay_nil (S : Finset ι) : replay S [] = S := rfl

@[simp] theorem replay_cons (S : Finset ι) (c : Change ι) (cs : List (Change ι)) :
    replay S (c :: cs) = replay (c.apply S) cs := rfl

@[simp] theorem replay_append (S : Finset ι) (cs ds : List (Change ι)) :
    replay S (cs ++ ds) = replay (replay S cs) ds := List.foldl_append

theorem mem_apply_add {S : Finset ι} {x y : ι} : x ∈ (Change.add y).apply S ↔ x = y ∨ x ∈ S :=
  Finset.mem_insert

theorem mem_apply_remove {S : Finset ι} {x y : ι} :
    x ∈ (Change.remove y).apply S ↔ x ≠ y ∧ x ∈ S :=
  Finset.mem_erase

/-- A change leaves every other member where it is. -/
theorem mem_apply_of_ne {S : Finset ι} {c : Change ι} {x : ι} (h : c.subject ≠ x) :
    x ∈ c.apply S ↔ x ∈ S := by
  cases c with
  | add y => rw [mem_apply_add]; exact or_iff_right (Ne.symm h)
  | remove y => rw [mem_apply_remove]; exact and_iff_right (Ne.symm h)

/-- Changes of other members do not matter. -/
theorem mem_replay_of_untouched {cs : List (Change ι)} {x : ι} (h : x ∉ cs.map subject)
    (S : Finset ι) : x ∈ replay S cs ↔ x ∈ S := by
  induction cs generalizing S with
  | nil => exact Iff.rfl
  | cons c cs ih =>
    rw [List.map_cons, List.mem_cons, not_or] at h
    rw [replay_cons, ih h.2, mem_apply_of_ne (Ne.symm h.1)]

/-- A member the log mentions ends up the same whatever the log is replayed on. -/
theorem mem_replay_of_touched {cs : List (Change ι)} {x : ι} (h : x ∈ cs.map subject)
    (S T : Finset ι) : x ∈ replay S cs ↔ x ∈ replay T cs := by
  induction cs generalizing S T with
  | nil => simp at h
  | cons c cs ih =>
    rw [replay_cons, replay_cons]
    by_cases hx : x ∈ cs.map subject
    · exact ih hx _ _
    · have hc : x = c.subject := by
        rw [List.map_cons, List.mem_cons] at h
        exact h.resolve_right hx
      rw [mem_replay_of_untouched hx, mem_replay_of_untouched hx]
      cases c with
      | add y => simp [apply, hc, subject]
      | remove y => simp [apply, hc, subject]

/-- Replaying additions only adds what they name. -/
theorem replay_adds (S : Finset ι) (xs : List ι) :
    replay S (xs.map Change.add) = S ∪ xs.toFinset := by
  induction xs generalizing S with
  | nil => simp
  | cons x xs ih =>
    rw [List.map_cons, replay_cons, ih, apply, List.toFinset_cons, Finset.insert_union,
      Finset.union_insert]

end Change

end JustWebrtc
