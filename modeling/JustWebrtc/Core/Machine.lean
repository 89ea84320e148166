import Mathlib.Data.List.Basic

/-!
# Machines with a recorded trace

A machine is a partial step function whose steps also emit events. A run keeps the
events of all its steps in order, so a statement about a run can speak of what
happened and of the state that was reached. Every step of a run meets a condition
on the action and on the state before it; the condition that always holds gives
all runs.
-/

namespace JustWebrtc

/-- A partial labelled transition function with an initial state and emitted events. -/
structure Machine (σ α ε : Type*) where
  /-- The state before the first step. -/
  init : σ
  /-- The successor and the events of an action, or none where it is not enabled. -/
  step : σ → α → Option (σ × List ε)

namespace Machine

variable {σ α ε τ β δ : Type*}

/-- Runs whose steps all meet `ok`, indexed by their trace and their last state. -/
inductive Run (M : Machine σ α ε) (ok : σ → α → Prop) : List ε → σ → Prop
  | init : Run M ok [] M.init
  | step {tr s a t evs} : Run M ok tr s → ok s a → M.step s a = some (t, evs) →
      Run M ok (tr ++ evs) t

/-- The condition of an unrestricted run. -/
def Free : σ → α → Prop := fun _ _ => True

instance (s : σ) (a : α) : Decidable (Free s a) := inferInstanceAs (Decidable True)

variable {M : Machine σ α ε} {ok : σ → α → Prop}

/-- A stricter step condition gives fewer runs. -/
theorem Run.mono {ok' : σ → α → Prop} (h : ∀ s a, ok s a → ok' s a) {tr : List ε} {s : σ}
    (hr : M.Run ok tr s) : M.Run ok' tr s := by
  induction hr with
  | init => exact .init
  | step _ ha hs ih => exact .step ih (h _ _ ha) hs

/-- Every conditioned run is an unrestricted run. -/
theorem Run.free {tr : List ε} {s : σ} (hr : M.Run ok tr s) : M.Run Free tr s :=
  hr.mono fun _ _ _ => trivial

/-- The induction rule: a predicate on trace and state that holds at the start and is
kept by every step from a reachable state holds after every run. -/
theorem Run.invariant {I : List ε → σ → Prop} (hinit : I [] M.init)
    (hstep : ∀ {tr s a t evs}, M.Run ok tr s → I tr s → ok s a → M.step s a = some (t, evs) →
      I (tr ++ evs) t) {tr : List ε} {s : σ} (hr : M.Run ok tr s) : I tr s := by
  induction hr with
  | init => exact hinit
  | step hr ha hs ih => exact hstep hr ih ha hs

/-- An invariant may rest on a condition on the trace that no longer trace can regain. -/
theorem Run.invariant_while {P : List ε → Prop} {I : List ε → σ → Prop}
    (hshorter : ∀ tr evs, P (tr ++ evs) → P tr) (hinit : I [] M.init)
    (hstep : ∀ {tr s a t evs}, M.Run ok tr s → P tr → P (tr ++ evs) → I tr s → ok s a →
      M.step s a = some (t, evs) → I (tr ++ evs) t)
    {tr : List ε} {s : σ} (hr : M.Run ok tr s) (h : P tr) : I tr s := by
  refine hr.invariant (I := fun tr s => P tr → I tr s) (fun _ => hinit) ?_ h
  intro tr s a t evs hr ih ha hs h
  have hbefore := hshorter tr evs h
  exact hstep hr hbefore h (ih hbefore) ha hs

/-- What every step that emits `e` makes true of the events before it holds of the part of the
trace before each occurrence of `e`. -/
theorem Run.emitted {Q : List ε → Prop} {e : ε}
    (hstep : ∀ {tr s a t before after}, M.Run ok tr s → ok s a →
      M.step s a = some (t, before ++ e :: after) → Q (tr ++ before))
    {tr : List ε} {s : σ} (hr : M.Run ok tr s) :
    ∀ before after, tr = before ++ e :: after → Q before := by
  induction hr with
  | init => intro before after h; simp at h
  | @step tr s a t evs hr ha hs ih =>
    intro before after h
    rcases List.append_eq_append_iff.mp h with ⟨mid, rfl, rfl⟩ | ⟨mid, hb, he⟩
    · exact hstep hr ha hs
    · cases mid with
      | nil =>
        rw [List.append_nil] at hb
        rw [List.nil_append] at he
        subst he
        have hq : Q (tr ++ []) := @hstep tr s a t [] after hr ha hs
        rwa [List.append_nil, hb] at hq
      | cons x mid =>
        rw [List.cons_append, List.cons.injEq] at he
        rw [← he.1] at hb
        exact ih before mid hb

/-- A cause that outlasts further events, and that holds before every step emitting `e`,
holds of the part of the trace before each occurrence of `e`. -/
theorem Run.caused {Q : List ε → Prop} {e : ε} (hmono : ∀ tr evs, Q tr → Q (tr ++ evs))
    (hstep : ∀ {tr s a t evs}, M.Run ok tr s → ok s a → M.step s a = some (t, evs) →
      e ∈ evs → Q tr) {tr : List ε} {s : σ} (hr : M.Run ok tr s) :
    ∀ before after, tr = before ++ e :: after → Q before :=
  hr.emitted fun hr ha hs => hmono _ _ (hstep hr ha hs (by simp))

/-- Execute a schedule from a configuration, refusing actions that break `ok`. -/
def exec (M : Machine σ α ε) (ok : σ → α → Prop) [∀ s a, Decidable (ok s a)] :
    σ × List ε → List α → Option (σ × List ε)
  | c, [] => some c
  | (s, tr), a :: as =>
    if ok s a then
      match M.step s a with
      | some (t, evs) => exec M ok (t, tr ++ evs) as
      | none => none
    else none

/-- An unrestricted schedule is executed action by action. -/
theorem exec_cons {a : α} {as : List α} {s : σ} {tr : List ε} {d : σ × List ε} :
    M.exec Free (s, tr) (a :: as) = some d ↔
      ∃ t evs, M.step s a = some (t, evs) ∧ M.exec Free (t, tr ++ evs) as = some d := by
  have hfree : Free s a := trivial
  rw [exec, if_pos hfree]
  cases M.step s a with
  | none => simp
  | some out =>
    obtain ⟨t, evs⟩ := out
    simp

/-- An executed schedule is a run. -/
theorem Run.exec [∀ s a, Decidable (ok s a)] {as : List α} {c d : σ × List ε}
    (hr : M.Run ok c.2 c.1) (h : M.exec ok c as = some d) : M.Run ok d.2 d.1 := by
  induction as generalizing c with
  | nil =>
    have hc : c = d := by simpa only [Machine.exec, Option.some.injEq] using h
    rwa [← hc]
  | cons a as ih =>
    obtain ⟨s, tr⟩ := c
    rw [Machine.exec] at h
    split at h
    · rename_i ha
      cases hs : M.step s a with
      | none => simp only [hs, reduceCtorEq] at h
      | some p =>
        obtain ⟨t, evs⟩ := p
        rw [hs] at h
        exact ih (hr.step ha hs) h
    · simp only [reduceCtorEq] at h

/-- The configurations a schedule reaches from the initial state are reached by runs. -/
theorem exec_run [∀ s a, Decidable (ok s a)] {as : List α} {d : σ × List ε}
    (h : M.exec ok (M.init, []) as = some d) : M.Run ok d.2 d.1 :=
  Run.exec (c := (M.init, [])) Run.init h

/-- A schedule whose end passes a check gives a run whose end passes it. -/
theorem exec_reaches (M : Machine σ α ε) (ok : σ → α → Prop) [∀ s a, Decidable (ok s a)]
    (as : List α) (check : σ × List ε → Bool)
    (h : (M.exec ok (M.init, []) as).any check = true) :
    ∃ tr s, M.Run ok tr s ∧ check (s, tr) = true := by
  cases hd : M.exec ok (M.init, []) as with
  | none =>
    rw [hd] at h
    simp at h
  | some d =>
    rw [hd, Option.any_some] at h
    exact ⟨d.2, d.1, exec_run hd, h⟩

/-- A state map that turns each step into no step or one step of another machine carries
runs over, with the trace filtered to the events the other machine knows. -/
theorem Run.project {N : Machine τ β δ} {okN : τ → β → Prop} (f : σ → τ) (g : ε → Option δ)
    (hinit : f M.init = N.init)
    (hstep : ∀ {s a t evs}, ok s a → M.step s a = some (t, evs) →
      (f t = f s ∧ evs.filterMap g = []) ∨
        ∃ b, okN (f s) b ∧ N.step (f s) b = some (f t, evs.filterMap g))
    {tr : List ε} {s : σ} (hr : M.Run ok tr s) : N.Run okN (tr.filterMap g) (f s) := by
  induction hr with
  | init => rw [hinit]; exact .init
  | @step tr s a t evs hr ha hs ih =>
    rw [List.filterMap_append]
    rcases hstep ha hs with ⟨hf, hg⟩ | ⟨b, hb, hn⟩
    · rw [hf, hg, List.append_nil]
      exact ih
    · exact .step ih hb hn

/-! ## Recorded steps -/

/-- A step with the states around it. -/
structure Transition (σ α ε : Type*) where
  source : σ
  action : α
  target : σ
  events : List ε

/-- The machine with the same steps whose trace is the list of its steps. -/
def recorded (M : Machine σ α ε) : Machine σ α (Transition σ α ε) where
  init := M.init
  step s a := (M.step s a).map fun out => (out.1, [⟨s, a, out.1, out.2⟩])

/-- A recorded step is a step, recorded as it is. -/
theorem recorded_step {s t : σ} {a : α} {xs : List (Transition σ α ε)} :
    M.recorded.step s a = some (t, xs) ↔
      ∃ evs, M.step s a = some (t, evs) ∧ xs = [⟨s, a, t, evs⟩] := by
  simp only [recorded, Option.map_eq_some_iff, Prod.mk.injEq, Prod.exists]
  constructor
  · rintro ⟨t', evs, hs, rfl, rfl⟩
    exact ⟨evs, hs, rfl⟩
  · rintro ⟨evs, hs, rfl⟩
    exact ⟨t, evs, hs, rfl, rfl⟩

/-- The events of a list of steps. -/
def trace (xs : List (Transition σ α ε)) : List ε := xs.flatMap Transition.events

@[simp] theorem trace_nil : trace ([] : List (Transition σ α ε)) = [] := rfl

@[simp] theorem trace_append (xs ys : List (Transition σ α ε)) :
    trace (xs ++ ys) = trace xs ++ trace ys := List.flatMap_append

@[simp] theorem trace_singleton (x : Transition σ α ε) : trace [x] = x.events := by
  simp [trace]

/-- The steps of a recorded run make a run. -/
theorem Run.forget {xs : List (Transition σ α ε)} {s : σ} (hr : M.recorded.Run ok xs s) :
    M.Run ok (trace xs) s := by
  induction hr with
  | init => exact .init
  | step _ ha hs ih =>
    obtain ⟨evs, hstep, rfl⟩ := recorded_step.mp hs
    rw [trace_append, trace_singleton]
    exact .step ih ha hstep

/-- The induction rule for recorded runs. -/
theorem Run.recorded_invariant {I : List (Transition σ α ε) → σ → Prop} (hinit : I [] M.init)
    (hstep : ∀ {xs s a t evs}, M.recorded.Run ok xs s → I xs s → ok s a →
      M.step s a = some (t, evs) → I (xs ++ [⟨s, a, t, evs⟩]) t)
    {xs : List (Transition σ α ε)} {s : σ} (hr : M.recorded.Run ok xs s) : I xs s :=
  hr.invariant hinit fun hr h ha hs => by
    obtain ⟨evs, hs', rfl⟩ := recorded_step.mp hs
    exact hstep hr h ha hs'

/-- A recorded step was enabled, in the state that the steps before it had reached. -/
theorem Run.split {xs ys zs : List (Transition σ α ε)} {x : Transition σ α ε} {s : σ}
    (hr : M.recorded.Run ok xs s) (hx : xs = ys ++ x :: zs) :
    M.recorded.Run ok ys x.source ∧ ok x.source x.action ∧
      M.step x.source x.action = some (x.target, x.events) := by
  induction hr generalizing zs with
  | init => simp at hx
  | @step xs s a t new hr ha hs ih =>
    obtain ⟨evs, hstep, rfl⟩ := recorded_step.mp hs
    rcases List.eq_nil_or_concat zs with rfl | ⟨zs, z, rfl⟩
    · obtain ⟨rfl, hnew⟩ := List.append_inj' hx rfl
      rw [List.cons.injEq] at hnew
      rw [← hnew.1]
      exact ⟨hr, ha, hstep⟩
    · rw [List.concat_eq_append, ← List.cons_append, ← List.append_assoc] at hx
      exact ih (List.append_inj' hx rfl).1

/-- The state in which a recorded run ends. -/
theorem Run.last {xs : List (Transition σ α ε)} {s : σ} (hr : M.recorded.Run ok xs s) :
    s = (xs.getLast?.map Transition.target).getD M.init := by
  refine hr.recorded_invariant
    (I := fun xs s => s = (xs.getLast?.map Transition.target).getD M.init) rfl ?_
  intro xs s a t evs _ _ _ _
  rw [List.getLast?_concat, Option.map_some, Option.getD_some]

/-! ## Conditions on the past -/

/-- The machine with the same steps that carries its trace in its state, so that a condition on
a step can look at what has happened before it. -/
def traced (M : Machine σ α ε) : Machine (σ × List ε) α ε where
  init := (M.init, [])
  step c a := (M.step c.1 a).map fun out => ((out.1, c.2 ++ out.2), out.2)

/-- A step with its past is a step that adds its events to the past. -/
theorem traced_step {c d : σ × List ε} {a : α} {evs : List ε} :
    M.traced.step c a = some (d, evs) ↔ M.step c.1 a = some (d.1, evs) ∧ d.2 = c.2 ++ evs := by
  simp only [traced, Option.map_eq_some_iff, Prod.mk.injEq, Prod.exists]
  constructor
  · rintro ⟨t, evs', hs, rfl, rfl⟩
    exact ⟨hs, rfl⟩
  · rintro ⟨hs, hd⟩
    exact ⟨d.1, evs, hs, by rw [← hd], rfl⟩

/-- A run with its past is a run whose trace is that past. -/
theorem Run.untraced {ok : σ × List ε → α → Prop} {tr : List ε} {c : σ × List ε}
    (hr : M.traced.Run ok tr c) : c.2 = tr ∧ M.Run Free tr c.1 := by
  induction hr with
  | init => exact ⟨rfl, .init⟩
  | step _ _ hs ih =>
    obtain ⟨hstep, hd⟩ := traced_step.mp hs
    exact ⟨by rw [hd, ih.1], .step ih.2 trivial hstep⟩

end Machine

end JustWebrtc
