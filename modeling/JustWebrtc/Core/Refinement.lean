import Mathlib.Data.List.Forall2
import JustWebrtc.Core.Machine

/-!
# Forward simulation with recorded points

A machine refines another one along a relation where each of its steps is answered by steps of
the other. The rule gives more than a run of the other machine: it cuts that run into the
pieces that answer the single steps, and the relation holds between each pair of cuts. A piece
that a step of an operation is answered by is where that operation takes effect.
-/

namespace JustWebrtc.Machine

variable {σ α ε τ β δ : Type*} {M : Machine σ α ε} {ok : σ → α → Prop}
  {N : Machine τ β δ} {okN : τ → β → Prop}

/-- The other machine has a run with the given trace that ends in a related state. -/
def Simulated (N : Machine τ β δ) (okN : τ → β → Prop)
    (R : List (Transition σ α ε) → σ → List δ → τ → Prop) (xs : List (Transition σ α ε)) (s : σ)
    (ys : List δ) : Prop :=
  ∃ u, N.Run okN ys u ∧ R xs s ys u

/-- The simulation rule. It may rest on a condition on the trace that no longer trace can
regain. -/
theorem Run.simulates {R : List (Transition σ α ε) → σ → List δ → τ → Prop}
    {Tied : Transition σ α ε → List δ → Prop} {P : List ε → Prop}
    (hshorter : ∀ tr evs, P (tr ++ evs) → P tr) (hinit : R [] M.init [] N.init)
    (hstep : ∀ {xs s a t evs ys u}, M.recorded.Run ok xs s → P (trace xs) →
      P (trace xs ++ evs) → N.Run okN ys u → R xs s ys u → ok s a → M.step s a = some (t, evs) →
      ∃ new, Tied ⟨s, a, t, evs⟩ new ∧
        N.Simulated okN R (xs ++ [⟨s, a, t, evs⟩]) t (ys ++ new))
    {xs : List (Transition σ α ε)} {s : σ} (hr : M.recorded.Run ok xs s) (h : P (trace xs)) :
    ∃ points, List.Forall₂ Tied xs points ∧ N.Simulated okN R xs s points.flatten ∧
      ∀ before x after, xs = before ++ x :: after →
        N.Simulated okN R before x.source (points.take before.length).flatten := by
  induction hr with
  | init => exact ⟨[], .nil, ⟨N.init, .init, hinit⟩, fun before x after he => by simp at he⟩
  | @step xs s a t new hr ha hs ih =>
    obtain ⟨evs, hs', rfl⟩ := recorded_step.mp hs
    rw [trace_append, trace_singleton] at h
    have hold := hshorter _ _ h
    obtain ⟨points, htied, hend, hcuts⟩ := ih hold
    obtain ⟨u, hu, hrel⟩ := hend
    obtain ⟨piece, hpiece, hnext⟩ := hstep hr hold h hu hrel ha hs'
    have hlength : xs.length = points.length := htied.length_eq
    refine ⟨points ++ [piece], List.rel_append htied (.cons hpiece .nil), ?_, ?_⟩
    · rw [List.flatten_append, List.flatten_singleton]
      exact hnext
    · intro before x after he
      rcases List.eq_nil_or_concat after with rfl | ⟨after, z, rfl⟩
      · obtain ⟨rfl, hx⟩ := List.append_inj' he rfl
        obtain rfl := (List.cons.inj hx).1
        rw [hlength, List.take_left]
        exact ⟨u, hu, hrel⟩
      · rw [List.concat_eq_append, ← List.cons_append, ← List.append_assoc] at he
        obtain ⟨rfl, _⟩ := List.append_inj' he rfl
        rw [List.take_append_of_le_length]
        · exact hcuts before x after rfl
        · rw [← hlength, List.length_append]
          exact Nat.le_add_right _ _

end JustWebrtc.Machine
