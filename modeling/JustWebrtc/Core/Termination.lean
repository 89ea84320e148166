import Mathlib.Algebra.BigOperators.Group.Finset.Basic
import Mathlib.Data.Fintype.BigOperators
import Mathlib.Algebra.GroupWithZero.Nat
import JustWebrtc.Core.Machine

/-!
# Machines that come to rest

The steps of a run are bounded by an account. The state owes a debt, its past has earned a
credit, and every step is paid for: the debt and the step together grow by no more than the
credit does. Where the lengths of all runs are bounded, every run goes on to a state in which
nothing more can happen. Where only the steps of a kind lead down, it goes on by these alone to a
state in which none of them can happen.
-/

namespace JustWebrtc

namespace Machine

variable {σ α ε : Type*} {M : Machine σ α ε} {ok : σ → α → Prop}

/-- No action that meets the condition is enabled. -/
def Stuck (M : Machine σ α ε) (ok : σ → α → Prop) (s : σ) : Prop :=
  ∀ a, ok s a → M.step s a = none

/-- A run whose steps are all paid for is no longer than what has been earned. -/
theorem Run.paid {debt : σ → Nat} {credit : List ε → σ → Nat}
    (hinit : debt M.init ≤ credit [] M.init)
    (hstep : ∀ {tr s a t evs}, M.Run ok tr s → ok s a → M.step s a = some (t, evs) →
      debt t + 1 + credit tr s ≤ credit (tr ++ evs) t + debt s)
    {xs : List (Transition σ α ε)} {s : σ} (hr : M.recorded.Run ok xs s) :
    xs.length + debt s ≤ credit (trace xs) s := by
  refine hr.recorded_invariant (I := fun xs s => xs.length + debt s ≤ credit (trace xs) s) ?_ ?_
  · simpa using hinit
  · intro xs s a t evs hr ih ha hs
    have hpaid := hstep hr.forget ha hs
    simp only [List.length_append, List.length_singleton, trace_append, trace_singleton]
    omega

/-- A run that is not stuck takes another step. -/
theorem Run.step_of_not_stuck {xs : List (Transition σ α ε)} {s : σ}
    (hr : M.recorded.Run ok xs s) (h : ¬ M.Stuck ok s) :
    ∃ x, M.recorded.Run ok (xs ++ [x]) x.target := by
  simp only [Stuck, not_forall] at h
  obtain ⟨a, ha, hs⟩ := h
  obtain ⟨out, hout⟩ := Option.ne_none_iff_exists'.mp hs
  exact ⟨⟨s, a, out.1, out.2⟩, hr.step ha (recorded_step.mpr ⟨out.2, hout, rfl⟩)⟩

/-- Where no run is longer than a bound, every run goes on until it is stuck. -/
theorem Run.completes {bound : Nat}
    (hbound : ∀ {xs s}, M.recorded.Run ok xs s → xs.length ≤ bound)
    {xs : List (Transition σ α ε)} {s : σ} (hr : M.recorded.Run ok xs s) :
    ∃ more t, M.recorded.Run ok (xs ++ more) t ∧ M.Stuck ok t := by
  -- the induction is on the number of steps that the bound still leaves
  induction hn : bound - xs.length generalizing xs s with
  | zero =>
    refine ⟨[], s, by rwa [List.append_nil], ?_⟩
    by_contra hstuck
    obtain ⟨x, hx⟩ := hr.step_of_not_stuck hstuck
    have hle := hbound hx
    rw [List.length_append, List.length_singleton] at hle
    omega
  | succ n ih =>
    by_cases hstuck : M.Stuck ok s
    · exact ⟨[], s, by rwa [List.append_nil], hstuck⟩
    · obtain ⟨x, hx⟩ := hr.step_of_not_stuck hstuck
      have hleft : bound - (xs ++ [x]).length = n := by
        rw [List.length_append, List.length_singleton]
        omega
      obtain ⟨more, t, ht, hrest⟩ := ih hx hleft
      exact ⟨x :: more, t, by rwa [List.append_assoc, List.singleton_append] at ht, hrest⟩

/-- Where the steps of a kind lead down, every run goes on by such steps until none is enabled. -/
theorem Run.settles {ok' : σ → α → Prop} {rank : σ → Nat} (hok : ∀ s a, ok' s a → ok s a)
    (hless : ∀ {tr s a t evs}, M.Run ok tr s → ok' s a → M.step s a = some (t, evs) →
      rank t < rank s) {xs : List (Transition σ α ε)} {s : σ} (hr : M.recorded.Run ok xs s) :
    ∃ more t, M.recorded.Run ok (xs ++ more) t ∧ M.Stuck ok' t ∧
      ∀ x ∈ more, ok' x.source x.action := by
  induction hn : rank s using Nat.strong_induction_on generalizing xs s with
  | _ n ih =>
    by_cases hstuck : M.Stuck ok' s
    · exact ⟨[], s, by rwa [List.append_nil], hstuck, by simp⟩
    · simp only [Stuck, not_forall] at hstuck
      obtain ⟨a, ha, hs⟩ := hstuck
      obtain ⟨out, hout⟩ := Option.ne_none_iff_exists'.mp hs
      have hstep : M.recorded.step s a = some (out.1, [⟨s, a, out.1, out.2⟩]) :=
        recorded_step.mpr ⟨out.2, hout, rfl⟩
      have hlt : rank out.1 < n := hn ▸ hless hr.forget ha hout
      obtain ⟨more, t, ht, hrest, hmore⟩ := ih _ hlt (hr.step (hok s a ha) hstep) rfl
      refine ⟨⟨s, a, out.1, out.2⟩ :: more, t, ?_, hrest, fun x hx => ?_⟩
      · rwa [List.append_assoc, List.singleton_append] at ht
      · rcases List.mem_cons.mp hx with rfl | hx
        · exact ha
        · exact hmore x hx

/-- Where the steps of a kind lead down, no run goes on by more of them than that. -/
theorem Run.rank_le {ok' : σ → α → Prop} {rank : σ → Nat}
    (hless : ∀ {tr s a t evs}, M.Run ok tr s → ok' s a → M.step s a = some (t, evs) →
      rank t < rank s) {xs more : List (Transition σ α ε)} {s t : σ}
    (hr : M.recorded.Run ok xs s) (hrun : M.recorded.Run ok (xs ++ more) t)
    (hmore : ∀ x ∈ more, ok' x.source x.action) : more.length + rank t ≤ rank s := by
  induction more using List.reverseRecOn generalizing t with
  | nil =>
    rw [List.append_nil] at hrun
    rw [hrun.last, hr.last, List.length_nil, Nat.zero_add]
  | append_singleton more x ih =>
    rw [← List.append_assoc] at hrun
    obtain ⟨hbefore, _, hstep⟩ := hrun.split rfl
    have hlast := hrun.last
    rw [List.getLast?_concat, Option.map_some, Option.getD_some] at hlast
    have hlt := hless hbefore.forget (hmore x (by simp)) hstep
    have hle := ih hbefore fun y hy => hmore y (List.mem_append_left _ hy)
    rw [← hlast] at hlt
    rw [List.length_append, List.length_singleton]
    omega

end Machine

/-! ## Sums and counts -/

/-- Replacing an element changes the sum by what it contributes. -/
theorem sum_map_set {α : Type*} (f : α → Nat) {l : List α} {i : Nat} {x : α} (h : l[i]? = some x)
    (y : α) : ((l.set i y).map f).sum + f x = (l.map f).sum + f y := by
  induction l generalizing i with
  | nil =>
    rw [List.getElem?_nil] at h
    exact absurd h (Option.some_ne_none x).symm
  | cons z rest ih =>
    cases i with
    | zero =>
      rw [List.getElem?_cons_zero] at h
      obtain rfl : z = x := Option.some.inj h
      simp only [List.set_cons_zero, List.map_cons, List.sum_cons]
      omega
    | succ i =>
      rw [List.getElem?_cons_succ] at h
      have hrest := ih h
      simp only [List.set_cons_succ, List.map_cons, List.sum_cons]
      omega

/-- Updating a family changes its sum by what the term contributes. -/
theorem sum_update {ι β : Type*} [Fintype ι] [DecidableEq ι] (f : β → Nat) (c : ι → β) (j : ι)
    (x : β) : (∑ i, f (Function.update c j x i)) + f (c j) = (∑ i, f (c i)) + f x := by
  have hupdate : (fun i => f (Function.update c j x i)) =
      Function.update (fun i => f (c i)) j (f x) := Function.comp_update f c j x
  rw [hupdate, Finset.sum_update_of_mem (Finset.mem_univ j),
    Finset.sum_eq_add_sum_sdiff_singleton_of_mem (Finset.mem_univ j) fun i => f (c i)]
  omega

/-- Elements that are each known by a number below a bound, and none by the number of another one,
are no more than the bound. -/
theorem countP_le_of_keys {α : Type*} {l : List α} {p : α → Bool} (key : α → Nat) {n : Nat}
    (hlt : ∀ x ∈ l, p x = true → key x < n)
    (hone : ∀ m < n, (l.countP fun x => p x && key x = m) ≤ 1) : l.countP p ≤ n := by
  have hkeys : ∀ m ∈ (l.filter p).map key, m < n := fun m hm => by
    obtain ⟨x, hx, rfl⟩ := List.mem_map.mp hm
    exact hlt x (List.mem_filter.mp hx).1 (List.mem_filter.mp hx).2
  have hnodup : ((l.filter p).map key).Nodup := by
    refine List.nodup_iff_count_le_one.mpr fun m => ?_
    by_cases hm : m ∈ (l.filter p).map key
    · refine le_trans (le_of_eq ?_) (hone m (hkeys m hm))
      rw [List.count_eq_countP, List.countP_map, List.countP_filter]
      refine List.countP_congr fun x _ => ?_
      simp [and_comm]
    · rw [List.count_eq_zero.mpr hm]
      exact Nat.zero_le _
  have hsub := hnodup.subperm fun m hm => List.mem_range.mpr (hkeys m hm)
  simpa [List.countP_eq_length_filter] using hsub.length_le

end JustWebrtc
