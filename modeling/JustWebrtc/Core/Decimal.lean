import Mathlib.Tactic

/-!
# Names that end in a number

The decimal of a number is the decimal of its upper part followed by that of its lower part,
where the lower part has as many digits as its place. So two names that end in different numbers
are equal only if the name before the smaller number ends in the upper part of the larger one.
-/

namespace JustWebrtc.Decimal

/-- The number of digits of a number. -/
def places (n : Nat) : Nat := n.repr.length

theorem lt_places (n : Nat) : n < 10 ^ places n :=
  (Nat.length_repr_le_iff Nat.length_repr_pos).mp (Nat.le_refl _)

/-- The decimal of a number in two parts, the lower one with all its digits. -/
theorem repr_append {n : Nat} (hn : 0 < n) (m : Nat) :
    (10 ^ places m * n + m).repr = n.repr ++ m.repr := by
  induction m using Nat.strongRecOn with
  | ind m ih =>
    by_cases hm : m < 10
    · have hplaces : places m = 1 := by
        rw [places, Nat.repr_of_lt hm, String.length_singleton]
      have hten : 10 ≤ 10 * n + m := by omega
      rw [hplaces, pow_one, Nat.repr_eq_repr_append_repr hten]
      congr 2 <;> omega
    · rw [Nat.not_lt] at hm
      have hplaces : places m = places (m / 10) + 1 := by
        rw [places, Nat.repr_eq_repr_append_repr hm, String.length_append,
          Nat.repr_of_lt (Nat.mod_lt m (by omega)), String.length_singleton, places]
      have hten : 10 ^ places m * n + m =
          10 * (10 ^ places (m / 10) * n + m / 10) + m % 10 := by
        rw [hplaces, pow_succ]
        have hmul : 10 ^ places (m / 10) * 10 * n = 10 * (10 ^ places (m / 10) * n) := by ring
        omega
      have hpos : 1 ≤ 10 ^ places (m / 10) * n :=
        Nat.mul_pos (Nat.pow_pos (by omega)) hn
      rw [hten, Nat.repr_eq_repr_append_repr (by omega)]
      have hdiv : (10 * (10 ^ places (m / 10) * n + m / 10) + m % 10) / 10 =
          10 ^ places (m / 10) * n + m / 10 := by omega
      have hmod : (10 * (10 ^ places (m / 10) * n + m / 10) + m % 10) % 10 = m % 10 := by omega
      rw [hdiv, hmod, ih (m / 10) (by omega), String.append_assoc,
        ← Nat.repr_eq_repr_append_repr hm]

/-- The number of a decimal in two parts. -/
theorem eq_of_repr_eq_append {i j : Nat} {d : String} (h : j.repr = d ++ i.repr) :
    j = 10 ^ places i * Nat.ofDigitChars 10 d.toList 0 + i := by
  have hlist := congrArg (fun s => Nat.ofDigitChars 10 s.toList 0) h
  simp only [String.toList_append, Nat.toList_repr, Nat.ofDigitChars_append,
    Nat.ofDigitChars_ten_toDigits] at hlist
  rw [Nat.ofDigitChars_eq_ofDigitChars_zero, Nat.ofDigitChars_ten_toDigits] at hlist
  rw [places, ← String.length_toList, Nat.toList_repr]
  exact hlist

/-- The decimal of a smaller number ends that of a larger one where it is its lower part, behind
the decimal of the upper part. -/
theorem repr_eq_append_iff {i j : Nat} (hij : i < j) (d : String) :
    j.repr = d ++ i.repr ↔ j % 10 ^ places i = i ∧ d = (j / 10 ^ places i).repr := by
  have hlt := lt_places i
  constructor
  · intro h
    have hj := eq_of_repr_eq_append h
    have hpos : 0 < Nat.ofDigitChars 10 d.toList 0 := by
      rw [Nat.pos_iff_ne_zero]
      intro hzero
      rw [hzero] at hj
      omega
    generalize Nat.ofDigitChars 10 d.toList 0 = n at hj hpos
    have hmod : j % 10 ^ places i = i := by
      rw [hj, Nat.mul_add_mod, Nat.mod_eq_of_lt hlt]
    have hdiv : j / 10 ^ places i = n := by
      rw [hj, Nat.mul_add_div (by omega), Nat.div_eq_of_lt hlt, Nat.add_zero]
    refine ⟨hmod, ?_⟩
    rw [hj, repr_append hpos] at h
    rw [hdiv]
    exact (String.append_left_inj _).mp h.symm
  · rintro ⟨hmod, rfl⟩
    have hj := Nat.div_add_mod j (10 ^ places i)
    rw [hmod] at hj
    have hpos : 0 < j / 10 ^ places i := by
      rw [Nat.pos_iff_ne_zero]
      intro hzero
      rw [hzero] at hj
      omega
    rw [← repr_append hpos, hj]

/-- Two names that end in numbers are equal where the lower part of the larger number is the
smaller one and the name before that one is the other name with the upper part. -/
theorem name_eq_iff {i j : Nat} (hij : i < j) (p q : String) :
    p ++ i.repr = q ++ j.repr ↔ j % 10 ^ places i = i ∧ p = q ++ (j / 10 ^ places i).repr := by
  constructor
  · intro h
    have hlist := congrArg String.toList h
    rw [String.toList_append, String.toList_append, List.append_eq_append_iff] at hlist
    rcases hlist with ⟨d, _, hi⟩ | ⟨d, hp, hj⟩
    · have hi' : i.repr = String.ofList d ++ j.repr := by
        rw [← String.toList_inj, String.toList_append, String.toList_ofList, hi]
      have hle := eq_of_repr_eq_append hi'
      omega
    · have hj' : j.repr = String.ofList d ++ i.repr := by
        rw [← String.toList_inj, String.toList_append, String.toList_ofList, hj]
      obtain ⟨hmod, hd⟩ := (repr_eq_append_iff hij _).mp hj'
      refine ⟨hmod, ?_⟩
      rw [← String.toList_inj, String.toList_append, ← hd, String.toList_ofList, hp]
  · rintro ⟨hmod, rfl⟩
    rw [String.append_assoc, ← (repr_eq_append_iff hij _).mpr ⟨hmod, rfl⟩]

end JustWebrtc.Decimal
