/-!
# Rounding a quotient

Exact rounding of a quotient of natural numbers to the nearest natural number, a half going to the
even neighbour. `roundHalfEven_le` and `le_roundHalfEven` say that the result is never more than
half a unit away.
-/

namespace EvolutionarySearch

/-- The natural number nearest to `num / den`; the even one when two are equally near. -/
def roundHalfEven (num den : Nat) : Nat :=
  if 2 * (num % den) < den then num / den
  else if den < 2 * (num % den) then num / den + 1
  else num / den + num / den % 2

theorem roundHalfEven_le {num den : Nat} (hden : 0 < den) :
    2 * den * roundHalfEven num den ≤ 2 * num + den := by
  have hsplit := Nat.div_add_mod num den
  have hlt := Nat.mod_lt num hden
  generalize num / den = q at *
  generalize num % den = r at *
  have hparity := Nat.mod_lt q (by omega : 0 < 2)
  unfold roundHalfEven
  subst hsplit
  have hq : (den * q + r) / den = q := by
    rw [Nat.mul_add_div hden, Nat.div_eq_of_lt hlt, Nat.add_zero]
  have hr : (den * q + r) % den = r := by
    rw [Nat.mul_add_mod, Nat.mod_eq_of_lt hlt]
  rw [hq, hr]
  split
  · rw [Nat.mul_assoc]; omega
  · split
    · rw [Nat.mul_assoc, Nat.mul_add, Nat.mul_one]; omega
    · have : den * (q % 2) ≤ den * 1 := Nat.mul_le_mul_left den (by omega)
      rw [Nat.mul_assoc, Nat.mul_add]; omega

theorem le_roundHalfEven {num den : Nat} (hden : 0 < den) :
    2 * num ≤ 2 * den * roundHalfEven num den + den := by
  have hsplit := Nat.div_add_mod num den
  have hlt := Nat.mod_lt num hden
  unfold roundHalfEven
  split
  · rw [Nat.mul_assoc]; omega
  · split
    · rw [Nat.mul_assoc, Nat.mul_add, Nat.mul_one]; omega
    · rw [Nat.mul_assoc, Nat.mul_add]; omega

end EvolutionarySearch
