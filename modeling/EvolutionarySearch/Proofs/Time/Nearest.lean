import EvolutionarySearch.Rounding
import Mathlib.Algebra.Group.Even
import Mathlib.Algebra.Order.Field.Rat
import Mathlib.Algebra.Order.Group.Abs
import Mathlib.Tactic.FieldSimp
import Mathlib.Tactic.Linarith
import Mathlib.Tactic.Ring

/-!
# The nearest natural number

What rounding is meant to give, said of a rational number instead of a quotient: no integer is
nearer, and of two that are equally near it is the even one. There is one such number at most, a
larger rational has no smaller one, and `roundHalfEven` finds it.

* `nearestEven_iff` — the distance is half a unit at most, and an even number has a tie
* `NearestEven.mono`, `NearestEven.unique`
* `nearestEven_roundHalfEven`
-/

namespace EvolutionarySearch

/-- No integer is nearer to `q` than `n`, and if another one is as near, `n` is even. -/
structure NearestEven (q : ℚ) (n : ℕ) : Prop where
  nearest : ∀ k : ℤ, |q - n| ≤ |q - k|
  even_of_tie : ∀ k : ℤ, k ≠ n → |q - k| = |q - n| → Even n

/-- Two different integers are at least one apart. -/
theorem one_le_abs_sub {n k : ℤ} (h : k ≠ n) : (1 : ℚ) ≤ |(n : ℚ) - k| := by
  have hone : 1 ≤ |n - k| := Int.one_le_abs (sub_ne_zero.mpr (Ne.symm h))
  exact_mod_cast hone

theorem nearestEven_iff {q : ℚ} {n : ℕ} :
    NearestEven q n ↔ |q - n| ≤ 1 / 2 ∧ (|q - n| = 1 / 2 → Even n) := by
  constructor
  · intro h
    have habove := h.nearest (n + 1)
    have hbelow := h.nearest (n - 1)
    push_cast at habove hbelow
    have hhalf : |q - n| ≤ 1 / 2 := by
      rcases abs_cases (q - n) with ⟨hn, _⟩ | ⟨hn, _⟩
      · rcases abs_cases (q - (n + 1)) with ⟨ha, _⟩ | ⟨ha, _⟩ <;> linarith
      · rcases abs_cases (q - (n - 1)) with ⟨hb, _⟩ | ⟨hb, _⟩ <;> linarith
    refine ⟨hhalf, fun htie => ?_⟩
    -- the other integer at this distance is on the far side of `q`
    rcases abs_cases (q - n) with ⟨hn, _⟩ | ⟨hn, _⟩
    · refine h.even_of_tie (n + 1) (by omega) ?_
      push_cast
      rw [htie, abs_sub_comm, abs_of_nonneg (by linarith)]
      linarith
    · refine h.even_of_tie (n - 1) (by omega) ?_
      push_cast
      rw [htie, abs_of_nonneg (by linarith)]
      linarith
  · rintro ⟨hhalf, heven⟩
    have hother : ∀ k : ℤ, k ≠ n → 1 - |q - n| ≤ |q - k| := by
      intro k hk
      have hone := one_le_abs_sub hk
      have htri := abs_sub_le (n : ℚ) q k
      rw [abs_sub_comm (n : ℚ) q] at htri
      push_cast at hone
      linarith
    constructor
    · intro k
      by_cases hk : k = n
      · rw [hk]; exact le_of_eq (by push_cast; rfl)
      · have := hother k hk
        linarith
    · intro k hk htie
      have := hother k hk
      exact heven (by linarith)

namespace NearestEven

variable {q r : ℚ} {n m : ℕ}

theorem dist_le (h : NearestEven q n) : |q - n| ≤ 1 / 2 := (nearestEven_iff.mp h).1

theorem even (h : NearestEven q n) (htie : |q - n| = 1 / 2) : Even n :=
  (nearestEven_iff.mp h).2 htie

/-- A natural number is its own nearest one. -/
theorem natCast (n : ℕ) : NearestEven n n := by
  refine nearestEven_iff.mpr ⟨?_, fun htie => ?_⟩
  · rw [sub_self, abs_zero]; norm_num
  · rw [sub_self, abs_zero] at htie; norm_num at htie

/-- A larger rational has no smaller nearest number. -/
theorem mono (hn : NearestEven q n) (hm : NearestEven r m) (hqr : q ≤ r) : n ≤ m := by
  by_contra hlt
  have hstep : (m : ℚ) + 1 ≤ n := by exact_mod_cast Nat.lt_of_not_le hlt
  have hq := (abs_le.mp hn.dist_le).1
  have hr := (abs_le.mp hm.dist_le).2
  -- both are half a unit away, from one and the same rational, so both are even
  have hnm : (n : ℚ) = m + 1 := by linarith
  have hevenN : Even n := hn.even (by rw [abs_of_nonpos (by linarith)]; linarith)
  have hevenM : Even m := hm.even (by rw [abs_of_nonneg (by linarith)]; linarith)
  have hsucc : n = m + 1 := by exact_mod_cast hnm
  rw [hsucc] at hevenN
  exact (Nat.even_add_one.mp hevenN) hevenM

theorem unique (hn : NearestEven q n) (hm : NearestEven q m) : n = m :=
  Nat.le_antisymm (hn.mono hm le_rfl) (hm.mono hn le_rfl)

/-- An even number on both sides takes nothing from the distance and leaves parity as it is. -/
theorem sub_even {k : ℕ} (h : NearestEven q n) (hk : Even k) (hle : k ≤ n) :
    NearestEven (q - k) (n - k) := by
  have hdist : q - k - ((n - k : ℕ) : ℚ) = q - n := by
    rw [Nat.cast_sub hle]; ring
  refine nearestEven_iff.mpr ⟨?_, fun htie => ?_⟩
  · rw [hdist]; exact h.dist_le
  · rw [hdist] at htie
    exact (Nat.even_sub hle).mpr ⟨fun _ => hk, fun _ => h.even htie⟩

/-- The numbers that are rounded to zero. -/
theorem eq_zero_iff (h : NearestEven q n) (hq : 0 ≤ q) : n = 0 ↔ q ≤ 1 / 2 := by
  constructor
  · rintro rfl
    have hhalf := h.dist_le
    rw [Nat.cast_zero, sub_zero, abs_of_nonneg hq] at hhalf
    exact hhalf
  · intro hhalf
    refine h.unique (nearestEven_iff.mpr ⟨?_, fun _ => Even.zero⟩)
    rwa [Nat.cast_zero, sub_zero, abs_of_nonneg hq]

end NearestEven

/-- Half a unit away from a quotient, above or below, only an even number is chosen. -/
theorem even_roundHalfEven_of_tie {num den : Nat} (hden : 0 < den)
    (htie : 2 * num = 2 * (den * roundHalfEven num den) + den ∨
      2 * num + den = 2 * (den * roundHalfEven num den)) : Even (roundHalfEven num den) := by
  have hsplit := Nat.div_add_mod num den
  have hlt := Nat.mod_lt num hden
  unfold roundHalfEven at htie ⊢
  split at htie
  · omega
  · split at htie
    · rw [Nat.mul_add, Nat.mul_one] at htie
      omega
    · rw [if_neg ‹_›, if_neg ‹_›, Nat.even_iff]
      omega

theorem nearestEven_roundHalfEven (num : Nat) {den : Nat} (hden : 0 < den) :
    NearestEven (num / den) (roundHalfEven num den) := by
  have hpos : (0 : ℚ) < 2 * den := by exact_mod_cast Nat.mul_pos two_pos hden
  have hdist : ((num : ℚ) / den - roundHalfEven num den) * (2 * den) =
      2 * num - 2 * (den * roundHalfEven num den) := by
    field_simp
  have hle : (2 : ℚ) * den * roundHalfEven num den ≤ 2 * num + den := by
    exact_mod_cast roundHalfEven_le hden
  have hge : (2 : ℚ) * num ≤ 2 * den * roundHalfEven num den + den := by
    exact_mod_cast le_roundHalfEven hden
  refine nearestEven_iff.mpr ⟨?_, fun htie => even_roundHalfEven_of_tie hden ?_⟩
  · refine abs_le.mpr ⟨le_of_mul_le_mul_right ?_ hpos, le_of_mul_le_mul_right ?_ hpos⟩
    · rw [hdist]; linarith
    · rw [hdist]; linarith
  · rcases eq_or_eq_neg_of_abs_eq htie with htie | htie
    · rw [htie] at hdist
      left
      have : (2 : ℚ) * num = 2 * (den * roundHalfEven num den) + den := by linarith
      exact_mod_cast this
    · rw [htie] at hdist
      right
      have : (2 : ℚ) * num + den = 2 * (den * roundHalfEven num den) := by linarith
      exact_mod_cast this

end EvolutionarySearch
