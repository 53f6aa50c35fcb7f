import EvolutionarySearch.Random.Cycle
import EvolutionarySearch.Random.Draw

/-!
# Every draw can happen

A draw has a range, and any value in the range is drawn from some words. So what is to hold for all
random sources must hold for all values of the draws. A value is attained when some words, whatever
stands behind them, make a draw give it and are used up by it.

* `attains_below`, `attains_pair` — an index below a bound and a pair of distinct indices
-/

namespace EvolutionarySearch.Random

variable {α : Type}

/-- Some words make a draw give a value. -/
def Attains (draw : Cycle → α × Cycle) (a : α) : Prop :=
  ∃ drawn : List UInt64, ∀ words unread, draw ⟨words, drawn ++ unread⟩ = (a, ⟨words, unread⟩)

/-! ## Words -/

theorem attains_word32 {k : Nat} (hk : k < UInt32.size) : Attains word32 k := by
  refine ⟨[UInt64.ofNat k], fun words unread => ?_⟩
  have hlow : (UInt64.ofNat k).toUInt32.toNat = k := by
    rw [UInt64.toNat_toUInt32, UInt64.toNat_ofNat']
    have hsize : UInt32.size = 2 ^ 32 := rfl
    omega
  show ((UInt64.ofNat k).toUInt32.toNat, _) = _
  rw [hlow]
  rfl

theorem attains_word64 {k : Nat} (hk : k < UInt64.size) : Attains word64 k := by
  refine ⟨[UInt64.ofNat k], fun words unread => ?_⟩
  show ((UInt64.ofNat k).toNat, _) = _
  rw [UInt64.toNat_ofNat_of_lt' hk]
  rfl

/-! ## Indices -/

/-- The least word that is scaled to an index, and what it is scaled to. -/
theorem exists_scaled {words n i : Nat} (hn : n ≤ words) (hi : i < n) :
    ∃ k < words, k * n / words = i ∧ k * n % words < n := by
  have hpos : 0 < n := by omega
  have hsplit := Nat.div_add_mod (i * words + n - 1) n
  have hrest := Nat.mod_lt (i * words + n - 1) hpos
  rw [Nat.mul_comm] at hsplit
  generalize (i * words + n - 1) / n = k at *
  have hfloor : k * n / words = i := by
    refine Nat.div_eq_of_lt_le (by omega) ?_
    rw [Nat.succ_mul]
    omega
  have hfraction := Nat.div_add_mod (k * n) words
  rw [hfloor, Nat.mul_comm] at hfraction
  refine ⟨k, ?_, hfloor, by omega⟩
  -- a word that is scaled below `n` is one of the possible ones
  have hbelow : k * n < n * words := by
    have hnext : (i + 1) * words ≤ n * words := Nat.mul_le_mul_right words hi
    rw [Nat.succ_mul] at hnext
    omega
  rw [Nat.mul_comm n] at hbelow
  exact Nat.lt_of_mul_lt_mul_right hbelow

theorem attains_scale {words n i : Nat} {next : Cycle → Nat × Cycle}
    (hnext : ∀ k < words, Attains next k) (hn : n ≤ words) (hi : i < n) :
    Attains (scale words next n) i := by
  obtain ⟨k, hk, hindex, hfraction⟩ := exists_scaled hn hi
  obtain ⟨first, hfirst⟩ := hnext k hk
  by_cases hcarry : words - n < k * n % words
  · -- a second word is read, and zero does not carry
    obtain ⟨second, hsecond⟩ := hnext 0 (by omega)
    refine ⟨first ++ second, fun all unread => ?_⟩
    have hlt : ¬words ≤ k * n % words := by omega
    unfold scale
    simp only [List.append_assoc, hfirst, hsecond, if_pos hcarry, Nat.zero_mul, Nat.zero_div,
      Nat.add_zero, if_neg hlt, hindex]
  · refine ⟨first, fun all unread => ?_⟩
    unfold scale
    simp only [hfirst, if_neg hcarry, hindex]

theorem attains_below32 {n i : Nat} (hn : n ≤ UInt32.size) (hi : i < n) :
    Attains (below32 n) i :=
  attains_scale (fun _ => attains_word32) hn hi

theorem attains_below {n i : Nat} (hn : n ≤ UInt64.size) (hi : i < n) : Attains (below n) i := by
  by_cases hsmall : n < UInt32.size
  · obtain ⟨drawn, hdrawn⟩ := attains_below32 (Nat.le_of_lt hsmall) hi
    exact ⟨drawn, fun words unread => by rw [below, if_pos hsmall, hdrawn]⟩
  · obtain ⟨drawn, hdrawn⟩ := attains_scale (fun _ => attains_word64) hn hi
    exact ⟨drawn, fun words unread => by rw [below, if_neg hsmall, hdrawn]⟩

/-! ## Pairs -/

theorem attains_pair {n i j : Nat} (hn : n ≤ UInt32.size) (hi : i < n) (hj : j < n)
    (hne : i ≠ j) : Attains (pair n) (i, j) := by
  by_cases hlast : i = n - 1
  · -- the last index comes in front when both draws meet
    obtain ⟨first, hfirst⟩ := attains_below32 (n := n - 1) (i := j) (by omega) (by omega)
    obtain ⟨second, hsecond⟩ := attains_below32 hn hj
    refine ⟨first ++ second, fun words unread => ?_⟩
    unfold pair
    simp only [List.append_assoc, hfirst, hsecond, if_true, hlast]
  · obtain ⟨first, hfirst⟩ := attains_below32 (n := n - 1) (i := i) (by omega) (by omega)
    obtain ⟨second, hsecond⟩ := attains_below32 hn hj
    refine ⟨first ++ second, fun words unread => ?_⟩
    unfold pair
    simp only [List.append_assoc, hfirst, hsecond, if_neg (Ne.symm hne)]

end EvolutionarySearch.Random
