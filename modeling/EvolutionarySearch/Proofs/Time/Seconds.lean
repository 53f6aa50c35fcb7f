import EvolutionarySearch.Search.Config
import EvolutionarySearch.Proofs.Time.Double
import EvolutionarySearch.Proofs.Time.Nearest
import Mathlib.Data.Rat.Floor

/-!
# A time limit in seconds

Seconds are given as a double and kept as whole nanoseconds. Every double gives a limit, and which
one depends on its exact value only: nothing that is not a positive number leaves time, what does
not fit in 64 bits of seconds gives the longest limit, and everything between is rounded once, to
the nearest nanosecond. The longest limit is for values that do not fit and not for those that are
rounded up: below `2 ^ 64`, doubles are so far apart that none comes near it.

* `ofSeconds_reads` — the limit that a double gives, by its exact value
* `Reads.mono` — a larger value has no smaller limit
* `Reads.eq_zero_iff` — which values leave no time
* `limitSeconds_exact` — the limit in a configuration, and when the configuration is refused for it
-/

namespace EvolutionarySearch

open Binary64
open WithBotTop (coe_le_coe coe_lt_coe)

namespace Duration

/-! ## What is to be read -/

/--
Seconds and nanoseconds of a limit: the fraction of the value is rounded alone, and one that is
rounded to a whole second is carried.
-/
def Carried (q : ℚ) (limit : Duration) : Prop :=
  ∃ n, NearestEven (Int.fract q * second) n ∧
    limit / second = ⌊q⌋₊ + (if n = second then 1 else 0) ∧
    limit % second = if n = second then 0 else n

/-- The limit that seconds with a given exact value are to set; there is none for a NaN. -/
inductive Reads : Option Extended → Duration → Prop where
  | nan : Reads none 0
  | negative {v : Extended} (h : v < (0 : ℚ)) : Reads (some v) 0
  | exact {q : ℚ} {limit : Duration} (hnonneg : 0 ≤ q) (hfits : q < 2 ^ 64)
      (hnear : NearestEven (q * second) limit) (hcarry : Carried q limit) :
      Reads (some (q : Extended)) limit
  | large {v : Extended} (h : ((2 ^ 64 : ℚ) : Extended) ≤ v) : Reads (some v) longest

theorem second_pos : (0 : ℚ) < second := by norm_num [second]

theorem even_mul_second (s : Nat) : Even (s * second) :=
  Even.mul_left (by decide) s

section Carry

variable {s limit : Nat}

theorem div_second (hlow : s * second ≤ limit) (hhigh : limit ≤ (s + 1) * second) :
    limit / second = s + if limit - s * second = second then 1 else 0 := by
  unfold second at hlow hhigh ⊢
  split <;> omega

theorem mod_second (hlow : s * second ≤ limit) (hhigh : limit ≤ (s + 1) * second) :
    limit % second = if limit - s * second = second then 0 else limit - s * second := by
  unfold second at hlow hhigh ⊢
  split <;> omega

end Carry

/-- Rounding the whole is rounding the fraction, because a second is an even number. -/
theorem carried_of_nearest {q : ℚ} {limit : Duration} (hq : 0 ≤ q)
    (h : NearestEven (q * second) limit) : Carried q limit := by
  have hfloor : (⌊q⌋₊ : ℚ) ≤ q := Nat.floor_le hq
  have hlow : ⌊q⌋₊ * second ≤ limit := by
    refine (NearestEven.natCast _).mono h ?_
    push_cast
    exact mul_le_mul_of_nonneg_right hfloor second_pos.le
  have hhigh : limit ≤ (⌊q⌋₊ + 1) * second := by
    refine h.mono (NearestEven.natCast _) ?_
    push_cast
    exact mul_le_mul_of_nonneg_right (Nat.lt_floor_add_one q).le second_pos.le
  have hfract : Int.fract q * second = q * second - (⌊q⌋₊ * second : ℕ) := by
    rw [Int.fract, ← natCast_floor_eq_intCast_floor hq]
    push_cast
    ring
  refine ⟨limit - ⌊q⌋₊ * second, ?_, div_second hlow hhigh, mod_second hlow hhigh⟩
  rw [hfract]
  exact h.sub_even (even_mul_second _) hlow

/-! ## What is read -/

/-- A double below `2 ^ 64` is so by one at least: it is a whole number, or far smaller. -/
theorem le_of_lt_two_pow {m : Nat} {e : Int} (hc : Canonical m e)
    (h : (m : ℚ) * 2 ^ e < 2 ^ 64) : (m : ℚ) * 2 ^ e ≤ (2 ^ 64 - 1 : ℕ) := by
  by_cases he : 0 ≤ e
  · obtain ⟨k, rfl⟩ := Int.eq_ofNat_of_zero_le he
    rw [zpow_natCast] at h ⊢
    have hlt : m * 2 ^ k < 2 ^ 64 := by exact_mod_cast h
    exact_mod_cast Nat.le_sub_one_of_lt hlt
  · have hm : (m : ℚ) ≤ 2 ^ 53 := by exact_mod_cast hc.lt.le
    have hexp : (2 : ℚ) ^ e ≤ 2 ^ (0 : Int) := zpow_le_zpow_right₀ one_le_two (by omega)
    calc (m : ℚ) * 2 ^ e ≤ 2 ^ 53 * 2 ^ (0 : Int) := by gcongr
      _ ≤ (2 ^ 64 - 1 : ℕ) := by norm_num

/-- The limit of a value that is counted in units and is no fraction below `2 ^ 64`. -/
theorem reads_of_units {units : Nat}
    (hgap : (units : ℚ) / unitsPerOne < 2 ^ 64 →
      (units : ℚ) / unitsPerOne ≤ (2 ^ 64 - 1 : ℕ)) :
    Reads (some ((units / unitsPerOne : ℚ) : Extended))
      (min (roundHalfEven (units * second) unitsPerOne) longest) := by
  have hnear := nearestEven_roundHalfEven (units * second) unitsPerOne_pos
  have hmul : ((units * second : ℕ) : ℚ) / unitsPerOne = units / unitsPerOne * second := by
    rw [Nat.cast_mul, div_mul_eq_mul_div]
  rw [hmul] at hnear
  generalize roundHalfEven (units * second) unitsPerOne = limit at hnear ⊢
  have hnonneg : (0 : ℚ) ≤ units / unitsPerOne := div_nonneg (Nat.cast_nonneg _) (Nat.cast_nonneg _)
  generalize (units : ℚ) / unitsPerOne = q at hgap hnear hnonneg ⊢
  by_cases hfits : q < 2 ^ 64
  · have hle : limit ≤ (2 ^ 64 - 1) * second := by
      refine hnear.mono (NearestEven.natCast _) ?_
      rw [Nat.cast_mul]
      exact mul_le_mul_of_nonneg_right (hgap hfits) second_pos.le
    rw [Nat.min_eq_left (hle.trans (by decide))]
    exact .exact hnonneg hfits hnear (carried_of_nearest hnonneg hnear)
  · have hge : 2 ^ 64 * second ≤ limit := by
      refine (NearestEven.natCast _).mono hnear ?_
      rw [Nat.cast_mul, Nat.cast_pow, Nat.cast_ofNat]
      exact mul_le_mul_of_nonneg_right (not_lt.mp hfits) second_pos.le
    rw [Nat.min_eq_right (le_trans (by decide) hge)]
    exact .large (coe_le_coe.mpr (not_lt.mp hfits))

theorem reads_zero : Reads (some ((0 : ℚ) : Extended)) 0 := by
  have hnear : NearestEven (0 * second) 0 := by
    rw [zero_mul]
    exact_mod_cast NearestEven.natCast 0
  exact .exact le_rfl (by norm_num) hnear (carried_of_nearest le_rfl hnear)

theorem ofBinary64_negative (units : Nat) : ofBinary64 (.finite true units) = 0 := by
  rw [ofBinary64, if_pos rfl]

theorem ofBinary64_positive (units : Nat) : ofBinary64 (.finite false units) =
    min (roundHalfEven (units * second) unitsPerOne) longest := by
  rw [ofBinary64, if_neg Bool.false_ne_true]

theorem ofSeconds_reads (x : Float) : Reads (exactValue x) (ofSeconds x) := by
  unfold exactValue ofSeconds
  rw [ofFloat_eq]
  cases h : x.toModel.unpack with
  | notANumber => exact .nan
  | infinity s =>
    cases s with
    | negative => exact .negative (WithBot.bot_lt_coe _)
    | positive => exact .large le_top
  | zero s =>
    cases s with
    | negative =>
      rw [ofUnpacked_zero, isMinus, ofBinary64_negative]
      exact reads_zero
    | positive =>
      rw [ofUnpacked_zero, isMinus, ofBinary64_positive]
      have hunits := @reads_of_units 0 fun _ => by
        rw [Nat.cast_zero, zero_div]
        exact Nat.cast_nonneg _
      rwa [Nat.cast_zero, zero_div] at hunits
  | finite s m e hm =>
    have hc : Canonical m e := canonical h
    have hpos : (0 : ℚ) < m * 2 ^ e := by positivity
    cases s with
    | negative =>
      rw [ofUnpacked_finite, isMinus, ofBinary64_negative]
      refine .negative (coe_lt_coe.mpr ?_)
      rw [apply_mul]
      exact neg_neg_of_pos hpos
    | positive =>
      rw [ofUnpacked_finite, isMinus, ofBinary64_positive]
      have hunits := @reads_of_units (m <<< (e + 1074).toNat) fun hlt => by
        rw [units_div m hc.least] at hlt ⊢
        exact le_of_lt_two_pow hc hlt
      rw [units_div m hc.least] at hunits
      exact hunits

example : ofSeconds (Float.ofBits 0x3FD0000000000000) = 250 * millisecond := by decide +kernel

theorem ofSeconds_le_longest (x : Float) : ofSeconds x ≤ longest := by
  unfold ofSeconds ofBinary64
  split
  · exact Nat.zero_le _
  · split
    · exact Nat.zero_le _
    · exact Nat.le_refl _
  · split
    · exact Nat.zero_le _
    · exact Nat.min_le_right _ _

/-! ## Order and zero -/

namespace Reads

variable {v w : Extended} {limit other : Duration}

/-- A larger value has no smaller limit, if no limit is longer than the longest. -/
theorem mono (h : Reads (some v) limit) (hother : Reads (some w) other) (hvw : v ≤ w)
    (hlongest : limit ≤ longest) : limit ≤ other := by
  cases h with
  | negative => exact Nat.zero_le _
  | @exact q _ hnonneg hfits hnear =>
    cases hother with
    | negative hneg => exact absurd (coe_lt_coe.mp (lt_of_le_of_lt hvw hneg)) (not_lt.mpr hnonneg)
    | @exact r _ _ _ hnear' =>
      exact hnear.mono hnear' (mul_le_mul_of_nonneg_right (coe_le_coe.mp hvw) second_pos.le)
    | large => exact hlongest
  | large hlarge =>
    cases hother with
    | negative hneg =>
      have hlt := coe_lt_coe.mp (lt_of_le_of_lt (hlarge.trans hvw) hneg)
      norm_num at hlt
    | @exact r _ _ hfits => exact absurd (coe_le_coe.mp (hlarge.trans hvw)) (not_le.mpr hfits)
    | large => exact Nat.le_refl _

/-- No time is left by a NaN and by what is half a nanosecond at most. -/
theorem eq_zero_iff {value : Option Extended} (h : Reads value limit) :
    limit = 0 ↔ value = none ∨ ∃ v ∈ value, v ≤ ((1 / 2 / second : ℚ) : Extended) := by
  have hhalf : (0 : ℚ) < 1 / 2 / second := div_pos one_half_pos second_pos
  cases h with
  | nan => exact ⟨fun _ => .inl rfl, fun _ => rfl⟩
  | negative hneg =>
    exact ⟨fun _ => .inr ⟨_, rfl, hneg.le.trans (coe_le_coe.mpr hhalf.le)⟩, fun _ => rfl⟩
  | @exact q _ hnonneg _ hnear =>
    rw [hnear.eq_zero_iff (mul_nonneg hnonneg second_pos.le), ← le_div_iff₀ second_pos]
    constructor
    · exact fun hle => .inr ⟨_, rfl, coe_le_coe.mpr hle⟩
    · rintro (hnone | ⟨w, hw, hle⟩)
      · cases hnone
      · cases hw
        exact coe_le_coe.mp hle
  | large hlarge =>
    constructor
    · intro hzero
      cases hzero
    · rintro (hnone | ⟨w, hw, hle⟩)
      · cases hnone
      · cases hw
        have hbig := coe_le_coe.mp (hlarge.trans hle)
        norm_num [second] at hbig

end Reads

theorem ofSeconds_mono {x y : Float} (h : x ≤ y) : ofSeconds x ≤ ofSeconds y := by
  obtain ⟨v, hv, w, hw, hvw⟩ := exactValue_le h
  have hx := ofSeconds_reads x
  have hy := ofSeconds_reads y
  rw [Option.mem_def.mp hv] at hx
  rw [Option.mem_def.mp hw] at hy
  exact hx.mono hy hvw (ofSeconds_le_longest x)

end Duration

open Duration

namespace Search.Config

/--
The limit that seconds set, by the exact value of the double: to zero, to the nearest nanosecond or
to the longest limit. It keeps the order of `Float`, and it is refused where it leaves no time.
-/
theorem limitSeconds_exact (cfg : Config) (x : Float) :
    (∃ limit, cfg.limitSeconds x = { cfg with timeLimit := some limit } ∧
      Reads (exactValue x) limit) ∧
    (∀ y limit other, x ≤ y → (cfg.limitSeconds x).timeLimit = some limit →
      (cfg.limitSeconds y).timeLimit = some other → limit ≤ other) ∧
    (0 < cfg.poolSize → ((cfg.limitSeconds x).validate = .error .zeroTimeLimit ↔
      exactValue x = none ∨ ∃ v ∈ exactValue x, v ≤ ((1 / 2 / second : ℚ) : Extended))) := by
  refine ⟨⟨ofSeconds x, rfl, ofSeconds_reads x⟩, ?_, fun hpool => ?_⟩
  · intro y limit other hxy hlimit hother
    cases hlimit
    cases hother
    exact ofSeconds_mono hxy
  · rw [← (ofSeconds_reads x).eq_zero_iff]
    unfold validate limitSeconds
    rw [if_neg (Nat.ne_of_gt hpool)]
    split
    · next hzero => simpa using hzero
    · next hzero => simpa using hzero

/-- The largest double that is not above half a nanosecond. -/
def belowHalf : Float := Float.ofBits 0x3E012E0BE826D694

/-- The double that follows `belowHalf`: it is the one nearest to half a nanosecond. -/
def aboveHalf : Float := Float.ofBits 0x3E012E0BE826D695

theorem limitSeconds_exact_half :
    (({} : Config).limitSeconds belowHalf).validate = .error .zeroTimeLimit ∧
    belowHalf ≤ aboveHalf ∧ ofSeconds belowHalf ≤ ofSeconds aboveHalf ∧
    Reads (exactValue aboveHalf) 1 := by
  have hle : belowHalf ≤ aboveHalf := by decide +kernel
  have hbelow : ∃ v ∈ exactValue belowHalf, v ≤ ((1 / 2 / second : ℚ) : Extended) :=
    ⟨_, rfl, coe_le_coe.mpr (by decide +kernel)⟩
  refine ⟨((limitSeconds_exact {} belowHalf).2.2 (by decide)).mpr (.inr hbelow), hle,
    (limitSeconds_exact {} belowHalf).2.1 aboveHalf _ _ hle rfl rfl, ?_⟩
  obtain ⟨limit, hset, hreads⟩ := (limitSeconds_exact {} aboveHalf).1
  have hone : some (ofSeconds aboveHalf) = some limit := congrArg timeLimit hset
  have hlimit : limit = 1 := by
    rw [← Option.some.inj hone]
    decide +kernel
  rwa [hlimit] at hreads

end Search.Config

end EvolutionarySearch
