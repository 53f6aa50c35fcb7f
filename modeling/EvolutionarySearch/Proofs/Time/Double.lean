import EvolutionarySearch.Binary64
import Mathlib.Algebra.Order.Field.Rat
import Mathlib.Algebra.Order.Field.Power
import Mathlib.Order.WithBotTop
import Mathlib.Tactic.Linarith
import Mathlib.Tactic.Positivity
import Mathlib.Tactic.Ring

/-!
# The value of a double, read twice

`Binary64` counts a double in units of `2 ^ -1074`. Here its value is read off a second time, as a
rational number and from the sign, mantissa and exponent into which `Float` itself is taken apart,
and the two readings are shown to agree on every bit pattern.

* `unpack_unpacks` — what a bit pattern is unpacked to, by its fields
* `ofBits_eq` — both readings of a bit pattern are of the same number
* `canonical` — a mantissa has 53 bits, and fewer only at the least exponent
* `exactValue_le` — what `Float` calls less or equal is so for the values
-/

namespace EvolutionarySearch.Binary64

open Float.Model Float.Model.UnpackedFloat
open WithBotTop (coe_le_coe)

/-! ## Values -/

/-- The rational numbers with both infinities. -/
abbrev Extended := WithBotTop ℚ

/-- The infinity of a sign. -/
def infinityOf : Sign → Extended
  | .negative => ⊥
  | .positive => ⊤

/-- The value of an unpacked number; what is not a number has none. -/
def valueOf : UnpackedFloat → Option Extended
  | .notANumber => none
  | .infinity s => some (infinityOf s)
  | .zero _ => some (0 : ℚ)
  | .finite s m e _ => some ((s.apply m : ℚ) * 2 ^ e : ℚ)

/-- The exact value of a double. -/
def exactValue (x : Float) : Option Extended := valueOf x.toModel.unpack

/-! ## The fields of a bit pattern -/

theorem toNat_unpackMantissa (b : BitVec Format.binary64.numBits) :
    (unpackMantissa b).toNat = b.toNat % fractions := by
  simp [unpackMantissa, fractions]

theorem toNat_unpackExponent (b : BitVec Format.binary64.numBits) :
    (unpackExponent b).toNat = b.toNat / fractions % 2048 := by
  simp [unpackExponent, fractions, Nat.shiftRight_eq_div_pow]

theorem toNat_unpackSign (b : BitVec Format.binary64.numBits) :
    (unpackSign b).toNat = b.toNat / 0x8000000000000000 := by
  have hlt : b.toNat < 2 ^ 64 := b.isLt
  show (b.extractLsb 63 63).toNat = b.toNat / 2 ^ 63
  rw [BitVec.extractLsb_toNat, Nat.shiftRight_eq_div_pow]
  omega

/-- The implicit bit before a mantissa. -/
theorem toNat_one_append {w : Nat} (m : BitVec w) : (1#1 ++ m).toNat = 2 ^ w + m.toNat := by
  rw [BitVec.toNat_append, ← Nat.shiftLeft_add_eq_or_of_lt m.isLt]
  simp [Nat.shiftLeft_eq]

/-- Whether a sign is the minus. -/
def isMinus : Sign → Bool
  | .negative => true
  | .positive => false

theorem isMinus_ofBitVec (b : BitVec 1) : isMinus (Sign.ofBitVec b) = (b.toNat == 1) := by
  revert b
  decide

/-- The units of an unpacked number. -/
def ofUnpacked : UnpackedFloat → Binary64
  | .notANumber => nan
  | .infinity s => infinite (isMinus s)
  | .zero s => finite (isMinus s) 0
  | .finite s m e _ => finite (isMinus s) (m <<< (e + 1074).toNat)

theorem ofUnpacked_infinity (s : Sign) : ofUnpacked (.infinity s) = infinite (isMinus s) := rfl

theorem ofUnpacked_zero (s : Sign) : ofUnpacked (.zero s) = finite (isMinus s) 0 := rfl

theorem ofUnpacked_finite (s : Sign) (m : Nat) (e : Int) (hm : 0 < m) :
    ofUnpacked (.finite s m e hm) = finite (isMinus s) (m <<< (e + 1074).toNat) := rfl

theorem unpackExponent_eq_allOnes {b : BitVec Format.binary64.numBits} :
    unpackExponent b = -1#_ ↔ b.toNat / fractions % 2048 = 2047 := by
  rw [← BitVec.toNat_inj, toNat_unpackExponent]
  rfl

theorem unpackExponent_eq_zero {b : BitVec Format.binary64.numBits} :
    unpackExponent b = 0#_ ↔ b.toNat / fractions % 2048 = 0 := by
  rw [← BitVec.toNat_inj, toNat_unpackExponent]
  rfl

theorem unpackMantissa_eq_zero {b : BitVec Format.binary64.numBits} :
    unpackMantissa b = 0#_ ↔ b.toNat % fractions = 0 := by
  rw [← BitVec.toNat_inj, toNat_unpackMantissa]
  rfl

theorem isMinus_unpackSign (b : BitVec Format.binary64.numBits) :
    isMinus (Sign.ofBitVec (unpackSign b)) = (b.toNat / 0x8000000000000000 == 1) := by
  rw [isMinus_ofBitVec, toNat_unpackSign]

/-- What a bit pattern is unpacked to, by its fields. -/
inductive Unpacks (b : BitVec Format.binary64.numBits) : UnpackedFloat → Prop where
  | infinity {s : Sign} (hsign : isMinus s = (b.toNat / 0x8000000000000000 == 1))
    (hexp : b.toNat / fractions % 2048 = 2047) (hfrac : b.toNat % fractions = 0) :
    Unpacks b (.infinity s)
  | notANumber (hexp : b.toNat / fractions % 2048 = 2047) (hfrac : b.toNat % fractions ≠ 0) :
    Unpacks b .notANumber
  | zero {s : Sign} (hsign : isMinus s = (b.toNat / 0x8000000000000000 == 1))
    (hexp : b.toNat / fractions % 2048 = 0) (hfrac : b.toNat % fractions = 0) : Unpacks b (.zero s)
  | subnormal {s : Sign} {m : Nat} {e : Int} {hm : 0 < m}
    (hsign : isMinus s = (b.toNat / 0x8000000000000000 == 1))
    (hexp : b.toNat / fractions % 2048 = 0) (hmant : m = b.toNat % fractions) (he : e = -1074) :
    Unpacks b (.finite s m e hm)
  | normal {s : Sign} {m : Nat} {e : Int} {hm : 0 < m}
    (hsign : isMinus s = (b.toNat / 0x8000000000000000 == 1))
    (hones : b.toNat / fractions % 2048 ≠ 2047) (hzero : b.toNat / fractions % 2048 ≠ 0)
    (hmant : m = fractions + b.toNat % fractions)
    (he : e = (b.toNat / fractions % 2048 : Nat) - 1075) : Unpacks b (.finite s m e hm)

theorem unpack_unpacks (b : BitVec Format.binary64.numBits) :
    Unpacks b (UnpackedFloat.unpack Format.binary64 b) := by
  have hbias : (Format.binary64.exponentBias : Int) = 1023 := rfl
  have hsign := isMinus_unpackSign b
  unfold UnpackedFloat.unpack
  dsimp only
  by_cases hones : unpackExponent b = -1#_
  · rw [if_pos hones]
    have hexp := unpackExponent_eq_allOnes.mp hones
    by_cases hfrac : unpackMantissa b = 0#_
    · rw [if_pos hfrac]
      exact .infinity hsign hexp (unpackMantissa_eq_zero.mp hfrac)
    · rw [if_neg hfrac]
      exact .notANumber hexp (mt unpackMantissa_eq_zero.mpr hfrac)
  · rw [if_neg hones]
    by_cases hzero : unpackExponent b = 0#_
    · rw [if_pos hzero]
      have hexp := unpackExponent_eq_zero.mp hzero
      by_cases hfrac : unpackMantissa b = 0#_
      · rw [dif_pos hfrac]
        exact .zero hsign hexp (unpackMantissa_eq_zero.mp hfrac)
      · rw [dif_neg hfrac]
        refine .subnormal hsign hexp (toNat_unpackMantissa b) ?_
        rw [toNat_unpackExponent, hexp, hbias]
        rfl
    · rw [if_neg hzero]
      refine .normal hsign (mt unpackExponent_eq_allOnes.mpr hones)
        (mt unpackExponent_eq_zero.mpr hzero) ?_ ?_
      · rw [toNat_one_append, toNat_unpackMantissa]
        rfl
      · rw [toNat_unpackExponent, hbias]
        rfl

/-- Both readings of a bit pattern are of the same number. -/
theorem ofBits_eq (b : BitVec Format.binary64.numBits) :
    ofBits (UInt64.ofBitVec b) = ofUnpacked (UnpackedFloat.unpack Format.binary64 b) := by
  have hbits : (UInt64.ofBitVec b).toNat = b.toNat := rfl
  have hfields := unpack_unpacks b
  generalize UnpackedFloat.unpack Format.binary64 b = u at hfields ⊢
  unfold ofBits
  rw [hbits]
  dsimp only
  cases hfields with
  | infinity hsign hexp hfrac => rw [if_pos hexp, if_pos hfrac, ofUnpacked_infinity, hsign]
  | notANumber hexp hfrac =>
    rw [if_pos hexp, if_neg hfrac]
    rfl
  | zero hsign hexp hfrac =>
    rw [if_neg (by omega), if_pos hexp, hfrac, ofUnpacked_zero, hsign]
  | subnormal hsign hexp hmant he =>
    rw [if_neg (by omega), if_pos hexp, ofUnpacked_finite, hsign, hmant, he]
    rfl
  | normal hsign hones hzero hmant he =>
    have hshift : (((b.toNat / fractions % 2048 : Nat) : Int) - 1075 + 1074).toNat
        = b.toNat / fractions % 2048 - 1 := by omega
    rw [if_neg hones, if_neg hzero, ofUnpacked_finite, hsign, hmant, he, hshift]

theorem ofFloat_eq (x : Float) : ofFloat x = ofUnpacked x.toModel.unpack :=
  ofBits_eq x.toModel.toBits.toBitVec

/-! ## Mantissa and exponent -/

/-- How the mantissa and the exponent of a double go together. -/
structure Canonical (m : Nat) (e : Int) : Prop where
  lt : m < 2 ^ 53
  least : -1074 ≤ e
  full : -1074 < e → 2 ^ 52 ≤ m

theorem canonical {b : BitVec Format.binary64.numBits} {s : Sign} {m : Nat} {e : Int} {hm : 0 < m}
    (h : UnpackedFloat.unpack Format.binary64 b = .finite s m e hm) : Canonical m e := by
  have hfields := unpack_unpacks b
  rw [h] at hfields
  have hlt : b.toNat % fractions < 2 ^ 52 := Nat.mod_lt _ (by decide)
  cases hfields with
  | subnormal hsign hexp hmant he => exact ⟨by omega, by omega, by omega⟩
  | normal hsign hones hzero hmant he =>
    unfold fractions at hmant
    exact ⟨by omega, by omega, by omega⟩

theorem shiftLeft_div {e : Int} (m k : Nat) (h : -k ≤ e) :
    ((m <<< (e + k).toNat : Nat) : ℚ) / ((1 <<< k : Nat) : ℚ) = m * 2 ^ e := by
  have htwo : (2 : ℚ) ≠ 0 := two_ne_zero
  have hexp : (((e + k).toNat : Nat) : Int) = e + k := by omega
  rw [Nat.shiftLeft_eq, Nat.one_shiftLeft, Nat.cast_mul, Nat.cast_pow, Nat.cast_pow,
    Nat.cast_ofNat, ← zpow_natCast, ← zpow_natCast, hexp, zpow_add₀ htwo, ← mul_assoc,
    mul_div_cancel_right₀ _ (zpow_ne_zero _ htwo)]

theorem one_shiftLeft_pos (k : Nat) : 0 < 1 <<< k := by
  rw [Nat.one_shiftLeft]
  exact Nat.two_pow_pos k

theorem unitsPerOne_pos : 0 < unitsPerOne := one_shiftLeft_pos 1074

/-- The units of a number, divided by those of one, are its value. -/
theorem units_div {e : Int} (m : Nat) (h : -1074 ≤ e) :
    ((m <<< (e + 1074).toNat : Nat) : ℚ) / unitsPerOne = m * 2 ^ e :=
  shiftLeft_div m 1074 h

namespace Canonical

variable {m₁ m₂ : Nat} {e₁ e₂ : Int}

/-- The larger exponent has the larger value; the mantissas count below the same exponent only. -/
theorem le_of_isLE (h₁ : Canonical m₁ e₁) (h₂ : Canonical m₂ e₂)
    (h : ((compare e₁ e₂).then (compare m₁ m₂)).isLE = true) :
    (m₁ : ℚ) * 2 ^ e₁ ≤ m₂ * 2 ^ e₂ := by
  have htwo : (2 : ℚ) ≠ 0 := two_ne_zero
  rcases lt_trichotomy e₁ e₂ with hlt | rfl | hgt
  · have hm₁ : (m₁ : ℚ) ≤ 2 ^ 53 := by exact_mod_cast h₁.lt.le
    have hm₂ : (2 : ℚ) ^ 52 ≤ m₂ := by
      exact_mod_cast h₂.full (lt_of_le_of_lt h₁.least hlt)
    calc (m₁ : ℚ) * 2 ^ e₁ ≤ 2 ^ 53 * 2 ^ e₁ := by gcongr
      _ = 2 ^ 52 * 2 ^ (e₁ + 1) := by rw [zpow_add_one₀ htwo]; ring
      _ ≤ m₂ * 2 ^ e₂ := by
        gcongr
        · norm_num
        · omega
  · rw [compare_eq_iff_eq.mpr rfl, Ordering.eq_then, Nat.isLE_compare] at h
    gcongr
  · rw [compare_gt_iff_gt.mpr hgt] at h
    cases h

end Canonical

/-! ## Order -/

/-- The value that a sign makes of a magnitude. -/
theorem apply_mul (s : Sign) (m : Nat) (e : Int) :
    (s.apply m : ℚ) * 2 ^ e = if isMinus s then -((m : ℚ) * 2 ^ e) else m * 2 ^ e := by
  cases s with
  | negative => simp [Sign.apply, isMinus]
  | positive => simp [Sign.apply, isMinus]

theorem apply_mul_nonpos (m : Nat) (e : Int) : ((Sign.negative.apply m : Int) : ℚ) * 2 ^ e ≤ 0 := by
  rw [apply_mul]
  exact neg_nonpos.mpr (by positivity)

theorem apply_mul_nonneg (m : Nat) (e : Int) : 0 ≤ ((Sign.positive.apply m : Int) : ℚ) * 2 ^ e := by
  rw [apply_mul]
  show (0 : ℚ) ≤ m * 2 ^ e
  positivity

/-- Two finite numbers are compared by sign, exponent and mantissa, in this order. -/
theorem apply_mul_le {s₁ s₂ : Sign} {m₁ m₂ : Nat} {e₁ e₂ : Int} {hm₁ : 0 < m₁} {hm₂ : 0 < m₂}
    (h₁ : Canonical m₁ e₁) (h₂ : Canonical m₂ e₂)
    (h : (UnpackedFloat.finite s₁ m₁ e₁ hm₁).le (.finite s₂ m₂ e₂ hm₂) = true) :
    (s₁.apply m₁ : ℚ) * 2 ^ e₁ ≤ s₂.apply m₂ * 2 ^ e₂ := by
  match s₁, s₂ with
  | .negative, .positive => exact (apply_mul_nonpos m₁ e₁).trans (apply_mul_nonneg m₂ e₂)
  | .positive, .negative => cases h
  | .positive, .positive =>
    rw [apply_mul, apply_mul]
    exact h₁.le_of_isLE h₂ h
  | .negative, .negative =>
    have hswap : ((compare e₁ e₂).then (compare m₁ m₂)).swap.isLE = true := h
    rw [Ordering.swap_then, Int.compare_swap, Nat.compare_swap] at hswap
    rw [apply_mul, apply_mul]
    exact neg_le_neg (h₂.le_of_isLE h₁ hswap)

theorem valueOf_le {a b : UnpackedFloat}
    (ha : ∀ s m e hm, a = .finite s m e hm → Canonical m e)
    (hb : ∀ s m e hm, b = .finite s m e hm → Canonical m e) (h : a.le b = true) :
    ∃ v ∈ valueOf a, ∃ w ∈ valueOf b, v ≤ w := by
  match a, b with
  | .notANumber, _ => cases h
  | .infinity .negative, .notANumber | .infinity .positive, .notANumber | .zero _, .notANumber
  | .finite .negative .., .notANumber | .finite .positive .., .notANumber => cases h
  | .infinity .negative, .infinity _ | .infinity .negative, .zero _
  | .infinity .negative, .finite .. => exact ⟨⊥, rfl, _, rfl, bot_le⟩
  | .infinity .positive, .infinity .negative | .infinity .positive, .zero _
  | .infinity .positive, .finite .. => cases h
  | .infinity .positive, .infinity .positive => exact ⟨⊤, rfl, ⊤, rfl, le_rfl⟩
  | .zero _, .infinity .negative | .finite .negative .., .infinity .negative
  | .finite .positive .., .infinity .negative => cases h
  | .zero _, .infinity .positive | .finite .., .infinity .positive =>
    exact ⟨_, rfl, ⊤, rfl, le_top⟩
  | .zero _, .zero _ => exact ⟨_, rfl, _, rfl, le_rfl⟩
  | .zero _, .finite .negative .. | .finite .positive .., .zero _ => cases h
  | .zero _, .finite .positive m e _ =>
    exact ⟨_, rfl, _, rfl, coe_le_coe.mpr (apply_mul_nonneg m e)⟩
  | .finite .negative m e _, .zero _ =>
    exact ⟨_, rfl, _, rfl, coe_le_coe.mpr (apply_mul_nonpos m e)⟩
  | .finite s₁ m₁ e₁ hm₁, .finite s₂ m₂ e₂ hm₂ =>
    exact ⟨_, rfl, _, rfl,
      coe_le_coe.mpr (apply_mul_le (ha _ _ _ _ rfl) (hb _ _ _ _ rfl) h)⟩

theorem exactValue_le {x y : Float} (h : x ≤ y) :
    ∃ v ∈ exactValue x, ∃ w ∈ exactValue y, v ≤ w := by
  refine valueOf_le (fun _ _ _ _ => canonical) (fun _ _ _ _ => canonical) ?_
  have hle : x.toModel.le y.toModel = true := by
    simpa [LE.le, Float.le] using h
  exact hle

end EvolutionarySearch.Binary64
