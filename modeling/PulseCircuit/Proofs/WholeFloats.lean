import PulseCircuit.Json.Numeral
import Mathlib.Tactic.NormNum

/-!
# Whole numbers in machine arithmetic

Before a union is taken in, every number in it is reckoned as a floating-point number, ids and
timings included. A whole number of 64 bits is never too large for one: its exponent stays small
through rounding (`tame_round`), packing (`tame_unpack_pack`) and the multiplication by one that
ends the reckoning (`isInf_mul_one`). The bounds are coarse, as only infinity has to be kept away.
-/

namespace PulseCircuit.Json

open Float.Model Float.Model.UnpackedFloat

/-! ## Rounding -/

/-- Neither infinite nor undefined, and written with an exponent that is not above a bound. -/
def Tame (bound : Int) : UnpackedFloat → Prop
  | .infinity _ | .notANumber => False
  | .zero _ => True
  | .finite _ _ e _ => e ≤ bound

theorem Tame.mono {a b : Int} {f : UnpackedFloat} (h : Tame a f) (hab : a ≤ b) : Tame b f := by
  cases f with
  | infinity s => exact h
  | notANumber => exact h
  | zero s => exact h
  | finite s m e hm => exact Int.le_trans h hab

theorem mantissa_shiftRight_le (em : ExtendedMantissa) (n : Nat) :
    (em >>> n).mantissa ≤ em.mantissa := by
  induction n with
  | zero => exact Nat.le_refl _
  | succ n ih =>
    show (em >>> n).mantissa / 2 ≤ em.mantissa
    omega

theorem roundedMantissa_le (em : ExtendedMantissa) : em.roundedMantissa ≤ em.mantissa + 1 := by
  obtain ⟨m, round, sticky⟩ := em
  cases round <;> cases sticky <;>
    simp only [ExtendedMantissa.roundedMantissa, ExtendedMantissa.accuracy,
      Accuracy.roundToNearestEven] <;> omega

theorem log2_le_of_lt {m k : Nat} (h : m < 2 ^ (k + 1)) : m.log2 ≤ k := by
  by_cases hm : m = 0
  · simp [hm]
  · exact Nat.lt_succ_iff.mp ((Nat.log2_lt hm).mpr h)

/-- Shifting to the format raises the exponent by no more than the mantissa has bits, unless the exponent was
below the format. -/
theorem shiftToTargetExponent_le (m : Nat) (e : Int) :
    (shiftToTargetExponent .binary64 m e .exact).1.mantissa ≤ m ∧
      (shiftToTargetExponent .binary64 m e .exact).2 ≤ max e (-1074) + m.log2 := by
  constructor
  · exact mantissa_shiftRight_le _ _
  · have hbits : Format.mantissaBits .binary64 = 53 := rfl
    simp only [shiftToTargetExponent, shiftToExponent, Format.targetExponent, totalExponent, hbits,
      Format.minExponent]
    norm_num
    omega

theorem tame_roundWithAccuracy (s : Sign) (m : Nat) (e : Int) :
    Tame (max e (-1074) + 2 * m.log2 + 1) (roundWithAccuracy .binary64 s m e .exact) := by
  have hfirst := shiftToTargetExponent_le m e
  unfold roundWithAccuracy
  generalize shiftToTargetExponent .binary64 m e .exact = first at hfirst
  obtain ⟨em, e₁⟩ := first
  obtain ⟨hm : em.mantissa ≤ m, he : e₁ ≤ _⟩ := hfirst
  -- Rounding up may carry into one more bit.
  have hlog : em.roundedMantissa.log2 ≤ m.log2 + 1 := by
    have hround := roundedMantissa_le em
    have hbits : m < 2 ^ (m.log2 + 1) := Nat.lt_log2_self
    apply log2_le_of_lt
    rw [Nat.pow_succ]
    omega
  have hsecond := (shiftToTargetExponent_le em.roundedMantissa e₁).2
  show Tame _ (if _ : (shiftToTargetExponent .binary64 em.roundedMantissa e₁ .exact).1.mantissa = 0 then
    .zero s else .finite s _ (shiftToTargetExponent .binary64 em.roundedMantissa e₁ .exact).2 _)
  by_cases hzero : (shiftToTargetExponent .binary64 em.roundedMantissa e₁ .exact).1.mantissa = 0
  · rw [dif_pos hzero]
    trivial
  · rw [dif_neg hzero]
    show (shiftToTargetExponent .binary64 em.roundedMantissa e₁ .exact).2 ≤ _
    omega

/-! ## Packing -/

/-- An exponent field that is not all ones stands for a tame number. -/
theorem tame_unpack_packComponents {spec : Format} (s : Sign) {field : BitVec spec.exponentBits}
    (m : BitVec spec.mantissaBitsWithoutImplicit) {bound : Int} (hfield : field ≠ -1#_)
    (hbound : max (field.toNat : Int) 1 - (spec.exponentBias + spec.mantissaBitsWithoutImplicit) ≤
      bound) :
    Tame bound (UnpackedFloat.unpack spec (packComponents spec s field m)) := by
  unfold UnpackedFloat.unpack
  rw [unpackExponent_packComponents]
  dsimp only
  rw [if_neg hfield]
  by_cases hzero : field = 0#_
  · rw [if_pos hzero]
    by_cases hmantissa : unpackMantissa (packComponents spec s field m) = 0#_
    · rw [dif_pos hmantissa]
      trivial
    · rw [dif_neg hmantissa]
      have hnat : field.toNat = 0 := by simp [hzero]
      show (_ : Int) ≤ bound
      omega
  · rw [if_neg hzero]
    show (_ : Int) ≤ bound
    omega

/-- A number stays tame when it is packed and unpacked again, unless its exponent has no room in the format. -/
theorem tame_unpack_pack {f : UnpackedFloat} {bound : Int} (h : Tame bound f)
    (hbound : bound ≤ 971) (hlow : -1074 ≤ bound) :
    Tame bound (Float.Model.pack f).unpack := by
  cases f with
  | infinity s => exact h.elim
  | notANumber => exact h.elim
  | zero s => cases s <;> exact trivial
  | finite s m e hm =>
    have he : e ≤ bound := h
    have hbits : Format.binary64.mantissaBitsWithoutImplicit = 52 := rfl
    have hbias : Format.binary64.exponentBias = 1023 := by decide
    have hones : (-1#11).toNat = 2047 := by decide
    have hzero : (0#11).toNat = 0 := by decide
    unfold Float.Model.unpack Float.Model.pack UnpackedFloat.pack
    dsimp only
    generalize hfield : (e + Format.exponentBias .binary64 + (52 : Nat)).toNat = field
    have hnat : (BitVec.ofNat 11 field).toNat = field := by
      rw [BitVec.toNat_ofNat]
      exact Nat.mod_eq_of_lt (by omega)
    rw [if_neg (by omega)]
    split
    · apply tame_unpack_packComponents
      · intro heq
        have htoNat : (BitVec.ofNat 11 field).toNat = (-1#11).toNat := congrArg BitVec.toNat heq
        omega
      · omega
    · apply tame_unpack_packComponents
      · decide
      · omega

/-- A mantissa has as many bits as the format says, and the implicit one. -/
theorem mantissa_lt_of_unpack {spec : Format} {bits : BitVec spec.numBits} {s : Sign} {m : Nat} {e : Int}
    {hm : 0 < m} (h : UnpackedFloat.unpack spec bits = .finite s m e hm) :
    m < 2 ^ (1 + spec.mantissaBitsWithoutImplicit) := by
  unfold UnpackedFloat.unpack at h
  dsimp only at h
  by_cases hones : unpackExponent bits = -1#_
  · rw [if_pos hones] at h
    by_cases hzero : unpackMantissa bits = 0#_
    · rw [if_pos hzero] at h
      cases h
    · rw [if_neg hzero] at h
      cases h
  · rw [if_neg hones] at h
    by_cases hlow : unpackExponent bits = 0#_
    · rw [if_pos hlow] at h
      by_cases hzero : unpackMantissa bits = 0#_
      · rw [dif_pos hzero] at h
        cases h
      · rw [dif_neg hzero] at h
        cases h
        exact (BitVec.isLt _).trans (Nat.pow_lt_pow_right (by decide) (by omega))
    · rw [if_neg hlow] at h
      cases h
      exact BitVec.isLt _

/-! ## Whole numbers -/

theorem tame_round (s : Sign) {m : Nat} (h : m < 2 ^ 64) :
    Tame 231 (UnpackedFloat.round .binary64 s m 0) := by
  let shift := (0 - Format.targetExponent .binary64 (totalExponent m 0)).toNat
  have hshift : shift ≤ 52 := by
    have hbits : Format.mantissaBits .binary64 = 53 := rfl
    simp only [shift, Format.targetExponent, totalExponent, hbits]
    omega
  have hlog : (m <<< shift).log2 ≤ 115 := by
    apply log2_le_of_lt
    rw [Nat.shiftLeft_eq]
    calc m * 2 ^ shift
        ≤ m * 2 ^ 52 := Nat.mul_le_mul_left m (Nat.pow_le_pow_right (by decide) hshift)
      _ < 2 ^ (115 + 1) := by omega
  have htame := tame_roundWithAccuracy s (m <<< shift) (0 - shift)
  exact htame.mono (by omega)

theorem tame_ofNat {n : Nat} (h : n < 2 ^ 64) : Tame 231 (UnpackedFloat.ofNat .binary64 n) := by
  unfold UnpackedFloat.ofNat UnpackedFloat.ofInt UnpackedFloat.normalize
  split
  · exact tame_round .negative (by omega)
  · trivial
  · exact tame_round .positive (by omega)

/-- A whole number of 64 bits stays finite when it is multiplied by one. -/
theorem isInf_mul_one (n : UInt64) : (n.toFloat * Numeral.powerOfTen 0).isInf = false := by
  have hone : (Numeral.powerOfTen 0).toModel.unpack = .finite .positive (2 ^ 52) (-52) (by decide) :=
    rfl
  have hn : Tame 231 n.toFloat.toModel.unpack :=
    tame_unpack_pack (tame_ofNat n.toNat_lt) (by decide) (by decide)
  have hmul : Tame 971 (UnpackedFloat.mul .binary64 n.toFloat.toModel.unpack
      (Numeral.powerOfTen 0).toModel.unpack) := by
    rw [hone]
    generalize hf : n.toFloat.toModel.unpack = f at hn
    cases f with
    | infinity s => exact hn.elim
    | notANumber => exact hn.elim
    | zero s => trivial
    | finite s m e hm =>
      have he : e ≤ 231 := hn
      have hlt : m < 2 ^ 53 := mantissa_lt_of_unpack hf
      have hlog : (m * 2 ^ 52).log2 ≤ 104 := log2_le_of_lt (by omega)
      apply (tame_roundWithAccuracy _ _ _).mono
      omega
  have hfinal := tame_unpack_pack hmul (by decide) (by decide)
  show (Float.Model.pack (UnpackedFloat.mul .binary64 n.toFloat.toModel.unpack
      (Numeral.powerOfTen 0).toModel.unpack)).unpack.isInf = false
  generalize (Float.Model.pack _).unpack = f at hfinal
  cases f with
  | infinity s => exact hfinal.elim
  | _ => rfl

end PulseCircuit.Json
