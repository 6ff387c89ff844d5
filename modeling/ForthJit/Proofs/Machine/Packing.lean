import ForthJit.Machine.Field
import Mathlib.Data.Nat.Bitwise

/-!
# Fields by shifts and masks

Operands are packed by truncating, masking and shifting words, and read back by shifting, masking
and, for a sign, by flipping a bit and subtracting it.  These are the operations on bit vectors of
the field's width: placing one in a word, extracting it, and reading it as a number.
-/

namespace ForthJit.Field

/-! ## Masks -/

theorem toNat_one_shiftLeft {n k : Nat} (small : k < n) : (1#n <<< k).toNat = 2 ^ k := by
  rw [BitVec.toNat_shiftLeft, BitVec.toNat_ofNat, Nat.shiftLeft_eq,
    Nat.mod_eq_of_lt (Nat.one_lt_two_pow (by omega)), Nat.one_mul,
    Nat.mod_eq_of_lt (Nat.pow_lt_pow_right (by decide) small)]

/-- One less than a power of two has the bits below it. -/
theorem getLsbD_mask (n width i : Nat) :
    (1#n <<< width - 1#n).getLsbD i = (decide (i < n) && decide (i < width)) := by
  by_cases inside : i < n
  · by_cases small : width < n
    · have value : (1#n <<< width - 1#n).toNat = 2 ^ width - 1 := by
        have less : 2 ^ width < 2 ^ n := Nat.pow_lt_pow_right (by decide) small
        have positive := Nat.two_pow_pos width
        rw [BitVec.toNat_sub, toNat_one_shiftLeft small, BitVec.toNat_ofNat,
          Nat.mod_eq_of_lt (Nat.one_lt_two_pow (by omega)),
          show 2 ^ n - 1 + 2 ^ width = 2 ^ width - 1 + 2 ^ n by omega, Nat.add_mod_right,
          Nat.mod_eq_of_lt (by omega)]
      simp [BitVec.getLsbD, value, Nat.testBit_two_pow_sub_one, inside]
    · have ones : 1#n <<< width - 1#n = BitVec.allOnes n := by
        rw [BitVec.shiftLeft_eq_zero (by omega), BitVec.zero_sub, BitVec.neg_one_eq_allOnes]
      rw [ones, BitVec.getLsbD_allOnes]
      simp [inside, show i < width by omega]
  · rw [BitVec.getLsbD_of_ge _ i (Nat.le_of_not_lt inside)]
    simp [inside]

/-! ## Reading -/

theorem bits_eq (w : InstrWord) (shift width : Nat) :
    bits w shift width = (w.extractLsb' shift width).setWidth 32 := by
  refine BitVec.eq_of_getLsbD_eq fun i small => ?_
  rw [bits, BitVec.getLsbD_and, BitVec.getLsbD_ushiftRight, BitVec.getLsbD_setWidth, getLsbD_mask,
    BitVec.getLsbD_setWidth, BitVec.getLsbD_extractLsb']
  simp [small, show i < 64 by omega, Bool.and_comm]

theorem extract_eq (w : InstrWord) (shift : Nat) {width : Nat} (fits : width ≤ 32) :
    extract w shift width = (w.extractLsb' shift width).toNat := by
  rw [extract, bits_eq, BitVec.toNat_setWidth_of_le fits]

/-- Flipping a bit above all others adds it. -/
theorem xor_two_pow {b k : Nat} (small : b < 2 ^ k) : b ^^^ 2 ^ k = 2 ^ k + b := by
  refine Nat.eq_of_testBit_eq fun i => ?_
  rw [Nat.testBit_xor, Nat.testBit_two_pow]
  rcases Nat.lt_trichotomy i k with below | rfl | above
  · rw [Nat.testBit_two_pow_add_gt below]
    simp [Nat.ne_of_gt below]
  · simp [Nat.testBit_two_pow_add_eq]
  · have wide : 2 ^ (k + 1) ≤ 2 ^ i := Nat.pow_le_pow_right (by decide) above
    rw [Nat.testBit_lt_two_pow (show b < 2 ^ i by omega),
      Nat.testBit_lt_two_pow (show 2 ^ k + b < 2 ^ i by omega)]
    simp [Nat.ne_of_lt above]

/-- Flipping the sign bit and taking it off again extends the sign. -/
theorem toInt_xor_sub {n : Nat} (v : BitVec n) (fits : n ≤ 32) :
    ((v.setWidth 64 ^^^ 1#64 <<< (n - 1)) - 1#64 <<< (n - 1)).toInt = v.toInt := by
  rcases n with _ | k
  · simp [BitVec.of_length_zero]
  have raw : (v.setWidth 64).toNat = v.toNat := BitVec.toNat_setWidth_of_le (by omega)
  have sign : (1#64 <<< k).toNat = 2 ^ k := toNat_one_shiftLeft (by omega)
  have narrow := v.isLt
  have small : 2 ^ (k + 1) ≤ 2 ^ 32 := Nat.pow_le_pow_right (by decide) fits
  have double : 2 ^ (k + 1) = 2 * 2 ^ k := by omega
  have flipped : v.toNat ^^^ 2 ^ k =
      if v.toNat < 2 ^ k then 2 ^ k + v.toNat else v.toNat - 2 ^ k := by
    split
    · exact xor_two_pow ‹_›
    · have rest : v.toNat = (v.toNat - 2 ^ k) ^^^ 2 ^ k := by
        rw [xor_two_pow (by omega)]
        omega
      conv_lhs => rw [rest, Nat.xor_assoc, Nat.xor_self, Nat.xor_zero]
  rw [Nat.add_sub_cancel, BitVec.toInt_eq_toNat_cond, BitVec.toInt_eq_toNat_cond, BitVec.toNat_sub,
    BitVec.toNat_xor, raw, sign, flipped, double]
  split <;> omega

theorem extractSigned_eq (w : InstrWord) (shift : Nat) {width : Nat} (fits : width ≤ 32) :
    extractSigned w shift width = (w.extractLsb' shift width).toInt := by
  have wide : ((w.extractLsb' shift width).setWidth 32).setWidth 64 =
      (w.extractLsb' shift width).setWidth 64 := by
    apply BitVec.eq_of_toNat_eq
    rw [BitVec.toNat_setWidth_of_le (by decide), BitVec.toNat_setWidth_of_le fits,
      BitVec.toNat_setWidth_of_le (by omega)]
  rw [extractSigned, bits_eq, wide, toInt_xor_sub _ fits]

/-! ## Packing -/

variable (field : String) (value : Cell) {width : Nat} (shift : Nat)

theorem packUnsigned_eq (fits : width ≤ 32) :
    packUnsigned field value width shift = (unsigned field width value).map (place · shift) := by
  have check : value.toNat < 1 <<< width ↔ value >>> width = 0#64 := by
    rw [Nat.one_shiftLeft, ← BitVec.toNat_inj, BitVec.toNat_ushiftRight, Nat.shiftRight_eq_div_pow,
      BitVec.toNat_ofNat, Nat.zero_mod, Nat.div_eq_zero_iff_lt (Nat.two_pow_pos width)]
  unfold packUnsigned unsigned
  by_cases small : value >>> width = 0#64
  · have narrow := check.2 small
    rw [if_neg (fun big => big.2 small), if_pos narrow]
    rw [Nat.one_shiftLeft] at narrow
    have same : value.setWidth 32 = (BitVec.ofNat width value.toNat).setWidth 32 := by
      apply BitVec.eq_of_toNat_eq
      rw [BitVec.toNat_setWidth, BitVec.toNat_setWidth, BitVec.toNat_ofNat, Nat.mod_eq_of_lt narrow]
    rw [same]
    rfl
  · rw [if_pos ⟨by omega, small⟩, if_neg (fun narrow => small (check.1 narrow))]
    rfl

/-- The low bits of a number, masked, are its two's complement in the width of the field. -/
theorem and_mask_eq (fits : width ≤ 32) :
    (value.setWidth 32 &&& if width = 32 then BitVec.allOnes 32 else 1#32 <<< width - 1#32) =
      (BitVec.ofInt width value.toInt).setWidth 32 := by
  refine BitVec.eq_of_getLsbD_eq fun i small => ?_
  rw [← BitVec.signExtend, BitVec.signExtend_eq_setWidth_of_le _ (by omega), BitVec.getLsbD_and,
    BitVec.getLsbD_setWidth, BitVec.getLsbD_setWidth, BitVec.getLsbD_setWidth]
  by_cases full : width = 32
  · rw [if_pos full, BitVec.getLsbD_allOnes]
    simp [full, small]
  · rw [if_neg full, getLsbD_mask]
    simp [small, Bool.and_comm]

theorem packSigned_eq (positive : 1 ≤ width) (fits : width ≤ 32) :
    packSigned field value width shift =
      (signed field width value.toInt).map (place · shift) := by
  have power : 2 ^ (width - 1) ≤ 2 ^ 31 := Nat.pow_le_pow_right (by decide) (by omega)
  have limit : (1#64 <<< (width - 1)).toNat = 2 ^ (width - 1) := toNat_one_shiftLeft (by omega)
  have above := Nat.two_pow_pos (width - 1)
  have least : (-(1#64 <<< (width - 1))).toInt = -(2 ^ (width - 1) : Nat) := by
    rw [BitVec.toInt_eq_toNat_cond, BitVec.toNat_neg, limit]
    omega
  have most : (1#64 <<< (width - 1) - 1#64).toInt = (2 ^ (width - 1) : Nat) - 1 := by
    rw [BitVec.toInt_eq_toNat_cond, BitVec.toNat_sub, limit, BitVec.toNat_ofNat]
    omega
  unfold packSigned signed
  simp only [BitVec.slt_iff_toInt_lt, least, most, Nat.one_shiftLeft]
  by_cases inside : -((2 ^ (width - 1) : Nat) : Int) ≤ value.toInt ∧
      value.toInt < (2 ^ (width - 1) : Nat)
  · rw [if_neg (by omega), if_pos inside, and_mask_eq value fits]
    rfl
  · rw [if_pos (by omega), if_neg inside]
    rfl

end ForthJit.Field
