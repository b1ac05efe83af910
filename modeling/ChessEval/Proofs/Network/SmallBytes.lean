import Mathlib.Algebra.Order.Ring.Abs
import ChessEval.Network.Kernel

/-! How large the numbers get on their way through the layers. Clamped numbers and activations are
bytes of at most 127, and a product of such a byte and a weight, or the sum of two, fits into 16
bits. -/
namespace ChessEval.Kernel

section Words

theorem toInt_shiftRight (x s : Int32) :
    (x >>> s).toInt = x.toInt / 2 ^ (s.toBitVec.smod 32).toNat := by
  rw [← Int32.toInt_toBitVec, Int32.toBitVec_shiftRight, BitVec.sshiftRight_eq',
    BitVec.toInt_sshiftRight, Int.shiftRight_eq_div_pow]
  rfl

/-- The least number has no absolute value. -/
theorem toInt_abs {x : Int32} (h : -2147483648 < x.toInt) : x.abs.toInt = |x.toInt| := by
  have hx : x.toBitVec ≠ BitVec.intMin 32 := fun he => by
    rw [← Int32.toInt_toBitVec, he] at h
    exact absurd h (by decide)
  rw [← Int32.toInt_toBitVec, Int32.toBitVec_abs,
    BitVec.toInt_abs_eq_natAbs_of_ne_intMin hx, Int.abs_eq_natAbs]
  rfl

/-- The nearest number of 32 bits. -/
theorem toInt_saturate (v : Int64) :
    (saturate v).toInt = max (-2147483648) (min 2147483647 v.toInt) := by
  have hlow : (-2147483648 : Int64).toInt = -2147483648 := by decide
  have hlow' : (-2147483648 : Int32).toInt = -2147483648 := by decide
  have hhigh : (2147483647 : Int64).toInt = 2147483647 := by decide
  have hhigh' : (2147483647 : Int32).toInt = 2147483647 := by decide
  simp only [saturate, Int64.lt_iff_toInt_lt]
  split_ifs
  · omega
  · omega
  · rw [Int64.toInt_toInt32, Int.bmod_eq_of_le (by omega) (by omega)]
    omega

theorem abs_mul_le {x y m n : Int} (hx : |x| ≤ m) (hy : |y| ≤ n) : |x * y| ≤ m * n := by
  rw [abs_mul]
  exact mul_le_mul hx hy (abs_nonneg y) ((abs_nonneg x).trans hx)

/-- A product does not wrap where the bounds of its factors leave no room for it. -/
theorem toInt_mul {x y : Int32} {m n : Int} (hx : |x.toInt| ≤ m) (hy : |y.toInt| ≤ n)
    (h : m * n ≤ 2147483647) : (x * y).toInt = x.toInt * y.toInt := by
  have hxy := abs_le.mp ((abs_mul_le hx hy).trans h)
  rw [Int32.toInt_mul]
  exact Int.bmod_eq_of_le (by omega) (by omega)

theorem abs_toInt (x : Int16) : |x.toInt| ≤ 32768 := by
  have hlow := x.le_toInt
  have hhigh := x.toInt_lt
  rw [abs_le]
  omega

/-- A number between 0 and 255 is kept when it is cut to a byte. -/
theorem toNat_toUInt8 {x : Int32} (h : 0 ≤ x.toInt) (h' : x.toInt ≤ 255) :
    (x.toUInt32.toUInt8.toNat : Int) = x.toInt := by
  have hx : x.toUInt32.toNat = x.toInt.toNat :=
    Int32.toNat_toUInt32_of_le (Int32.le_iff_toInt_le.mpr h)
  rw [UInt32.toNat_toUInt8, hx]
  omega

theorem toUInt8_le_of_int16 {x : Int16} (h : 0 ≤ x.toInt) (h' : x.toInt ≤ 127) :
    x.toUInt16.toUInt8 ≤ 127 := by
  have hx : x.toUInt16.toNat = x.toInt.toNat :=
    Int16.toNat_toUInt16_of_le (Int16.le_iff_toInt_le.mpr h)
  rw [UInt8.le_iff_toNat_le, UInt16.toNat_toUInt8, hx]
  exact (Nat.mod_le ..).trans (Int.toNat_le.mpr h')

end Words

section Clamp

theorem toInt_clamp {hi : Int16} (h : 0 ≤ hi) (a : Int16) :
    0 ≤ (clamp 0 hi a).toInt ∧ (clamp 0 hi a).toInt ≤ hi.toInt := by
  have h0 : (0 : Int16).toInt = 0 := rfl
  rw [Int16.le_iff_toInt_le] at h
  rw [clamp]
  split
  · omega
  · split <;> rename_i h h' <;> rw [Int16.lt_iff_toInt_lt] at h h' <;> omega

theorem clampToByte_le (a : Int16) : clampToByte a ≤ 127 := by
  have hclip : 0 ≤ transformClip := by decide
  have hbyte : transformClip.toInt ≤ 127 := by decide
  obtain ⟨hlow, hhigh⟩ := toInt_clamp hclip a
  exact toUInt8_le_of_int16 hlow (hhigh.trans hbyte)

end Clamp

section Activation

/-- The two parabolas of the activation: how far its value is from the nearer end of its range. -/
def dip (x : Int32) : Int32 :=
  let size := (x >>> 2).abs
  let v := (if activationKnee < size then activationKnee else size) - activationKnee
  (v * v) >>> 16

theorem activate_eq (x : Int32) :
    activate x = (if 0 < x then activationMax - dip x else dip x).toUInt32.toUInt8 :=
  rfl

/-- The size of an input, cut at the knee and counted down from there. -/
def depth (x : Int32) : Int32 :=
  let size := (x >>> 2).abs
  (if activationKnee < size then activationKnee else size) - activationKnee

theorem dip_eq (x : Int32) : dip x = (depth x * depth x) >>> 16 :=
  rfl

theorem toInt_depth (x : Int32) : (depth x).toInt = min |x.toInt / 4| 2032 - 2032 := by
  have hk : activationKnee.toInt = 2032 := by decide
  have hsize : (x >>> 2).abs.toInt = |x.toInt / 4| := by
    have hs : (x >>> 2).toInt = x.toInt / 4 := toInt_shiftRight x 2
    rw [toInt_abs (by have := x.le_toInt; omega), hs]
  have h0 := abs_nonneg (x.toInt / 4)
  rw [depth]
  split <;> rename_i h <;> rw [Int32.lt_iff_toInt_lt, hk, hsize] at h
  · rw [min_eq_right h.le]
    rfl
  · rw [Int32.toInt_sub, hk, hsize, min_eq_left (not_lt.mp h),
      Int.bmod_eq_of_le (by omega) (by omega)]

theorem depth_bounds (x : Int32) : -2032 ≤ (depth x).toInt ∧ (depth x).toInt ≤ 0 := by
  have h := toInt_depth x
  have h0 := abs_nonneg (x.toInt / 4)
  omega

/-- The square is of 23 bits at most. -/
theorem toInt_square (x : Int32) :
    (depth x * depth x).toInt = (depth x).toInt * (depth x).toInt := by
  obtain ⟨hlow, hhigh⟩ := depth_bounds x
  have hd : |(depth x).toInt| ≤ 2032 := abs_le.mpr (by omega)
  exact toInt_mul hd hd (by decide)

theorem toInt_dip_eq (x : Int32) :
    (dip x).toInt = (depth x).toInt * (depth x).toInt / 65536 := by
  rw [dip_eq, toInt_shiftRight, toInt_square]
  rfl

theorem toInt_dip (x : Int32) : 0 ≤ (dip x).toInt ∧ (dip x).toInt ≤ 63 := by
  obtain ⟨hlow, hhigh⟩ := depth_bounds x
  have hs : (depth x).toInt * (depth x).toInt ≤ 2032 * 2032 := by
    rw [← neg_mul_neg]
    exact mul_self_le_mul_self (by omega) (by omega)
  have h0 := mul_self_nonneg (depth x).toInt
  rw [toInt_dip_eq]
  omega

/-- Nothing is cut off where the activation becomes a byte. -/
theorem toNat_activate (x : Int32) : ((activate x).toNat : Int) =
    if 0 < x.toInt then 126 - (dip x).toInt else (dip x).toInt := by
  obtain ⟨hlow, hhigh⟩ := toInt_dip x
  have hm : activationMax.toInt = 126 := by decide
  have hd : (activationMax - dip x).toInt = 126 - (dip x).toInt := by
    rw [Int32.toInt_sub, hm]
    exact Int.bmod_eq_of_le (by omega) (by omega)
  have hpos : 0 < x ↔ 0 < x.toInt := Int32.lt_iff_toInt_lt
  simp only [activate_eq, hpos]
  split
  · rw [toNat_toUInt8 (by omega) (by omega), hd]
  · rw [toNat_toUInt8 (by omega) (by omega)]

theorem activate_le (x : Int32) : activate x ≤ 126 := by
  have h := toNat_activate x
  obtain ⟨hlow, hhigh⟩ := toInt_dip x
  rw [UInt8.le_iff_toNat_le]
  change _ ≤ 126
  split at h <;> omega

end Activation

section Products

/-- The product of a byte and a weight. -/
def product (x : UInt8) (w : Int8) : Int := x.toNat * w.toInt

theorem product_bounds (x : UInt8) (w : Int8) :
    x.toNat * -128 ≤ product x w ∧ product x w ≤ x.toNat * 127 := by
  have hw := w.toInt_lt
  constructor
  · exact mul_le_mul_of_nonneg_left w.le_toInt x.toNat.cast_nonneg
  · exact mul_le_mul_of_nonneg_left (by omega) x.toNat.cast_nonneg

theorem toInt_dotTerm (x : UInt8) (w : Int8) : (dotTerm x w).toInt = product x w := by
  have hb := x.toNat_lt
  have hx : x.toUInt32.toInt32.toInt = x.toNat := by
    rw [← Int32.toInt_toBitVec, UInt32.toBitVec_toInt32, BitVec.toInt_eq_toNat_of_lt]
    · simp
    · simp
      omega
  have hp := product_bounds x w
  rw [product] at hp
  rw [dotTerm, Int32.toInt_mul, hx, Int8.toInt_toInt32, Int.bmod_eq_of_le (by omega) (by omega),
    product]

theorem abs_product_le (x : UInt8) (w : Int8) : |product x w| ≤ 32640 := by
  have hb := x.toNat_lt
  have hp := product_bounds x w
  rw [abs_le]
  omega

theorem toInt_add_dotTerm (x x' : UInt8) (w w' : Int8) :
    (dotTerm x w + dotTerm x' w').toInt = product x w + product x' w' := by
  have hp := abs_le.mp (abs_product_le x w)
  have hp' := abs_le.mp (abs_product_le x' w')
  rw [Int32.toInt_add, toInt_dotTerm, toInt_dotTerm]
  exact Int.bmod_eq_of_le (by omega) (by omega)

/-- Two neighbouring products stay within 16 bits when they are added. -/
theorem add_product_bounds {x x' : UInt8} (h : x ≤ 127) (h' : x' ≤ 127) (w w' : Int8) :
    -32768 ≤ product x w + product x' w' ∧ product x w + product x' w' ≤ 32767 := by
  have hx : x.toNat ≤ 127 := UInt8.le_iff_toNat_le.mp h
  have hx' : x'.toNat ≤ 127 := UInt8.le_iff_toNat_le.mp h'
  have hp := product_bounds x w
  have hp' := product_bounds x' w'
  omega

end Products

end ChessEval.Kernel
