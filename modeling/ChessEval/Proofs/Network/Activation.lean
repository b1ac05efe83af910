import ChessEval.Proofs.Network.LaneEvaluations

/-! The activation between the layers rises with its input, over all numbers of 32 bits. -/
namespace ChessEval

namespace Kernel

variable {x y : Int32}

/-- The parabolas fall away from zero. -/
theorem dip_le_dip (h : |y.toInt / 4| ≤ |x.toInt / 4|) : (dip x).toInt ≤ (dip y).toInt := by
  have hdepth : (depth y).toInt ≤ (depth x).toInt := by
    rw [toInt_depth, toInt_depth]
    omega
  have hsquares : (depth x).toInt * (depth x).toInt ≤ (depth y).toInt * (depth y).toInt := by
    have hx := (depth_bounds x).2
    rw [← neg_mul_neg (depth x).toInt, ← neg_mul_neg (depth y).toInt]
    exact mul_self_le_mul_self (by omega) (by omega)
  rw [toInt_dip_eq, toInt_dip_eq]
  exact Int.ediv_le_ediv (by decide) hsquares

/-- Below zero the parabola itself rises, above zero its difference from the largest activation, and
the two halves of the range do not overlap. -/
theorem activate_mono (h : x ≤ y) : activate x ≤ activate y := by
  rw [Int32.le_iff_toInt_le] at h
  have hx := toNat_activate x
  have hy := toNat_activate y
  suffices hle : ((activate x).toNat : Int) ≤ (activate y).toNat from
    UInt8.le_iff_toNat_le.mpr (Int.ofNat_le.mp hle)
  rw [hx, hy]
  have hquarters : x.toInt / 4 ≤ y.toInt / 4 := Int.ediv_le_ediv (by decide) h
  by_cases hx0 : 0 < x.toInt
  · have hdip : (dip y).toInt ≤ (dip x).toInt :=
      dip_le_dip (abs_le_abs_of_nonneg (by omega) hquarters)
    rw [if_pos hx0, if_pos (hx0.trans_le h)]
    omega
  · rw [if_neg hx0]
    split
    · have := toInt_dip x
      have := toInt_dip y
      omega
    · exact dip_le_dip (abs_le_abs_of_nonpos (by omega) hquarters)

end Kernel

namespace LayerStack

open Kernel

theorem get_activateAll {n : Nat} (v : Vector Int32 n) (i : Fin n) :
    (activateAll v).get i = activate (v.get i) :=
  Vector.getElem_map ..

theorem hidden_mono {v w : Vector Int32 16} (h : ∀ i, v.get i ≤ w.get i) (i : Fin (padded 15)) :
    (hidden v).get i ≤ (hidden w).get i := by
  rw [hidden, hidden, Vector.get_ofFn, Vector.get_ofFn]
  split
  · next hi => exact activate_mono (h ⟨i, by omega⟩)
  · exact UInt8.le_refl 0

/-- The activation never falls, is at most 126, and squares a number whose square fits into 32 bits.
So whatever an affine layer gives, the next one reads bytes of at most 127, and none of them gets
smaller where the layer gives larger numbers. -/
theorem activations_rise_within_range :
    (∀ x y : Int32, x ≤ y → activate x ≤ activate y) ∧
    (∀ x : Int32, activate x ≤ 126 ∧
      activate x = (if 0 < x then activationMax - (depth x * depth x) >>> 16
        else (depth x * depth x) >>> 16).toUInt32.toUInt8 ∧
      (depth x * depth x).toInt = (depth x).toInt * (depth x).toInt) ∧
    (∀ v : Vector Int32 16, ∀ b ∈ hidden v, b ≤ 127) ∧
    (∀ v w : Vector Int32 16, (∀ i, v.get i ≤ w.get i) → ∀ i, (hidden v).get i ≤ (hidden w).get i) ∧
    ∀ n : Nat, (∀ v : Vector Int32 n, ∀ b ∈ activateAll v, b ≤ 127) ∧
      ∀ v w : Vector Int32 n, (∀ i, v.get i ≤ w.get i) →
        ∀ i, (activateAll v).get i ≤ (activateAll w).get i := by
  refine ⟨fun x y => activate_mono, fun x => ⟨activate_le x, activate_eq x, toInt_square x⟩,
    fun v b => le_of_mem_hidden, fun v w => hidden_mono,
    fun n => ⟨fun v b => le_of_mem_activateAll, fun v w h i => ?_⟩⟩
  rw [get_activateAll, get_activateAll]
  exact activate_mono (h i)

/-- The two parabolas meet between 0 and 1, and the ends of the range are those of 32 bits. -/
theorem activations_rise_within_range_at_ends :
    ((-2147483648 : Int32) ≤ 0 ∧ activate (-2147483648) ≤ activate 0) ∧
    ((0 : Int32) ≤ 1 ∧ activate 0 ≤ activate 1) ∧
    (((1 : Int32) ≤ 2147483647 ∧ activate 1 ≤ activate 2147483647)) ∧
    ∀ i, (hidden (.replicate 16 0)).get i ≤ (hidden (.replicate 16 1)).get i := by
  obtain ⟨hmono, -, -, hhidden, -⟩ := activations_rise_within_range
  have hlow : (-2147483648 : Int32) ≤ 0 := by decide
  have hmeet : (0 : Int32) ≤ 1 := by decide
  have hhigh : (1 : Int32) ≤ 2147483647 := by decide
  exact ⟨⟨hlow, hmono _ _ hlow⟩, ⟨hmeet, hmono _ _ hmeet⟩, ⟨hhigh, hmono _ _ hhigh⟩,
    hhidden _ _ (by decide)⟩

end LayerStack

end ChessEval
