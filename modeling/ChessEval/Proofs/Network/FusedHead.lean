import ChessEval.Network.LaneEvaluation
import ChessEval.Proofs.Network.LaneArithmetic

/-! The small network's head in one pass and in two. One pass keeps the product of a clipped number
and its weight in 16 bits before it multiplies again, two passes square first. Their terms agree
where 16 bits hold the product and nowhere else. The sums wrap in both, so it does not matter how
they are grouped. -/
namespace ChessEval.Head

open Kernel (clamp screluTerm abs_mul_le abs_toInt toInt_mul)

variable {width : Nat}

/-- Sixteen bits hold the product of a clipped number and its weight. -/
def Fits (a w : Int16) : Prop :=
  -32768 ≤ (clamp 0 clip a).toInt * w.toInt ∧ (clamp 0 clip a).toInt * w.toInt ≤ 32767

section Terms

theorem abs_toInt_clamp (a : Int16) : |(clamp 0 clip a).toInt| ≤ 101 := by
  have hclip : clip.toInt = 101 := by decide
  obtain ⟨hlow, hhigh⟩ := Kernel.toInt_clamp (by decide : 0 ≤ clip) a
  rw [abs_le]
  omega

theorem toInt_screluTerm (a w : Int16) :
    (screluTerm clip a w).toInt = (clamp 0 clip a * w).toInt * (clamp 0 clip a).toInt := by
  have hclamp := abs_toInt_clamp a
  have hword := abs_toInt (clamp 0 clip a * w)
  rw [← Int16.toInt_toInt32] at hclamp hword
  rw [screluTerm, toInt_mul hword hclamp (by decide), Int16.toInt_toInt32, Int16.toInt_toInt32]

theorem toInt_weighted_square (a w : Int16) :
    (weighted (square a) w).toInt =
      (clamp 0 clip a).toInt * w.toInt * (clamp 0 clip a).toInt := by
  have hclamp := abs_toInt_clamp a
  have hword := abs_toInt w
  rw [← Int16.toInt_toInt32] at hclamp hword
  have hsquare : (square a).toInt = (clamp 0 clip a).toInt * (clamp 0 clip a).toInt := by
    rw [square, toInt_mul hclamp hclamp (by decide), Int16.toInt_toInt32]
  have hbound : |(square a).toInt| ≤ 101 * 101 := by
    rw [hsquare, ← Int16.toInt_toInt32]
    exact abs_mul_le hclamp hclamp
  rw [weighted, toInt_mul hbound hword (by decide), hsquare, Int16.toInt_toInt32]
  exact mul_right_comm ..

/-- A word is the exact product where that fits, and never elsewhere. -/
theorem toInt_mul_eq_iff (a w : Int16) :
    (clamp 0 clip a * w).toInt = (clamp 0 clip a).toInt * w.toInt ↔ Fits a w := by
  constructor
  · intro h
    have hlow := (clamp 0 clip a * w).le_toInt
    have hhigh := (clamp 0 clip a * w).toInt_lt
    rw [Fits]
    omega
  · intro h
    rw [Int16.toInt_mul]
    exact Int.bmod_eq_of_le (by have := h.1; omega) (by have := h.2; omega)

/-- A term of one pass is that of two exactly where sixteen bits are enough. -/
theorem screluTerm_eq_iff (a w : Int16) :
    screluTerm clip a w = weighted (square a) w ↔ Fits a w := by
  rw [← Int32.toInt_inj, toInt_screluTerm, toInt_weighted_square, ← toInt_mul_eq_iff]
  constructor
  · intro h
    -- Nothing is lost where the clipped number is zero.
    by_cases hzero : (clamp 0 clip a).toInt = 0
    · rw [Int16.toInt_mul, hzero]
      simp
    · exact mul_right_cancel₀ hzero h
  · intro h
    rw [h]

end Terms

section Weights

/-- The clip itself is the largest clipped number, so it decides which weights always fit. -/
theorem fits_all_iff (w : Int16) : (∀ a, Fits a w) ↔ -324 ≤ w.toInt ∧ w.toInt ≤ 324 := by
  constructor
  · intro h
    have hclip : (clamp 0 clip clip).toInt = 101 := by decide
    obtain ⟨hlow, hhigh⟩ := h clip
    rw [hclip] at hlow hhigh
    omega
  · intro hw a
    have hword : |w.toInt| ≤ 324 := abs_le.mpr hw
    have hproduct := abs_le.mp (abs_mul_le (abs_toInt_clamp a) hword)
    rw [Fits]
    omega

/-- Every product of a clipped number and its weight fits, in both halves. -/
structure ProductsFit (h : Head width) (us them : Vector Int16 width) : Prop where
  ours : ∀ i, Fits (us.get i) (h.ours.get i)
  theirs : ∀ i, Fits (them.get i) (h.theirs.get i)

/-- No weight is so large that a product could be lost. -/
structure Mild (h : Head width) : Prop where
  ours : ∀ i, -324 ≤ (h.ours.get i).toInt ∧ (h.ours.get i).toInt ≤ 324
  theirs : ∀ i, -324 ≤ (h.theirs.get i).toInt ∧ (h.theirs.get i).toInt ≤ 324

theorem Mild.productsFit {h : Head width} (hm : h.Mild) (us them : Vector Int16 width) :
    h.ProductsFit us them where
  ours i := (fits_all_iff _).mpr (hm.ours i) _
  theirs i := (fits_all_iff _).mpr (hm.theirs i) _

end Weights

section Sums

theorem zipWith_screluTerm {a w : Vector Int16 width} (h : ∀ i, Fits (a.get i) (w.get i)) :
    Vector.zipWith (screluTerm clip) a w = Vector.zipWith weighted (a.map square) w := by
  refine Lanes.ext_get fun i => ?_
  rw [Lanes.get_zipWith, Lanes.get_zipWith, Vector.get_map]
  exact (screluTerm_eq_iff _ _).mpr (h i)

/-- Words that wrap may be added in any grouping: the chain over both halves is the sum of two. -/
theorem applyInTwoPasses_eq (h : Head width) (us them : Vector Int16 width) :
    h.applyInTwoPasses us them =
      h.rescale ((Vector.zipWith weighted (us.map square) h.ours).sum +
        (Vector.zipWith weighted (them.map square) h.theirs).sum) := by
  rw [applyInTwoPasses, Vector.map_append, Vector.zipWith_append, ← Vector.sum_eq_foldl,
    Vector.sum_append]

theorem apply_eq {h : Head width} {us them : Vector Int16 width} (hf : h.ProductsFit us them) :
    h.apply us them = h.applyInTwoPasses us them := by
  rw [applyInTwoPasses_eq, apply, Kernel.screluDot, Kernel.screluDot,
    zipWith_screluTerm hf.ours, zipWith_screluTerm hf.theirs]

end Sums

/-- One pass and two give the same answer wherever 16 bits hold every product of a clipped number
and its weight, however the sums wrap, with one number at a time and in lanes. Weights between -324
and 324 are those whose products always fit. -/
theorem one_pass_eq_two_passes :
    (∀ (n : Nat) (h : Head n) (us them : Vector Int16 n),
      h.ProductsFit us them → h.apply us them = h.applyInTwoPasses us them) ∧
    (∀ (n : Nat) (h : Head (n * 16)) (us them : Vector Int16 (n * 16)),
      h.ProductsFit us them →
        h.rescale (Lanes.screluDot clip us h.ours + Lanes.screluDot clip them h.theirs) =
          h.applyInTwoPasses us them) ∧
    (∀ (h : Head 64) (us them : Vector Int16 64),
      h.ProductsFit us them → h.applyInLanes us them = h.applyInTwoPasses us them) ∧
    (∀ (n : Nat) (h : Head n), h.Mild → ∀ us them : Vector Int16 n,
      h.ProductsFit us them ∧ h.apply us them = h.applyInTwoPasses us them) ∧
    ∀ w : Int16, (∀ a, Fits a w) ↔ -324 ≤ w.toInt ∧ w.toInt ≤ 324 := by
  have hlanes (n : Nat) (h : Head (n * 16)) (us them : Vector Int16 (n * 16))
      (hf : h.ProductsFit us them) :
      h.rescale (Lanes.screluDot clip us h.ours + Lanes.screluDot clip them h.theirs) =
        h.applyInTwoPasses us them := by
    have hclip : 0 ≤ clip := by decide
    rw [Lanes.screluDot_eq hclip, Lanes.screluDot_eq hclip]
    exact apply_eq hf
  refine ⟨fun n h us them hf => apply_eq hf, hlanes, fun h us them hf => hlanes 4 h us them hf,
    fun n h hm us them => ?_, fits_all_iff⟩
  have hf := hm.productsFit us them
  exact ⟨hf, apply_eq hf⟩

/-- Sums beyond 32 bits of mild weights, and weights that fit only because the numbers are small. -/
theorem one_pass_eq_two_passes_of_wrapped_sum :
    let h : Head 512 := ⟨.replicate 512 324, .replicate 512 324, 7⟩
    let a : Vector Int16 512 := .replicate 512 300
    let k : Head 64 := ⟨.replicate 64 5000, .replicate 64 (-5000), -7⟩
    let us : Vector Int16 64 := .replicate 64 6
    let them : Vector Int16 64 := .replicate 64 (-40)
    h.Mild ∧ h.ProductsFit a a ∧ h.apply a a = h.applyInTwoPasses a a ∧
      (Kernel.screluDot clip a h.ours + Kernel.screluDot clip a h.theirs).toInt =
        1024 * (101 * 324 * 101) - 2 ^ 32 ∧
    ¬k.Mild ∧ k.ProductsFit us them ∧ k.apply us them = k.applyInTwoPasses us them ∧
      k.rescale (Lanes.screluDot (n := 4) clip us k.ours +
        Lanes.screluDot (n := 4) clip them k.theirs) = k.applyInTwoPasses us them ∧
      k.applyInLanes us them = k.applyInTwoPasses us them := by
  intro h a k us them
  have hmild : h.Mild := by
    constructor <;> intro i <;> simp only [h, Vector.get_replicate] <;> decide
  have hloud : ¬k.Mild := fun hm => absurd (hm.ours 0).2 (by decide)
  have hours : Fits 6 5000 := by constructor <;> decide
  have htheirs : Fits (-40) (-5000) := by constructor <;> decide
  have hfit : k.ProductsFit us them := by
    constructor <;> intro i <;> simp only [k, us, them, Vector.get_replicate]
    · exact hours
    · exact htheirs
  have hdot : Kernel.screluDot clip a (.replicate 512 324) = 512 * screluTerm clip 300 324 := by
    rw [Kernel.screluDot, ← Int32.toBitVec_inj, Lanes.toBitVec_sum]
    simp only [Lanes.get_zipWith, a, Vector.get_replicate, Finset.sum_const, Finset.card_univ,
      Fintype.card_fin, nsmul_eq_mul]
    rfl
  have hsum : (Kernel.screluDot clip a h.ours + Kernel.screluDot clip a h.theirs).toInt =
      1024 * (101 * 324 * 101) - 2 ^ 32 := by
    rw [hdot]
    decide
  obtain ⟨hone, hregisters, hlanes, hmilds, -⟩ := one_pass_eq_two_passes
  obtain ⟨ha, heq⟩ := hmilds 512 h hmild a a
  exact ⟨hmild, ha, heq, hsum, hloud, hfit, hone 64 k us them hfit,
    hregisters 4 k us them hfit, hlanes k us them hfit⟩

end ChessEval.Head
