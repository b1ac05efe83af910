import ChessEval.Proofs.Network.LaneSums
import ChessEval.Proofs.Network.SmallBytes

/-! Each operation in lanes gives what it gives on vectors. Only the weighted sum of bytes needs
something of its input: neighbouring products are added in 16 bits, which hold the sum of two when
no byte is above 127. -/
namespace ChessEval.Lanes

open Kernel (clamp clampToByte screluTerm dotTerm)

variable {n w : Nat}

theorem add_eq (a b : Vector Int16 (n * 16)) : add a b = Kernel.add a b :=
  eq_of_load fun i => by rw [add, load_store, Kernel.add, load_zipWith, add16]

theorem sub_eq (a b : Vector Int16 (n * 16)) : sub a b = Kernel.sub a b :=
  eq_of_load fun i => by rw [sub, load_store, Kernel.sub, load_zipWith, sub16]

section Clamp

/-- To raise to zero and then cut off is to clamp, unless the ends are crossed. -/
theorem bound_eq {hi : Int16} (h : 0 ≤ hi) (v : Vector Int16 w) :
    bound hi v = v.map (clamp 0 hi) := by
  refine ext_get fun k => ?_
  have h0 : ¬hi < 0 := Int16.not_lt.mpr h
  rw [bound, Vector.get_map, Vector.get_map, Vector.get_map, clamp]
  by_cases hk : v.get k < 0 <;> simp [hk, h0]

theorem saturateByte_clamp (a : Int16) :
    saturateByte (clamp 0 Kernel.transformClip a) = clampToByte a := by
  have hclip : 0 ≤ Kernel.transformClip := by decide
  obtain ⟨hlow, hhigh⟩ := Kernel.toInt_clamp hclip a
  have h0 : ¬clamp 0 Kernel.transformClip a < 0 :=
    Int16.not_lt.mpr (Int16.le_iff_toInt_le.mpr hlow)
  have h255 : ¬255 < clamp 0 Kernel.transformClip a :=
    Int16.not_lt.mpr (Int16.le_iff_toInt_le.mpr (hhigh.trans (by decide)))
  rw [saturateByte, if_neg h0, if_neg h255, clampToByte]

/-- Packing takes the quarters of its registers in turn, and the exchange puts them in order. -/
theorem swapMiddle_pack (r : Vector Int16 (2 * 16)) :
    swapMiddle (pack (lower r) (upper r)) = r.map saturateByte := by
  refine eq_of_load (n := 4) (w := 8) fun q => ?_
  rw [swapMiddle, load_store, pack, load_store]
  refine ext_get fun k => ?_
  match q with
  | 0 | 1 | 2 | 3 => simp [lower, upper, ← Nat.add_assoc]

theorem clampToBytes_eq (v : Vector Int16 (n * 32)) : clampToBytes v = Kernel.clampToBytes v := by
  have hclip : 0 ≤ Kernel.transformClip := by decide
  have hhalf (r : Vector Int16 (2 * 16)) (i : Fin 2) :
      bound Kernel.transformClip (load r i) = load (r.map (clamp 0 Kernel.transformClip)) i := by
    rw [bound_eq hclip, load_map]
  refine eq_of_load fun i => ?_
  rw [clampToBytes, load_store, Kernel.clampToBytes, load_map]
  dsimp only
  rw [lower, upper, hhalf, hhalf]
  refine (swapMiddle_pack _).trans ?_
  rw [Vector.map_map]
  exact congrArg (Vector.map · _) (funext saturateByte_clamp)

end Clamp

section Sums

theorem sum_mulPairs (a b : Vector Int16 (n * 2)) :
    (mulPairs a b).sum = (mul32 (widen a) (widen b)).sum :=
  sum_add_pairs _

theorem screluDot_eq {clip : Int16} (h : 0 ≤ clip) (a b : Vector Int16 (n * 16)) :
    screluDot clip a b = Kernel.screluDot clip a b := by
  rw [screluDot, sumOver_eq, Kernel.screluDot]
  refine sum_store_eq fun i => ?_
  have hterm (v u : Vector Int16 16) :
      mul32 (widen (mul16 (v.map (clamp 0 clip)) u)) (widen (v.map (clamp 0 clip))) =
        Vector.zipWith (screluTerm clip) v u :=
    ext_get fun k => by simp [mul32, widen, mul16, screluTerm]
  rw [sum_mulPairs (n := 8), bound_eq h, hterm, load_zipWith]

theorem sum_mulPairs_one (v : Vector Int16 (n * 2)) :
    (mulPairs v (.replicate (n * 2) 1)).sum = (widen v).sum := by
  have hones : mul32 (widen v) (widen (.replicate (n * 2) 1)) = widen v :=
    ext_get fun k => by simp [mul32, widen]
  rw [sum_mulPairs, hones]

/-- The nearest number of 16 bits. -/
theorem toInt_saturate16 (v : Int32) :
    (saturate16 v).toInt = max (-32768) (min 32767 v.toInt) := by
  have hlow : (-32768 : Int32).toInt = -32768 := by decide
  have hlow' : (-32768 : Int16).toInt = -32768 := by decide
  have hhigh : (32767 : Int32).toInt = 32767 := by decide
  have hhigh' : (32767 : Int16).toInt = 32767 := by decide
  simp only [saturate16, Int32.lt_iff_toInt_lt]
  split_ifs
  · omega
  · omega
  · rw [Int32.toInt_toInt16, Int.bmod_eq_of_le (by omega) (by omega)]
    omega

theorem toInt32_saturate16 {v : Int32} (h : -32768 ≤ v.toInt) (h' : v.toInt ≤ 32767) :
    (saturate16 v).toInt32 = v := by
  rw [← Int32.toInt_inj, Int16.toInt_toInt32, toInt_saturate16, min_eq_right h', max_eq_right h]

/-- Before they stop at 16 bits, neighbouring products are added exactly. -/
theorem mulBytePairs_eq (x : Vector UInt8 (n * 2)) (y : Vector Int8 (n * 2)) :
    mulBytePairs x y =
      (add32 (evens (Vector.zipWith dotTerm x y)) (odds (Vector.zipWith dotTerm x y))).map
        saturate16 := by
  have hmul : mul32 (x.map fun b => b.toUInt32.toInt32) (y.map Int8.toInt32) =
      Vector.zipWith dotTerm x y :=
    ext_get fun k => by simp [mul32, dotTerm]
  rw [mulBytePairs, hmul]

/-- The 16 bits lose nothing when the bytes are small. -/
theorem widen_mulBytePairs {x : Vector UInt8 (n * 2)} (hx : ∀ k, x.get k ≤ 127)
    (y : Vector Int8 (n * 2)) :
    widen (mulBytePairs x y) =
      add32 (evens (Vector.zipWith dotTerm x y)) (odds (Vector.zipWith dotTerm x y)) := by
  have hfit (k : Fin n) :
      -32768 ≤ ((add32 (evens (Vector.zipWith dotTerm x y))
        (odds (Vector.zipWith dotTerm x y))).get k).toInt ∧
      ((add32 (evens (Vector.zipWith dotTerm x y))
        (odds (Vector.zipWith dotTerm x y))).get k).toInt ≤ 32767 := by
    simp only [add32, evens, odds, get_zipWith, Vector.get_ofFn, get_load,
      Kernel.toInt_add_dotTerm]
    exact Kernel.add_product_bounds (hx _) (hx _) _ _
  refine ext_get fun k => ?_
  rw [mulBytePairs_eq, widen, Vector.get_map, Vector.get_map,
    toInt32_saturate16 (hfit k).1 (hfit k).2]

theorem dot_eq {x : Vector UInt8 (n * 32)} (hx : ∀ b ∈ x, b ≤ 127) (y : Vector Int8 (n * 32)) :
    dot x y = Kernel.dot x y := by
  have hload (i : Fin n) (k : Fin 32) : (load x i).get k ≤ 127 := by
    rw [get_load]
    exact hx _ (Vector.getElem_mem _)
  rw [dot, sumOver_eq, Kernel.dot]
  refine sum_store_eq fun i => ?_
  rw [sum_mulPairs_one (n := 8), widen_mulBytePairs (n := 16) (hload i), sum_add_pairs,
    load_zipWith]

end Sums

theorem activateAll_eq (v : Vector Int32 (n * 8)) : activateAll v = Kernel.activateAll v := by
  refine eq_of_load fun i => ?_
  rw [activateAll, load_store, Kernel.activateAll, load_map]
  exact ext_get fun k => by simp [activateLanes, mul32, Kernel.activate]

end ChessEval.Lanes
