import ChessEval.Proofs.Network.LaneEvaluations

/-! What a stack of layers computes, in whole numbers and without the columns that fill up its rows.
Each output is its bias and an exact weighted sum, reduced to 32 bits once. In lanes the first layer
differs where a byte is above 127: its products are added in neighbouring pairs that stop at the
ends of 16 bits. -/
namespace ChessEval

section Sums

/-- A word is the exact sum of all terms, and no sum of some of them leaves 32 bits. -/
structure SumsTo {ι : Type} [Fintype ι] (f : ι → Int) (d : Int32) : Prop where
  partly : ∀ c : Finset ι, |∑ i ∈ c, f i| ≤ 2147483647
  wholly : d.toInt = ∑ i, f i

theorem SumsTo.of_le {ι : Type} [Fintype ι] {f : ι → Int} {d : Int32} {A : Int}
    (hd : d = .ofInt (∑ i, f i)) (hf : ∀ i, |f i| ≤ A)
    (hA : Fintype.card ι * A ≤ 2147483647) : SumsTo f d := by
  have hpartly (c : Finset ι) : |∑ i ∈ c, f i| ≤ 2147483647 := by
    calc |∑ i ∈ c, f i| ≤ ∑ i ∈ c, |f i| := Finset.abs_sum_le_sum_abs f c
      _ ≤ ∑ i, |f i| :=
        Finset.sum_le_sum_of_subset_of_nonneg c.subset_univ fun i _ _ => abs_nonneg (f i)
      _ ≤ ∑ _i : ι, A := Finset.sum_le_sum fun i _ => hf i
      _ = Fintype.card ι * A := by rw [Finset.sum_const, Finset.card_univ, nsmul_eq_mul]
      _ ≤ 2147483647 := hA
  refine ⟨hpartly, ?_⟩
  have hall := abs_le.mp (hpartly Finset.univ)
  rw [hd, Int32.toInt_ofInt]
  exact Int.bmod_eq_of_le (by change -2147483648 ≤ _; omega) (by change _ < 2147483648; omega)

end Sums

namespace Kernel

variable {n : Nat}

theorem dot_eq_ofInt (x : Vector UInt8 n) (w : Vector Int8 n) :
    dot x w = .ofInt (∑ i, product (x.get i) (w.get i)) := by
  rw [dot, Lanes.sum_eq_ofInt]
  simp only [Lanes.get_zipWith, toInt_dotTerm]

theorem dot_sumsTo (x : Vector UInt8 n) (w : Vector Int8 n) (hn : n ≤ 512) :
    SumsTo (fun i => product (x.get i) (w.get i)) (dot x w) := by
  refine .of_le (dot_eq_ofInt x w) (fun i => abs_product_le _ _) ?_
  rw [Fintype.card_fin]
  omega

end Kernel

namespace Lanes

variable {n : Nat}

/-- Two neighbouring products, added and stopped at the ends of 16 bits: those of pair `k` in
register `i`. -/
def pairOf (x : Vector UInt8 (n * 32)) (y : Vector Int8 (n * 32)) (i : Fin n) (k : Fin 16) : Int :=
  let x : Vector UInt8 (16 * 2) := load x i
  let y : Vector Int8 (16 * 2) := load y i
  let even := Kernel.product ((evens x).get k) ((evens y).get k)
  let odd := Kernel.product ((odds x).get k) ((odds y).get k)
  max (-32768) (min 32767 (even + odd))

theorem toInt_mulBytePairs (x : Vector UInt8 (n * 32)) (y : Vector Int8 (n * 32)) (i : Fin n)
    (k : Fin 16) :
    ((widen (mulBytePairs (n := 16) (load x i) (load y i))).get k).toInt = pairOf x y i k := by
  rw [mulBytePairs_eq, widen, Vector.get_map, Vector.get_map, Int16.toInt_toInt32,
    toInt_saturate16, pairOf]
  simp only [add32, evens, odds, get_zipWith, Vector.get_ofFn, get_load,
    Kernel.toInt_add_dotTerm]

/-- The registers' sums are added lane by lane, which meets every pair once. -/
theorem dot_eq_ofInt (x : Vector UInt8 (n * 32)) (y : Vector Int8 (n * 32)) :
    dot x y = .ofInt (∑ p : Fin n × Fin 16, pairOf x y p.1 p.2) := by
  let v : Vector Int32 (n * 16) :=
    store fun i => widen (mulBytePairs (n := 16) (load x i) (load y i))
  have hsum : dot x y = v.sum := by
    rw [dot, sumOver_eq]
    exact sum_store_eq fun i => by rw [sum_mulPairs_one (n := 8), load_store]
  rw [hsum, sum_eq_ofInt, ← sum_lanes, Fintype.sum_prod_type]
  simp only [← get_load, v, load_store, toInt_mulBytePairs]

theorem dot_sumsTo (x : Vector UInt8 (n * 32)) (y : Vector Int8 (n * 32)) (hn : n ≤ 16) :
    SumsTo (fun p : Fin n × Fin 16 => pairOf x y p.1 p.2) (dot x y) := by
  have hpair (p : Fin n × Fin 16) : |pairOf x y p.1 p.2| ≤ 32768 := by
    rw [abs_le, pairOf]
    omega
  refine .of_le (dot_eq_ofInt x y) hpair ?_
  rw [Fintype.card_prod, Fintype.card_fin, Fintype.card_fin]
  omega

end Lanes

section Padding

theorem le_padded (n : Nat) : n ≤ padded n := by
  rw [padded]
  omega

/-- Terms that are zero from some place on do not count. -/
theorem sum_fin_castLE {n m : Nat} (h : n ≤ m) {f : Fin m → Int}
    (hf : ∀ i : Fin m, n ≤ i → f i = 0) : ∑ i, f i = ∑ i : Fin n, f (i.castLE h) := by
  obtain ⟨k, rfl⟩ := Nat.exists_eq_add_of_le h
  exact Fin.sum_trunc f fun i => hf (.natAdd n i) (Nat.le_add_right n i)

end Padding

namespace Affine

variable {inputs outputs : Nat}

/-- The weight with which an input counts for an output. -/
def weight (l : Affine inputs outputs) (o : Fin outputs) (i : Fin inputs) : Int8 :=
  (l.weights.get o).get (i.castLE (le_padded inputs))

/-- Each output's bias and the exact weighted sum of the inputs, reduced to 32 bits. -/
def unpadded (l : Affine inputs outputs) (x : Vector UInt8 inputs) : Vector Int32 outputs :=
  .ofFn fun o => .ofInt ((l.biases.get o).toInt + ∑ i, Kernel.product (x.get i) (l.weight o i))

/-- The same with the products added in pairs, as lanes do it. -/
def paired (l : Affine inputs outputs) (x : Vector UInt8 (padded inputs)) : Vector Int32 outputs :=
  .ofFn fun o => .ofInt ((l.biases.get o).toInt +
    ∑ p : Fin ((inputs + 31) / 32) × Fin 16, Lanes.pairOf x (l.weights.get o) p.1 p.2)

/-- Two layers that differ at most in the columns that meet no input. -/
structure SameOnInputs (l m : Affine inputs outputs) : Prop where
  biases : l.biases = m.biases
  weight : l.weight = m.weight

theorem SameOnInputs.unpadded_eq {l m : Affine inputs outputs} (h : l.SameOnInputs m)
    (x : Vector UInt8 inputs) : l.unpadded x = m.unpadded x := by
  rw [unpadded, unpadded, h.biases, h.weight]

/-- Inputs followed by zeros up to the end of a row. -/
structure FillsUp (x : Vector UInt8 inputs) (y : Vector UInt8 (padded inputs)) : Prop where
  given : ∀ i : Fin inputs, y.get (i.castLE (le_padded inputs)) = x.get i
  zero : ∀ j : Fin (padded inputs), inputs ≤ j → y.get j = 0

theorem apply_eq_unpadded (l : Affine inputs outputs) {x : Vector UInt8 inputs}
    {y : Vector UInt8 (padded inputs)} (h : FillsUp x y) : l.apply y = l.unpadded x := by
  refine Lanes.ext_get fun o => ?_
  have hzero (j : Fin (padded inputs)) (hj : inputs ≤ j) :
      Kernel.product (y.get j) ((l.weights.get o).get j) = 0 := by
    rw [h.zero j hj, Kernel.product]
    exact Int.zero_mul _
  have hsum : ∑ j, Kernel.product (y.get j) ((l.weights.get o).get j) =
      ∑ i, Kernel.product (x.get i) (l.weight o i) := by
    rw [sum_fin_castLE (le_padded inputs) hzero]
    simp only [h.given, weight]
  rw [apply, unpadded, Lanes.get_zipWith, Vector.get_ofFn, Kernel.dot_eq_ofInt, hsum,
    Int32.ofInt_add, Int32.ofInt_toInt]

theorem applyInLanes_eq_paired (l : Affine inputs outputs) (x : Vector UInt8 (padded inputs)) :
    l.applyInLanes x = l.paired x := by
  refine Lanes.ext_get fun o => ?_
  calc (l.applyInLanes x).get o
    _ = l.biases.get o + Lanes.dot x (l.weights.get o) := Lanes.get_zipWith ..
    _ = l.biases.get o + .ofInt (∑ p : Fin ((inputs + 31) / 32) × Fin 16,
          Lanes.pairOf x (l.weights.get o) p.1 p.2) :=
        congrArg _ (Lanes.dot_eq_ofInt x (l.weights.get o))
    _ = (l.paired x).get o := by
        rw [paired, Vector.get_ofFn, Int32.ofInt_add, Int32.ofInt_toInt]

end Affine

namespace LayerStack

/-- What the second layer reads: the activations of the first fifteen outputs. -/
def activations (first : Vector Int32 16) : Vector UInt8 15 :=
  .ofFn fun i => Kernel.activate (first.get i.castSucc)

/-- The nearest number of 32 bits. -/
def nearest (n : Int) : Int := max (-2147483648) (min 2147483647 n)

/-- The output that follows from the first layer's. The share of its last output is rounded toward
zero. -/
def unpaddedFrom (s : LayerStack) (first : Vector Int32 16) : Int :=
  let second := s.second.unpadded (activations first)
  let third := s.third.unpadded (Kernel.activateAll second)
  nearest ((third.get 0).toInt + nearest (((first.get 15).toInt * 9600).tdiv 8128))

/-- The output without any padding. -/
def unpadded (s : LayerStack) (x : Vector UInt8 512) : Int := s.unpaddedFrom (s.first.unpadded x)

section Output

theorem toInt_bypass (x : Int32) :
    (bypass x).toInt = nearest ((x.toInt * 9600).tdiv 8128) := by
  have hlow := x.le_toInt
  have hhigh := x.toInt_lt
  have hmul : (x.toInt64 * 9600).toInt = x.toInt * 9600 := by
    have h9600 : (9600 : Int64).toInt = 9600 := by decide
    rw [Int64.toInt_mul, Int32.toInt_toInt64, h9600]
    exact Int.bmod_eq_of_le (by omega) (by omega)
  have hdiv : (x.toInt64 * 9600 / 8128).toInt = (x.toInt * 9600).tdiv 8128 := by
    have h8128 : (8128 : Int64).toInt = 8128 := by decide
    have hle := Int.natAbs_tdiv_le_natAbs (x.toInt * 9600) 8128
    rw [Int64.toInt_div, hmul, h8128]
    exact Int.bmod_eq_of_le (by omega) (by omega)
  rw [bypass, Kernel.toInt_saturate, hdiv, nearest]

theorem toInt_addSaturating (a b : Int32) :
    (Kernel.addSaturating a b).toInt = nearest (a.toInt + b.toInt) := by
  have ha := a.le_toInt
  have ha' := a.toInt_lt
  have hb := b.le_toInt
  have hb' := b.toInt_lt
  rw [Kernel.addSaturating, Kernel.toInt_saturate, Int64.toInt_add, Int32.toInt_toInt64,
    Int32.toInt_toInt64, Int.bmod_eq_of_le (by omega) (by omega), nearest]

theorem toInt_output (first : Vector Int32 16) (third : Vector Int32 1) :
    (output first third).toInt =
      nearest ((third.get 0).toInt + nearest (((first.get 15).toInt * 9600).tdiv 8128)) := by
  rw [output, toInt_addSaturating, toInt_bypass]
  rfl

end Output

section Layers

theorem fillsUp_hidden (first : Vector Int32 16) :
    Affine.FillsUp (activations first) (hidden first) where
  given i := by
    rw [hidden, activations, Vector.get_ofFn, Vector.get_ofFn]
    exact dif_pos i.isLt
  zero j hj := by
    rw [hidden, Vector.get_ofFn]
    exact dif_neg (Nat.not_lt.mpr hj)

theorem fillsUp_first (x : Vector UInt8 512) : Affine.FillsUp x (x : Vector UInt8 (padded 512)) where
  given _ := rfl
  zero j hj := absurd j.isLt (Nat.not_lt.mpr hj)

theorem fillsUp_third (x : Vector UInt8 32) : Affine.FillsUp x (x : Vector UInt8 (padded 32)) where
  given _ := rfl
  zero j hj := absurd j.isLt (Nat.not_lt.mpr hj)

variable (s : LayerStack) (x : Vector UInt8 512)

/-- The output that follows from the first layer's, with filled rows. -/
def behind (first : Vector Int32 16) : Int32 :=
  output first (s.third.apply (Kernel.activateAll (s.second.apply (hidden first))))

theorem toInt_behind (first : Vector Int32 16) :
    (s.behind first).toInt = s.unpaddedFrom first := by
  have hsecond : s.second.apply (hidden first) = s.second.unpadded (activations first) :=
    s.second.apply_eq_unpadded (fillsUp_hidden first)
  have hthird : s.third.apply (Kernel.activateAll (s.second.unpadded (activations first))) =
      s.third.unpadded (Kernel.activateAll (s.second.unpadded (activations first))) :=
    s.third.apply_eq_unpadded (fillsUp_third _)
  rw [behind, hsecond, hthird, toInt_output, unpaddedFrom]

theorem toInt_apply : (s.apply x).toInt = s.unpadded x := by
  have hfirst : s.first.apply x = s.first.unpadded x := s.first.apply_eq_unpadded (fillsUp_first x)
  have hbehind : s.apply x = s.behind (s.first.apply x) := rfl
  rw [hbehind, hfirst, toInt_behind, unpadded]

/-- Behind the first layer every byte is an activation, so lanes lose nothing there. -/
theorem toInt_applyInLanes : (s.applyInLanes x).toInt = s.unpaddedFrom (s.first.paired x) := by
  have hfirst : s.first.applyInLanes x = s.first.paired x := s.first.applyInLanes_eq_paired x
  have hsecond : s.second.applyInLanes (hidden (s.first.paired x)) =
      s.second.apply (hidden (s.first.paired x)) :=
    s.second.applyInLanes_eq fun _ => le_of_mem_hidden
  have hbehind : s.applyInLanes x = s.behind (s.first.paired x) := by
    rw [applyInLanes, hfirst, hiddenInLanes_eq, hsecond, Lanes.activateAll_eq (n := 4), behind]
    exact congrArg _ (s.third.applyInLanes_eq fun _ => le_of_mem_activateAll)
  rw [hbehind, toInt_behind]

/-- The columns of the second layer that meet no input do not count. -/
theorem unpaddedFrom_congr {l : Affine 15 32} (h : l.SameOnInputs s.second)
    (first : Vector Int32 16) :
    { s with second := l }.unpaddedFrom first = s.unpaddedFrom first := by
  rw [unpaddedFrom, unpaddedFrom, h.unpadded_eq]

end Layers

/-- A stack whose first layer weighs all inputs alike and whose other layers give nothing. -/
def bypassing (w : Int8) : LayerStack where
  first := ⟨.replicate 16 0, .replicate 16 (.replicate _ w)⟩
  second := ⟨.replicate 32 0, .replicate 32 (.replicate _ 0)⟩
  third := ⟨.replicate 1 0, .replicate 1 (.replicate _ 0)⟩

theorem unpaddedFrom_bypassing (w : Int8) (first : Vector Int32 16) :
    (bypassing w).unpaddedFrom first =
      nearest (nearest (((first.get 15).toInt * 9600).tdiv 8128)) := by
  have hthird (y : Vector UInt8 32) : ((bypassing w).third.unpadded y).get 0 = 0 := by
    have hproduct (b : UInt8) : Kernel.product b 0 = 0 := Int.mul_zero _
    simp only [bypassing, Affine.unpadded, Affine.weight, Vector.get_ofFn, Vector.get_replicate,
      hproduct, Finset.sum_const_zero]
    rfl
  rw [unpaddedFrom, hthird]
  exact congrArg nearest (Int.zero_add _)

theorem unpadded_bypassing (b : UInt8) (w : Int8) :
    ((bypassing w).first.unpadded (.replicate 512 b)).get 15 =
      .ofInt (512 * Kernel.product b w) := by
  simp only [bypassing, Affine.unpadded, Affine.weight, Vector.get_ofFn, Vector.get_replicate,
    Finset.sum_const, Finset.card_univ, Fintype.card_fin, nsmul_eq_mul]
  exact congrArg Int32.ofInt (Int.zero_add _)

theorem paired_bypassing (b : UInt8) (w : Int8) :
    ((bypassing w).first.paired (.replicate 512 b)).get 15 =
      .ofInt (256 * max (-32768) (min 32767 (Kernel.product b w + Kernel.product b w))) := by
  have hpair (i k : Fin 16) : Lanes.pairOf (n := 16) (.replicate _ b) (.replicate _ w) i k =
      max (-32768) (min 32767 (Kernel.product b w + Kernel.product b w)) := by
    simp [Lanes.pairOf, Lanes.evens, Lanes.odds]
  have hsum : ∑ p : Fin 16 × Fin 16,
      Lanes.pairOf (n := 16) (.replicate _ b) (.replicate _ w) p.1 p.2 =
        256 * max (-32768) (min 32767 (Kernel.product b w + Kernel.product b w)) := by
    simp only [hpair, Finset.sum_const, Finset.card_univ, Fintype.card_prod, Fintype.card_fin,
      nsmul_eq_mul]
    rfl
  simp only [bypassing, Affine.paired, Vector.get_ofFn, Vector.get_replicate]
  exact congrArg Int32.ofInt ((Int.zero_add _).trans hsum)

/-- A stack computes the layers without padding, for every input with one number at a time, and for
bytes of at most 127 in lanes. For larger bytes lanes differ in the first layer alone, where sums of
two products stop at the ends of 16 bits. The columns that fill up the second layer never count, and
no weighted sum leaves 32 bits, not even partly. -/
theorem computes_unpadded_layers :
    (∀ (s : LayerStack) (x : Vector UInt8 512),
      (s.apply x).toInt = s.unpadded x ∧
      ((∀ b ∈ x, b ≤ 127) → (s.applyInLanes x).toInt = s.unpadded x) ∧
      (s.applyInLanes x).toInt = s.unpaddedFrom (s.first.paired x) ∧
      ∀ l : Affine 15 32, l.SameOnInputs s.second →
        { s with second := l }.apply x = s.apply x ∧
        { s with second := l }.applyInLanes x = s.applyInLanes x) ∧
    (∀ (n : Nat) (x : Vector UInt8 n) (w : Vector Int8 n), n ≤ 512 →
      SumsTo (fun i => Kernel.product (x.get i) (w.get i)) (Kernel.dot x w)) ∧
    ∀ (n : Nat) (x : Vector UInt8 (n * 32)) (w : Vector Int8 (n * 32)), n * 32 ≤ 512 →
      SumsTo (fun p : Fin n × Fin 16 => Lanes.pairOf x w p.1 p.2) (Lanes.dot x w) := by
  refine ⟨fun s x => ⟨s.toInt_apply x, fun hx => ?_, s.toInt_applyInLanes x, fun l hl => ?_⟩,
    fun n x w => Kernel.dot_sumsTo x w, fun n x w hn => Lanes.dot_sumsTo x w (by omega)⟩
  · rw [s.applyInLanes_eq hx, s.toInt_apply]
  · rw [← Int32.toInt_inj, ← Int32.toInt_inj, toInt_apply, toInt_apply, toInt_applyInLanes,
      toInt_applyInLanes]
    exact ⟨s.unpaddedFrom_congr hl _, s.unpaddedFrom_congr hl _⟩

/-- Weights in the columns that meet no input, beside the largest bytes that lanes take. -/
theorem computes_unpadded_layers_of_filled_columns :
    let s := bypassing 127
    let x : Vector UInt8 512 := .replicate 512 127
    let l : Affine 15 32 :=
      ⟨.replicate 32 0, .replicate 32 (.ofFn fun j => if j.val < 15 then 0 else -128)⟩
    let w : Vector Int8 512 := .replicate 512 (-128)
    (∀ b ∈ x, b ≤ 127) ∧ s.unpadded x = 9753600 ∧ (s.apply x).toInt = s.unpadded x ∧
      (s.applyInLanes x).toInt = s.unpadded x ∧
    l.SameOnInputs s.second ∧ l ≠ s.second ∧ { s with second := l }.apply x = s.apply x ∧
      { s with second := l }.applyInLanes x = s.applyInLanes x ∧
    SumsTo (fun i => Kernel.product (x.get i) (w.get i)) (Kernel.dot x w) ∧
      SumsTo (fun p : Fin 16 × Fin 16 => Lanes.pairOf x w p.1 p.2) (Lanes.dot (n := 16) x w) := by
  intro s x l w
  have hx : ∀ b ∈ x, b ≤ 127 := by simp [x]
  have hvalue : s.unpadded x = 9753600 := by
    rw [unpadded, unpaddedFrom_bypassing, unpadded_bypassing]
    decide
  have hsame : l.SameOnInputs s.second := by
    refine ⟨rfl, funext fun o => funext fun i => ?_⟩
    simp only [Affine.weight, l, s, bypassing, Vector.get_replicate, Vector.get_ofFn]
    exact if_pos i.isLt
  have hother : l ≠ s.second := fun h => by
    have hentry : (l.weights.get 0).get ⟨31, by decide⟩ =
        (s.second.weights.get 0).get ⟨31, by decide⟩ := by rw [h]
    simp only [l, s, bypassing, Vector.get_replicate, Vector.get_ofFn] at hentry
    exact absurd hentry (by decide)
  obtain ⟨hstack, hdot, hlanes⟩ := computes_unpadded_layers
  obtain ⟨happly, hsmall, -, hpadding⟩ := hstack s x
  obtain ⟨hpad, hpadLanes⟩ := hpadding l hsame
  exact ⟨hx, hvalue, happly, hsmall hx, hsame, hother, hpad, hpadLanes,
    hdot 512 x w (by decide), hlanes 16 x w (by decide)⟩

/-- Two products of 255 and 127 are more than 16 bits hold. -/
theorem large_bytes_saturate :
    ((bypassing 127).applyInLanes (.replicate 512 255)).toInt = 9907502 ∧
      (bypassing 127).unpadded (.replicate 512 255) = 19584000 := by
  constructor
  · rw [toInt_applyInLanes, unpaddedFrom_bypassing, paired_bypassing]
    decide
  · rw [unpadded, unpaddedFrom_bypassing, unpadded_bypassing]
    decide

end LayerStack

end ChessEval
