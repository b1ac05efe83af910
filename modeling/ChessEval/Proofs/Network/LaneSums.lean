import Mathlib
import ChessEval.Network.Lanes

/-! Vectors as rows of registers. What is done to every register is done to every entry, and a sum
may be taken in any grouping of the lanes. -/
namespace ChessEval.Lanes

variable {α β γ : Type} {n w : Nat}

@[simp] theorem get_zipWith (g : α → β → γ) (v : Vector α n) (v' : Vector β n) (i : Fin n) :
    (Vector.zipWith g v v').get i = g (v.get i) (v'.get i) :=
  Vector.getElem_zipWith ..

theorem ext_get {v v' : Vector α n} (h : ∀ i, v.get i = v'.get i) : v = v' :=
  Vector.ext fun i hi => h ⟨i, hi⟩

section Registers

variable (v : Vector α (n * w)) (f : Fin n → Vector α w) (i : Fin n)

@[simp] theorem get_load (k : Fin w) : (load v i).get k = v.get ⟨i * w + k, place_lt i k⟩ :=
  Vector.get_ofFn ..

theorem get_store (j : Fin (n * w)) :
    (store f).get j = (f ⟨j / w, register_lt j⟩).get ⟨j % w, lane_lt j⟩ :=
  Vector.get_ofFn ..

@[simp] theorem load_store : load (store f) i = f i := by
  refine ext_get fun k => ?_
  have hw : 0 < w := Nat.zero_lt_of_lt k.isLt
  have hi : (⟨(i * w + k) / w, register_lt ⟨_, place_lt i k⟩⟩ : Fin n) = i :=
    Fin.ext (by simp [Nat.add_comm, Nat.add_mul_div_right _ _ hw])
  have hk : (⟨(i * w + k) % w, lane_lt ⟨_, place_lt i k⟩⟩ : Fin w) = k :=
    Fin.ext (by simp [Nat.add_comm, Nat.mod_eq_of_lt k.isLt])
  rw [get_load, get_store]
  simp only [hi, hk]

@[simp] theorem store_load : store (load v) = v :=
  ext_get fun j => by
    rw [get_store, get_load]
    simp only [Nat.div_add_mod']

theorem eq_of_load {v v' : Vector α (n * w)} (h : ∀ i, load v i = load v' i) : v = v' := by
  rw [← store_load v, ← store_load v', funext h]

theorem load_map (g : α → β) : load (v.map g) i = (load v i).map g := ext_get fun k => by simp

theorem load_zipWith (g : α → β → γ) (v' : Vector β (n * w)) :
    load (Vector.zipWith g v v') i = Vector.zipWith g (load v i) (load v' i) :=
  ext_get fun k => by simp

end Registers

section Sums

theorem toList_eq_ofFn (v : Vector α n) : v.toList = List.ofFn v.get :=
  List.ext_getElem (by simp) fun i h h' => by
    rw [List.getElem_ofFn]
    exact Vector.getElem_toList ..

theorem toBitVec_sum (v : Vector Int32 n) : v.sum.toBitVec = ∑ i, (v.get i).toBitVec := by
  have hmap (l : List Int32) : l.sum.toBitVec = (l.map Int32.toBitVec).sum := by
    induction l with
    | nil => rfl
    | cons a l ih => rw [List.sum_cons, Int32.toBitVec_add, ih, List.map_cons, List.sum_cons]
  rw [← Vector.sum_toList, hmap, toList_eq_ofFn, List.map_ofFn, List.sum_ofFn]
  rfl

/-- A sum of words is the exact sum, wrapped once at the end. -/
theorem sum_eq_ofInt (v : Vector Int32 n) : v.sum = .ofInt (∑ i, (v.get i).toInt) := by
  have hmap (l : List Int32) : l.sum = .ofInt (l.map Int32.toInt).sum := by
    induction l with
    | nil => rfl
    | cons a l ih =>
      rw [List.sum_cons, List.map_cons, List.sum_cons, Int32.ofInt_add, Int32.ofInt_toInt, ih]
  rw [← Vector.sum_toList, hmap, toList_eq_ofFn, List.map_ofFn, List.sum_ofFn]
  rfl

/-- Register by register and lane by lane, every entry is met once. -/
theorem sum_lanes {M : Type} [AddCommMonoid M] (g : Fin (n * w) → M) :
    ∑ i : Fin n, ∑ k : Fin w, g ⟨i * w + k, place_lt i k⟩ = ∑ j, g j := by
  rw [← finProdFinEquiv.sum_comp, Fintype.sum_prod_type]
  refine Finset.sum_congr rfl fun i _ => Finset.sum_congr rfl fun k _ => congrArg g (Fin.ext ?_)
  simp [finProdFinEquiv, Nat.mul_comm, Nat.add_comm]

/-- A vector's sum is the sum of its registers' sums. -/
theorem toBitVec_sum_store (f : Fin n → Vector Int32 w) :
    (store f).sum.toBitVec = ∑ i, (f i).sum.toBitVec := by
  simp only [toBitVec_sum, ← sum_lanes, ← get_load, load_store]

/-- Only the registers' sums matter, not how wide they are. -/
theorem sum_store_eq {u : Nat} {f : Fin n → Vector Int32 u} {v : Vector Int32 (n * w)}
    (h : ∀ i, (f i).sum = (load v i).sum) : (store f).sum = v.sum := by
  rw [← store_load v, ← Int32.toBitVec_inj, toBitVec_sum_store, toBitVec_sum_store]
  simp only [h]

theorem sum_add32 (a b : Vector Int32 n) : (add32 a b).sum = a.sum + b.sum := by
  simp only [← Int32.toBitVec_inj, Int32.toBitVec_add, toBitVec_sum, add32, get_zipWith,
    Finset.sum_add_distrib]

theorem sum_add_pairs (v : Vector Int32 (n * 2)) : (add32 (evens v) (odds v)).sum = v.sum := by
  rw [← Int32.toBitVec_inj, toBitVec_sum, toBitVec_sum, ← sum_lanes]
  simp only [Fin.sum_univ_two, add32, evens, odds, get_zipWith, Vector.get_ofFn, get_load,
    Int32.toBitVec_add]
  rfl

theorem sum_foldHalves (v : Vector Int32 (2 * w)) : (foldHalves v).sum = v.sum := by
  rw [foldHalves, sum_add32]
  simp only [← Int32.toBitVec_inj, Int32.toBitVec_add, toBitVec_sum, ← sum_lanes (n := 2),
    Fin.sum_univ_two, lower, upper, get_load]
  rfl

theorem total_eq (v : Vector Int32 8) : total v = v.sum := by
  have hone (v : Vector Int32 1) : v.get ⟨0, Nat.one_pos⟩ = v.sum := by
    rw [← Int32.toBitVec_inj, toBitVec_sum, Fin.sum_univ_one]
    rfl
  rw [total, hone, sum_foldHalves (w := 1), sum_foldHalves (w := 2), sum_foldHalves (w := 4)]

theorem toBitVec_sum_foldl (f : Fin n → Vector Int32 w) :
    (Fin.foldl n (fun sum i => add32 sum (f i)) (.replicate w 0)).sum.toBitVec =
      ∑ i, (f i).sum.toBitVec := by
  induction n with
  | zero => simp [toBitVec_sum]
  | succ n ih =>
    rw [Fin.foldl_succ_last, sum_add32, Int32.toBitVec_add, ih, Fin.sum_univ_castSucc]

theorem sumOver_eq (f : Fin n → Vector Int32 8) : sumOver f = (store f).sum := by
  rw [sumOver, total_eq, ← Int32.toBitVec_inj, toBitVec_sum_foldl, toBitVec_sum_store]

end Sums

end ChessEval.Lanes
