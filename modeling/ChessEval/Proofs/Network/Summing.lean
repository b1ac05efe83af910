import Mathlib.Algebra.BigOperators.Group.List.Basic
import Mathlib.Tactic.Abel
import ChessEval.Network.Transformer

/-! Sums of feature rows form a commutative group: the order of additions and subtractions does not
matter. -/
namespace ChessEval

variable {F : FeatureSet} {width buckets : Nat} {a b : Sums width buckets} {l l' : List Nat}

namespace Sums

theorem ext_getElem (hv : ∀ (i : Nat) (h : i < width), a.values[i] = b.values[i])
    (hp : ∀ (i : Nat) (h : i < buckets), a.psqt[i] = b.psqt[i]) : a = b := by
  cases a
  cases b
  congr 1
  · exact Vector.ext hv
  · exact Vector.ext hp

instance : Neg (Sums width buckets) := ⟨fun a => ⟨a.values.map (- ·), a.psqt.map (- ·)⟩⟩

instance : Zero (Sums width buckets) := ⟨zero⟩

section Entries

variable {i : Nat}

@[simp] theorem values_add (h : i < width) : (a + b).values[i] = a.values[i] + b.values[i] :=
  Vector.getElem_zipWith ..

@[simp] theorem psqt_add (h : i < buckets) : (a + b).psqt[i] = a.psqt[i] + b.psqt[i] :=
  Vector.getElem_zipWith ..

@[simp] theorem values_sub (h : i < width) : (a - b).values[i] = a.values[i] - b.values[i] :=
  Vector.getElem_zipWith ..

@[simp] theorem psqt_sub (h : i < buckets) : (a - b).psqt[i] = a.psqt[i] - b.psqt[i] :=
  Vector.getElem_zipWith ..

@[simp] theorem values_neg (h : i < width) : (-a).values[i] = -a.values[i] :=
  Vector.getElem_map ..

@[simp] theorem psqt_neg (h : i < buckets) : (-a).psqt[i] = -a.psqt[i] := Vector.getElem_map ..

@[simp] theorem values_zero (h : i < width) : (0 : Sums width buckets).values[i] = 0 :=
  Vector.getElem_replicate ..

@[simp] theorem psqt_zero (h : i < buckets) : (0 : Sums width buckets).psqt[i] = 0 :=
  Vector.getElem_replicate ..

end Entries

instance : AddCommGroup (Sums width buckets) where
  add_assoc a b c := ext_getElem (fun i h => by simp [Int16.add_assoc])
    fun i h => by simp [Int32.add_assoc]
  zero_add a := ext_getElem (fun i h => by simp) fun i h => by simp
  add_zero a := ext_getElem (fun i h => by simp) fun i h => by simp
  add_comm a b := ext_getElem (fun i h => by simp [Int16.add_comm])
    fun i h => by simp [Int32.add_comm]
  neg_add_cancel a := ext_getElem (fun i h => by simp [Int16.add_left_neg])
    fun i h => by simp [Int32.add_left_neg]
  sub_eq_add_neg a b := ext_getElem (fun i h => by simp [Int16.sub_eq_add_neg])
    fun i h => by simp [Int32.sub_eq_add_neg]
  nsmul := nsmulRec
  zsmul := zsmulRec

end Sums

namespace Transformer

variable (t : Transformer F width buckets) (s : Sums width buckets)

/-- The sum of the rows of some features. -/
def total (l : List Nat) : Sums width buckets := (l.map t.row).sum

@[simp] theorem total_nil : t.total [] = 0 := rfl

theorem total_cons (i : Nat) (l : List Nat) : t.total (i :: l) = t.row i + t.total l := by
  rw [total, List.map_cons, List.sum_cons, total]

@[simp] theorem total_append : t.total (l ++ l') = t.total l + t.total l' := by simp [total]

theorem total_perm (h : l.Perm l') : t.total l = t.total l' := (h.map t.row).sum_eq

theorem addAll_eq (l : List Nat) : t.addAll s l = s + t.total l := by
  induction l generalizing s with
  | nil => exact (add_zero s).symm
  | cons i l ih =>
    rw [addAll, List.foldl_cons, ← addAll, ih, total_cons, add_assoc]

theorem subAll_eq (l : List Nat) : t.subAll s l = s - t.total l := by
  induction l generalizing s with
  | nil => exact (sub_zero s).symm
  | cons i l ih =>
    rw [subAll, List.foldl_cons, ← subAll, ih, total_cons, sub_sub]

end Transformer

end ChessEval
