import Mathlib.Algebra.Order.Ring.Abs
import Mathlib.Data.Fintype.Card
import ChessEval.Board.Material
import ChessEval.Proofs.Board.PieceList

/-! Material as a whole number: the counts of at most 64 pieces fit into the words that add them. -/
namespace ChessEval

variable {p : Position} {c : Color}

namespace Unbounded

def nonPawnMaterial (p : Position) (c : Color) : Int :=
  (Material.nonPawn.map fun k => k.worth.toInt * p.count c k).sum

def nonPawnMaterialTotal (p : Position) : Int := nonPawnMaterial p .white + nonPawnMaterial p .black

def materialBalance (p : Position) (c : Color) : Int :=
  Piece.pawn.worth.toInt * (p.count c .pawn - p.count c.opponent .pawn) + nonPawnMaterial p c -
    nonPawnMaterial p c.opponent

end Unbounded

namespace Position

theorem length_placedPieces (p : Position) :
    p.placedPieces.length = (Piece.all.map p.countBoth).sum := by
  simp only [placedPieces, Color.all, Piece.all, List.flatMap_cons, List.flatMap_nil,
    List.length_append, List.length_map, List.map_cons, List.map_nil, List.sum_cons, List.sum_nil,
    List.length_nil, countBoth, count, Bitboard.card]
  omega

/-- No more pieces than squares. -/
theorem Consistent.sum_countBoth_le (hp : p.Consistent) :
    (Piece.all.map p.countBoth).sum ≤ 64 := by
  have hsquares : (p.placedPieces.map Placed.square).Nodup := by
    refine (nodup_placedPieces p).map_on ?_
    rintro ⟨c, k, s⟩ hx ⟨c', k', s'⟩ hy rfl
    rw [mem_placedPieces] at hx hy
    obtain ⟨rfl, rfl⟩ := hp.unique hx hy
    rfl
  have hlength := hsquares.length_le_card
  rwa [List.length_map, length_placedPieces, Fintype.card_fin] at hlength

theorem nonPawnMaterial_eq (p : Position) (c : Color) :
    p.nonPawnMaterial c = .ofInt (Unbounded.nonPawnMaterial p c) := by
  simp only [nonPawnMaterial, Unbounded.nonPawnMaterial, Material.nonPawn, List.map_cons,
    List.map_nil, List.sum_cons, List.sum_nil, Int32.ofInt_add, Int32.ofInt_mul, Int32.ofInt_toInt]
  rfl

theorem nonPawnMaterialTotal_eq (p : Position) :
    p.nonPawnMaterialTotal = .ofInt (Unbounded.nonPawnMaterialTotal p) := by
  rw [nonPawnMaterialTotal, nonPawnMaterial_eq, nonPawnMaterial_eq, ← Int32.ofInt_add]
  rfl

theorem materialBalance_eq (p : Position) (c : Color) :
    p.materialBalance c = .ofInt (Unbounded.materialBalance p c) := by
  rw [Unbounded.materialBalance, Int32.ofInt_sub, Int32.ofInt_add, Int32.ofInt_mul,
    Int32.ofInt_sub, Int32.ofInt_toInt, ← nonPawnMaterial_eq, ← nonPawnMaterial_eq]
  rfl

end Position

namespace Unbounded

theorem nonPawnMaterial_eq (p : Position) (c : Color) : nonPawnMaterial p c =
    854 * p.count c .knight + 915 * p.count c .bishop + 1380 * p.count c .rook +
      2682 * p.count c .queen := by
  simp only [nonPawnMaterial, Material.nonPawn, List.map_cons, List.map_nil, List.sum_cons,
    List.sum_nil, Piece.worth, Int32.reduceToInt]
  omega

end Unbounded

namespace Position

section Bounds

variable (hp : p.Consistent)

include hp

theorem Consistent.counts_le (c : Color) : p.count c .pawn + p.count c.opponent .pawn +
    (p.count c .knight + p.count c.opponent .knight) +
    (p.count c .bishop + p.count c.opponent .bishop) +
    (p.count c .rook + p.count c.opponent .rook) +
    (p.count c .queen + p.count c.opponent .queen) ≤ 64 := by
  have h := hp.sum_countBoth_le
  simp only [Piece.all, List.map_cons, List.map_nil, List.sum_cons, List.sum_nil, countBoth] at h
  cases c <;> simp only [Color.opponent] <;> omega

theorem Consistent.nonPawnMaterialTotal_bounds : 0 ≤ Unbounded.nonPawnMaterialTotal p ∧
    Unbounded.nonPawnMaterialTotal p ≤ 171648 := by
  have h := hp.counts_le .white
  rw [Unbounded.nonPawnMaterialTotal, Unbounded.nonPawnMaterial_eq, Unbounded.nonPawnMaterial_eq]
  simp only [Color.opponent] at h
  omega

theorem Consistent.abs_materialBalance_le (c : Color) :
    |Unbounded.materialBalance p c| ≤ 171648 := by
  have h := hp.counts_le c
  have hworth : Piece.pawn.worth.toInt = 208 := by decide
  rw [abs_le, Unbounded.materialBalance, Unbounded.nonPawnMaterial_eq,
    Unbounded.nonPawnMaterial_eq, hworth]
  omega

theorem Consistent.toInt_nonPawnMaterialTotal :
    p.nonPawnMaterialTotal.toInt = Unbounded.nonPawnMaterialTotal p := by
  obtain ⟨hle, hge⟩ := hp.nonPawnMaterialTotal_bounds
  rw [nonPawnMaterialTotal_eq, Int32.toInt_ofInt_of_le (by omega) (by omega)]

theorem Consistent.toInt_materialBalance (c : Color) :
    (p.materialBalance c).toInt = Unbounded.materialBalance p c := by
  obtain ⟨hle, hge⟩ := abs_le.mp (hp.abs_materialBalance_le c)
  rw [materialBalance_eq, Int32.toInt_ofInt_of_le (by omega) (by omega)]

end Bounds

end Position

end ChessEval
