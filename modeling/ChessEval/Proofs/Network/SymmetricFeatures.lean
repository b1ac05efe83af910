import ChessEval.Proofs.Board.Symmetry
import ChessEval.Proofs.Network.ThreatLists

/-! The image of a position has the features of the position, seen by the image of a side. -/
namespace ChessEval

open Square

variable {F : FeatureSet} {width buckets : Nat} {p : Position} {view c : Color} {k : Piece}
  {king s : Square}

def Symmetry.threat (σ : Symmetry) (t : Threat) : Threat :=
  ⟨σ.color t.color, t.piece, σ.square t.origin, σ.color t.victim, σ.square t.target⟩

namespace Feature

theorem isMirrored_flipVertical (king : Square) : isMirrored king.flipVertical = isMirrored king := by
  rw [isMirrored, flipVertical, file_ofCoords, isMirrored]

theorem isMirrored_flipHorizontal (king : Square) :
    isMirrored king.flipHorizontal = !isMirrored king := by
  revert king
  decide

/-- The frame of a side's king is that of its image. -/
theorem orient_image (σ : Symmetry) (view : Color) (king s : Square) :
    orient (σ.color view) (σ.square king) (σ.square s) = orient view king s := by
  cases σ with
  | flip =>
    cases view <;>
      simp only [orient, Symmetry.color, Symmetry.square, Color.opponent,
        isMirrored_flipVertical] <;>
      split <;> simp [flipVertical_flipHorizontal]
  | reflect =>
    -- the half on which the king stands is the other one, so that only one of the two squares
    -- is reflected
    cases hm : isMirrored king <;> cases view <;>
      simp [orient, Symmetry.color, Symmetry.square, isMirrored_flipHorizontal, hm]

end Feature

theorem Transformer.placedIndex_image (σ : Symmetry) (view : Color) (king : Square) (x : Placed) :
    Transformer.placedIndex (σ.color view) (σ.square king) (σ.placed x) =
      Transformer.placedIndex view king x := by
  simp only [Transformer.placedIndex, Feature.index, Feature.orientedIndex, Symmetry.placed,
    Feature.orient_image, Symmetry.color_inj]

namespace Threat

theorem index_image (σ : Symmetry) (view : Color) (king : Square) (t : Threat) :
    index (σ.color view) (σ.square king) (σ.threat t) = index view king t := by
  simp only [index, Symmetry.threat, Feature.orient_image, Symmetry.color_inj]

theorem strandedPawn_image (σ : Symmetry) (k : Piece) (s : Square) :
    strandedPawn k (σ.square s) = strandedPawn k s := by
  have hr : ∀ s : Square, ((σ.square s).rank == firstRank || (σ.square s).rank == eighthRank) =
      (s.rank == firstRank || s.rank == eighthRank) := by
    cases σ <;> decide
  rw [strandedPawn, hr, strandedPawn]

theorem ofPiece_image (σ : Symmetry) (p : Position) (c : Color) (k : Piece) (s : Square) :
    (ofPiece (p.image σ) (σ.color c) k (σ.square s)).Perm ((ofPiece p c k s).map σ.threat) := by
  rw [ofPiece, strandedPawn_image, ofPiece]
  split
  · exact List.Perm.refl _
  · rw [Position.occupied_image, Piece.attacks_image, ← Symmetry.set_and, List.map_map]
    refine ((σ.toList_set_perm _).map _).trans ?_
    rw [List.map_map]
    refine List.Perm.of_eq (List.map_congr_left fun t _ => ?_)
    simp only [Function.comp, Symmetry.threat, Position.occupiedBy_image, Symmetry.mem_set,
      Symmetry.square_square, Symmetry.color_color]
    by_cases ht : t ∈ p.occupiedBy c <;> simp [ht]

end Threat

namespace Position

theorem placedPieces_image (σ : Symmetry) (p : Position) :
    (p.image σ).placedPieces.Perm (p.placedPieces.map σ.placed) := by
  have hinj : Function.Injective σ.placed := Function.LeftInverse.injective σ.placed_placed
  refine (List.perm_ext_iff_of_nodup (nodup_placedPieces _)
    ((nodup_placedPieces p).map hinj)).mpr ?_
  rintro ⟨c, k, s⟩
  rw [mem_placedPieces, pieces_image, Symmetry.mem_set, List.mem_map]
  constructor
  · intro hs
    exact ⟨⟨σ.color c, k, σ.square s⟩, mem_placedPieces.mpr hs, by simp [Symmetry.placed]⟩
  · rintro ⟨⟨c', k', s'⟩, hs, h⟩
    obtain ⟨rfl, rfl, rfl⟩ := Placed.mk.inj h
    simpa using hs

end Position

theorem Threat.all_image (σ : Symmetry) (p : Position) :
    (all (p.image σ)).Perm ((all p).map σ.threat) := by
  rw [all_eq_flatMap, all_eq_flatMap, List.map_flatMap]
  refine ((p.placedPieces_image σ).flatMap_right _).trans ?_
  rw [List.flatMap_map]
  exact List.Perm.flatMap_left _ fun x _ => ofPiece_image σ p _ _ _

/-- The image has the same features, seen by the image of the side. -/
theorem FeatureSet.active_image (F : FeatureSet) (σ : Symmetry) (p : Position) (view : Color)
    (king : Square) :
    (F.active (p.image σ) (σ.color view) (σ.square king)).Perm (F.active p view king) := by
  have hpieces : (Feature.active (p.image σ) (σ.color view) (σ.square king)).Perm
      (Feature.active p view king) := by
    rw [Position.active_eq_map, Position.active_eq_map]
    refine ((p.placedPieces_image σ).map _).trans (List.Perm.of_eq ?_)
    rw [List.map_map]
    exact List.map_congr_left fun x _ => Transformer.placedIndex_image σ view king x
  cases F with
  | pieceSquare => exact hpieces
  | withThreats =>
    refine hpieces.append (((Threat.all_image σ p).map _).trans (List.Perm.of_eq ?_))
    rw [List.map_map]
    exact List.map_congr_left fun t _ => Threat.index_image σ view king t

/-- A side's sums of the image are those that its own image has of the position. -/
theorem Transformer.refresh?_image (t : Transformer F width buckets) (hp : p.Sound) (σ : Symmetry)
    (view : Color) : t.refresh? (p.image σ) view = t.refresh? p (σ.color view) := by
  rw [Transformer.refresh?, hp.king?_image, Option.map_map, Transformer.refresh?]
  congr 1
  funext king
  have h := F.active_image σ p (σ.color view) king
  rw [Symmetry.color_color] at h
  simp only [Function.comp, t.addAll_eq, t.total_perm h]

end ChessEval
