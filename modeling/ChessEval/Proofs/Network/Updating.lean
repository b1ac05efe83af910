import ChessEval.Proofs.Board.PieceList
import ChessEval.Proofs.Board.Playing
import ChessEval.Proofs.Network.Refreshing

/-! The sums of a position are updated to those of the next: what a move exchanges on the board and
among the threats accounts for the whole difference. -/
namespace ChessEval

variable {F : FeatureSet} {width buckets : Nat} {t : Transformer F width buckets} {p q : Position}
  {view c : Color} {k : Piece} {king s : Square} {off on : List Placed} {d : Change}

theorem Color.index_injective : Function.Injective Color.index := by
  intro c c' h
  cases c <;> cases c' <;> first | rfl | cases h

theorem Piece.index_injective : Function.Injective Piece.index := by
  intro k k' h
  cases k <;> cases k' <;> first | rfl | cases h

theorem Color.index_lt (c : Color) : c.index < 2 := by cases c <;> decide

theorem Piece.index_lt (k : Piece) : k.index < 6 := by cases k <;> decide

namespace Threat

/-- The key of a threat tells it from all others. -/
theorem key_injective : Function.Injective key := by
  rintro ⟨c, k, s, v, u⟩ ⟨c', k', s', v', u'⟩ h
  have hc := c.index_lt
  have hc' := c'.index_lt
  have hk := k.index_lt
  have hk' := k'.index_lt
  have hv := v.index_lt
  have hv' := v'.index_lt
  obtain ⟨hc, hk, hs, hv, hu⟩ : c.index = c'.index ∧ k.index = k'.index ∧ s.val = s'.val ∧
      v.index = v'.index ∧ u.val = u'.val := by
    simp only [key] at h
    omega
  rw [Color.index_injective hc, Piece.index_injective hk, Fin.ext hs, Color.index_injective hv,
    Fin.ext hu]

theorem sorted_perm (p : Position) : (sorted p).Perm (all p) := List.mergeSort_perm _ _

end Threat

namespace ThreatChange

open Transformer

/-- What the merge removes and adds leads from the first list to the second. -/
theorem total_between (t : Transformer F width buckets) (f : Threat → Nat) (l l' : List Threat) :
    t.total (l.map f) - t.total ((between l l').removed.map f) +
      t.total ((between l l').added.map f) = t.total (l'.map f) := by
  fun_induction between l l' with
  | case1 l' => simp
  | case2 l h => simp
  | case3 a l b l' h d ih =>
    rw [← ih]
    simp only [List.map_cons, total_cons]
    abel
  | case4 a l b l' h h' d ih =>
    rw [show (b :: l').map f = f b :: l'.map f from rfl, total_cons, ← ih]
    simp only [List.map_cons, total_cons]
    abel
  | case5 a l b l' h h' ih =>
    obtain rfl := Threat.key_injective (le_antisymm (not_lt.mp h') (not_lt.mp h))
    rw [List.map_cons, List.map_cons, total_cons, total_cons, ← ih]
    abel

end ThreatChange

namespace Position

theorem active_eq_map (p : Position) (view : Color) (king : Square) :
    Feature.active p view king = p.placedPieces.map (Transformer.placedIndex view king) := by
  simp only [Feature.active, placedPieces, List.map_flatMap, List.map_map]
  rfl

end Position

/-- A move's change leads from the first position to the second. -/
structure Follows (p : Position) (d : Change) (q : Position) : Prop where
  exchangeable : p.Exchangeable d.removed d.added
  same : q.SameBoard (p.exchange d.removed d.added)

namespace Follows

theorem total_active (h : Follows p d q) (hp : p.Consistent) (t : Transformer F width buckets)
    (view : Color) (king : Square) :
    t.total (Feature.active p view king) -
        t.total (d.removed.map (Transformer.placedIndex view king)) +
        t.total (d.added.map (Transformer.placedIndex view king)) =
      t.total (Feature.active q view king) := by
  obtain ⟨hq, hp⟩ := Position.placedPieces_exchange_perm h.exchangeable hp
  rw [Position.active_eq_map, Position.active_eq_map, h.same.placedPieces,
    ← t.total_perm (hq.map _), ← t.total_perm (hp.map _), List.map_append, List.map_append,
    Transformer.total_append, Transformer.total_append]
  abel

theorem total_threatIndices (t : Transformer F width buckets) (p q : Position) (view : Color)
    (king : Square) :
    t.total (F.threatIndices (Threat.all p) view king) -
        t.total (F.threatIndices (ThreatChange.between (Threat.sorted p) (Threat.sorted q)).removed
          view king) +
        t.total (F.threatIndices (ThreatChange.between (Threat.sorted p) (Threat.sorted q)).added
          view king) =
      t.total (F.threatIndices (Threat.all q) view king) := by
  cases F with
  | pieceSquare => simp [FeatureSet.threatIndices]
  | withThreats =>
    have h := ThreatChange.total_between t (Threat.index view king) (Threat.sorted p)
      (Threat.sorted q)
    rwa [t.total_perm ((Threat.sorted_perm p).map _), t.total_perm ((Threat.sorted_perm q).map _)]
      at h

/-- The update gives the sums of the next position, where the perspective's king stands as
before. -/
theorem update (h : Follows p d q) (hp : p.Consistent) {before : Sums width buckets}
    (hb : t.refresh? p view = some before) (hk : p.king? view = some king)
    (hk' : q.king? view = some king) :
    t.refresh? q view = some (t.update before d
      (.between (Threat.sorted p) (Threat.sorted q)) king view) := by
  rw [Transformer.refresh?, hk, Option.map_some, F.active_eq, t.addAll_eq,
    Transformer.total_append] at hb
  rw [Transformer.refresh?, hk', Option.map_some, F.active_eq, t.addAll_eq,
    Transformer.total_append, ← h.total_active hp t view king,
    ← total_threatIndices t p q view king, ← Option.some.inj hb]
  simp only [Transformer.update, t.addAll_eq, t.subAll_eq]
  congr 1
  abel

/-- A king that the change does not name stays where it is. -/
theorem king?_eq (h : Follows p d q) (hp : p.Sound) (hq : q.Sound)
    (hk : d.movesKing view = false) : q.king? view = p.king? view := by
  obtain ⟨s, hs, hking⟩ := hp.exists_king view
  rw [hs, hq.king?_eq_some_iff, Position.pieceAt?_eq_some_iff hq.toConsistent, h.same.pieces,
    Position.mem_pieces_exchange]
  refine Or.inr ⟨(Position.pieceAt?_eq_some_iff hp.toConsistent).mp ((hking s).mpr rfl), fun hoff => ?_⟩
  rw [Change.movesKing, List.any_eq_false] at hk
  exact hk _ hoff (by simp)

end Follows

end ChessEval
