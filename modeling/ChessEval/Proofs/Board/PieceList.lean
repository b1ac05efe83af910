import ChessEval.Proofs.Board.Placement

/-! The list of a position's pieces, and what an exchange does to it. -/
namespace ChessEval

variable {p q : Position} {off on : List Placed} {c : Color} {k : Piece} {s : Square}

namespace Position

/-- The pieces of a position, color by color and kind by kind. -/
def placedPieces (p : Position) : List Placed :=
  Color.all.flatMap fun c => Piece.all.flatMap fun k => (p.pieces c k).toList.map (⟨c, k, ·⟩)

@[simp] theorem mem_placedPieces : ⟨c, k, s⟩ ∈ p.placedPieces ↔ s ∈ p.pieces c k := by
  simp only [placedPieces, List.mem_flatMap, List.mem_map, Bitboard.mem_toList, Placed.mk.injEq]
  constructor
  · rintro ⟨c', -, k', -, s', hs, rfl, rfl, rfl⟩
    exact hs
  · intro hs
    exact ⟨c, by cases c <;> decide, k, by cases k <;> decide, s, hs, rfl, rfl, rfl⟩

theorem nodup_placedPieces (p : Position) : p.placedPieces.Nodup := by
  have hc : Color.all.Nodup := by decide
  have hk : Piece.all.Nodup := by decide
  refine List.nodup_flatMap.mpr ⟨fun c _ => List.nodup_flatMap.mpr ⟨fun k _ => ?_, ?_⟩, ?_⟩
  · exact (Bitboard.nodup_toList _).map fun s u h => congrArg Placed.square h
  · refine hk.imp fun hne x hx hx' => hne ?_
    obtain ⟨s, -, rfl⟩ := List.mem_map.mp hx
    obtain ⟨u, -, hu⟩ := List.mem_map.mp hx'
    exact (congrArg Placed.piece hu).symm
  · refine hc.imp fun hne x hx hx' => hne ?_
    obtain ⟨k, -, hx⟩ := List.mem_flatMap.mp hx
    obtain ⟨k', -, hx'⟩ := List.mem_flatMap.mp hx'
    obtain ⟨s, -, rfl⟩ := List.mem_map.mp hx
    obtain ⟨u, -, hu⟩ := List.mem_map.mp hx'
    exact (congrArg Placed.color hu).symm

/-- An exchange leaves what it does not take off, besides what it puts on. -/
theorem placedPieces_exchange_perm (h : p.Exchangeable off on) (hp : p.Consistent) :
    (on ++ p.placedPieces.filter (· ∉ off)).Perm (p.exchange off on).placedPieces ∧
      (off ++ p.placedPieces.filter (· ∉ off)).Perm p.placedPieces := by
  have hr := h.reversible hp
  constructor
  · refine (List.perm_ext_iff_of_nodup ?_ (nodup_placedPieces _)).mpr ?_
    · refine List.nodup_append.mpr ⟨h.nodup_on, (nodup_placedPieces p).filter _, ?_⟩
      rintro ⟨c, k, s⟩ hon x hx rfl
      rw [List.mem_filter, mem_placedPieces, decide_eq_true_eq] at hx
      exact hx.2 (hr.pieces_on hon hx.1)
    · rintro ⟨c, k, s⟩
      simp [mem_pieces_exchange]
  · refine (List.perm_ext_iff_of_nodup ?_ (nodup_placedPieces _)).mpr ?_
    · refine List.nodup_append.mpr ⟨h.nodup_off, (nodup_placedPieces p).filter _, ?_⟩
      rintro x hoff y hy rfl
      rw [List.mem_filter, decide_eq_true_eq] at hy
      exact hy.2 hoff
    · rintro ⟨c, k, s⟩
      simp only [List.mem_append, List.mem_filter, mem_placedPieces, decide_eq_true_eq]
      constructor
      · rintro (hs | hs)
        · exact hr.pieces hs
        · exact hs.1
      · intro hs
        by_cases hoff : ⟨c, k, s⟩ ∈ off
        · exact Or.inl hoff
        · exact Or.inr ⟨hs, hoff⟩

theorem SameBoard.placedPieces (h : p.SameBoard q) : p.placedPieces = q.placedPieces := by
  simp only [Position.placedPieces, h.pieces]

end Position

end ChessEval
