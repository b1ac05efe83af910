import ChessEval.Proofs.Board.Hashing

/-! Castling rights along a move: none is gained, and those kept have king and rook at home. -/
namespace ChessEval

open Square Rules

variable {p next : Position} {undo : Undo} {m : Move} {d : Change} {r : CastlingRights}
  {c c' : Color} {side side' : CastlingSide} {k : Piece} {s : Square} {x : Placed}

/-- The corner from which a color castles to a side. -/
def Color.corner (c : Color) (side : CastlingSide) : Square :=
  .ofCoords c.backRank (Generate.rookFile side)

namespace CastlingRights

/-- No right that the second lacks. -/
instance : LE CastlingRights := ⟨fun r r' => ∀ c side, r.has c side = true → r'.has c side = true⟩

theorem le_trans {r r' r'' : CastlingRights} (h : r ≤ r') (h' : r' ≤ r'') : r ≤ r'' :=
  fun c side hr => h' c side (h c side hr)

@[simp] theorem has_set (held : Bool) : (r.set held c side).has c' side' =
    if c' = c ∧ side' = side then held else r.has c' side' := by
  cases c <;> cases side <;> cases c' <;> cases side' <;> rfl

theorem has_loseBoth : (r.loseBoth c).has c' side = true ↔ r.has c' side = true ∧ c' ≠ c := by
  rw [loseBoth, has_set, has_set]
  by_cases hc : c' = c <;> cases side <;> simp [hc]

/-- A rook's square costs the right whose corner it is. -/
theorem has_loseRook : (r.loseRook c s).has c' side = true ↔
    r.has c' side = true ∧ (c' = c → s ≠ c.corner side) := by
  have hcorner : s = c.corner side ↔ s.rank = c.backRank ∧ s.file = Generate.rookFile side := by
    constructor
    · rintro rfl
      simp [Color.corner]
    · rintro ⟨hr, hf⟩
      exact eq_of_coords (by simp [Color.corner, hr]) (by simp [Color.corner, hf])
  have hne : fileA ≠ fileH := by decide
  rw [loseRook, ne_eq, hcorner]
  split
  · next hr =>
    split
    · next hf => cases side <;> simp [hr, hf, Generate.rookFile, hne, and_comm]
    · next hf =>
      split
      · next hf' => cases side <;> simp [hr, hf', Generate.rookFile, hne.symm, and_comm]
      · next hf' => cases side <;> simp [hf, hf', Generate.rookFile]
  · next hr => simp [hr]

end CastlingRights

namespace Position

/-- The rights that a move leaves: all but those of a king that moves, of a rook that leaves its
corner and of a rook captured there. -/
theorem has_rightsAfter : (p.rightsAfter m k d).has c side = true ↔
    p.castling.has c side = true ∧ (c = p.turn → k ≠ .king) ∧
      (c = p.turn → k = .rook → m.origin ≠ c.corner side) ∧
      ∀ before after s, d = .capture before after ⟨c, .rook, s⟩ → m.target ≠ c.corner side := by
  unfold rightsAfter
  extract_lets kept
  have hkept : kept.has c side = true ↔ p.castling.has c side = true ∧ (c = p.turn → k ≠ .king) ∧
      (c = p.turn → k = .rook → m.origin ≠ c.corner side) := by
    by_cases hc : c = p.turn <;> cases k <;>
      simp [kept, CastlingRights.has_loseBoth, CastlingRights.has_loseRook, hc]
  clear_value kept
  rw [← and_assoc, ← and_assoc, and_assoc (a := p.castling.has c side = true), ← hkept]
  split
  · next before after c' s =>
    rw [CastlingRights.has_loseRook]
    refine and_congr_right fun _ => ⟨?_, ?_⟩
    · intro h _ _ _ hd
      simp only [Change.capture.injEq, Placed.mk.injEq] at hd
      obtain ⟨-, -, rfl, -, -⟩ := hd
      exact h rfl
    · rintro h rfl
      exact h _ _ _ rfl
  · next hne =>
    refine (and_iff_left ?_).symm
    rintro before after s rfl
    exact (hne _ _ _ _ rfl).elim

/-- Every right held has its king and its rook at home. -/
def AtHome (p : Position) : Prop :=
  ∀ c side, p.castling.has c side = true →
    p.pieceAt? (.ofCoords c.backRank fileE) = some (c, .king) ∧
      p.pieceAt? (c.corner side) = some (c, .rook)

end Position

namespace Played

variable (h : Played p m k next undo)

include h

/-- A move takes off the mover, with a king perhaps a rook of its color, and what it captures on its
target or else a pawn. -/
theorem of_mem_removed (hp : p.WellFormed) (hm : Permitted p m) (hx : x ∈ undo.change.removed) :
    x = ⟨p.turn, k, m.origin⟩ ∨ (x.color = p.turn ∧ k = .king) ∨
      ((∃ before after, undo.change = .capture before after x) ∧
        (x.square = m.target ∨ x.piece = .pawn)) := by
  by_cases hc : m.kind = .castle
  · have hd := h.fits.change
    rw [Position.change?_castle hc h.origin] at hd
    obtain ⟨-, rfl⟩ := pair_unique h.origin (hm.castle_squares hc).1
    rw [← Option.some.inj hd, Change.removed, List.mem_pair] at hx
    rcases hx with rfl | rfl <;> exact Or.inr (Or.inl ⟨rfl, rfl⟩)
  · obtain ⟨v, hv, hvictim⟩ : ∃ v, Play.victimSquare? p.turn m = some v ∧
        (v = m.target ∨ p.pieceAt? v = some (p.turn.opponent, .pawn)) := by
      by_cases he : m.kind = .enPassant
      · obtain ⟨-, hv, hpawn⟩ := hp.of_enPassant hm he
        exact ⟨_, hv, Or.inr hpawn⟩
      · exact ⟨m.target, by simp [Play.victimSquare?, he], Or.inl rfl⟩
    have hd := h.fits.change
    cases hs : p.pieceAt? v with
    | none =>
      rw [Position.change?_shift hc h.origin hv hs] at hd
      rw [← Option.some.inj hd, Change.removed, List.mem_singleton] at hx
      exact Or.inl hx
    | some y =>
      rw [Position.change?_capture hc h.origin hv hs] at hd
      rw [← Option.some.inj hd, Change.removed, List.mem_pair] at hx
      rcases hx with rfl | rfl
      · exact Or.inl rfl
      · refine Or.inr (Or.inr ⟨⟨_, _, (Option.some.inj hd).symm⟩,
          hvictim.imp_right fun hpawn => ?_⟩)
        exact (pair_unique hs hpawn).2

/-- Whatever the move does not take off stays where it is. -/
theorem pieceAt?_of_not_mem_removed (hp : p.Consistent)
    (hs : p.pieceAt? x.square = some (x.color, x.piece)) (hx : x ∉ undo.change.removed) :
    next.pieceAt? x.square = some (x.color, x.piece) := by
  rw [h.same.pieceAt?, h.fits.exchangeable.pieceAt?_exchange hp]
  exact Or.inr ⟨hs, hx⟩

theorem castling_le : next.castling ≤ p.castling := by
  intro c side hr
  rw [Position.castling_of_play? h.play h.origin, Position.has_rightsAfter] at hr
  exact hr.1

/-- A right that is kept keeps its king and its rook at home. -/
theorem atHome (hp : p.WellFormed) (hm : Permitted p m)
    (hk : p.pieceAt? m.target ≠ some (p.turn.opponent, .king)) (hh : p.AtHome) : next.AtHome := by
  intro c side hr
  rw [Position.castling_of_play? h.play h.origin, Position.has_rightsAfter] at hr
  obtain ⟨hr, hnking, hnrook, hncaptured⟩ := hr
  obtain ⟨hking, hrook⟩ := hh c side hr
  have hstays := fun x => h.pieceAt?_of_not_mem_removed (x := x) hp.toConsistent
  refine ⟨hstays ⟨c, .king, _⟩ hking fun hx => ?_, hstays ⟨c, .rook, _⟩ hrook fun hx => ?_⟩
  · rcases h.of_mem_removed hp hm hx with he | ⟨hc, he⟩ | ⟨-, he | he⟩
    · obtain ⟨hc, he, -⟩ := Placed.mk.inj he
      exact hnking hc he.symm
    · exact hnking hc he
    · exact hm.target_ne_king (hp.tame hm) hk c (he ▸ hking)
    · cases he
  · rcases h.of_mem_removed hp hm hx with he | ⟨hc, he⟩ | ⟨⟨before, after, hd⟩, he | he⟩
    · obtain ⟨hc, he, ho⟩ := Placed.mk.inj he
      exact hnrook hc he.symm ho.symm
    · exact hnking hc he
    · exact hncaptured before after _ hd he.symm
    · cases he

end Played

end ChessEval
