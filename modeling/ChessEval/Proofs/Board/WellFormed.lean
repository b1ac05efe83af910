import ChessEval.Proofs.Board.Attacking

/-! Positions with one king a side, and those whose en passant square is what a double step left. -/
namespace ChessEval

variable {p q : Position} {c : Color} {s t : Square} {x : Placed} {l : List Placed}

/-- The rank onto which a color captures en passant. -/
def Color.sixthRank : Color → Fin 8
  | .white => 5
  | .black => 2

namespace Position

structure Sound (p : Position) : Prop extends p.Consistent where
  one_king : ∀ c, p.count c .king = 1

structure WellFormed (p : Position) : Prop extends p.Sound where
  /-- The en passant square is empty, on the mover's sixth rank, an enemy pawn right behind it. -/
  en_passant : ∀ t, p.enPassant = some t → t.rank = p.turn.sixthRank ∧ p.pieceAt? t = none ∧
    ∃ v, t.Off (-p.turn.forward, 0) v ∧ p.pieceAt? v = some (p.turn.opponent, .pawn)

/-- The square of a color's king. -/
theorem Sound.exists_king (hp : p.Sound) (c : Color) :
    ∃ s, p.king? c = some s ∧ ∀ t, p.pieceAt? t = some (c, .king) ↔ t = s := by
  obtain ⟨s, hs⟩ := Bitboard.card_eq_one_iff.mp (hp.one_king c)
  refine ⟨s, ?_, fun t => ?_⟩
  · rw [king?, hs, Bitboard.first?_single]
  · rw [pieceAt?_eq_some_iff hp.toConsistent, hs, Bitboard.mem_single]

theorem Consistent.sound (hp : p.Consistent)
    (h : ∀ c, ∃ s, ∀ t, p.pieceAt? t = some (c, .king) ↔ t = s) : p.Sound := by
  refine ⟨hp, fun c => Bitboard.card_eq_one_iff.mpr ?_⟩
  obtain ⟨s, hs⟩ := h c
  refine ⟨s, Bitboard.ext fun t => ?_⟩
  rw [← pieceAt?_eq_some_iff hp, hs, Bitboard.mem_single]

theorem Sound.king?_eq_some_iff (hp : p.Sound) :
    p.king? c = some s ↔ p.pieceAt? s = some (c, .king) := by
  obtain ⟨t, ht, hu⟩ := hp.exists_king c
  rw [ht, hu, Option.some.injEq, eq_comm]

theorem Sound.king_unique (hp : p.Sound) (hs : p.pieceAt? s = some (c, .king))
    (ht : p.pieceAt? t = some (c, .king)) : s = t := by
  rw [← hp.king?_eq_some_iff] at hs ht
  exact Option.some.inj (hs.symm.trans ht)

theorem Sound.of_sameBoard (hq : q.Sound) (h : p.SameBoard q) : p.Sound := by
  refine ⟨h.consistent hq.toConsistent, fun c => ?_⟩
  rw [count, h.pieces]
  exact hq.one_king c

theorem consistent_empty : empty.Consistent := by
  have hp : ∀ c k s, s ∉ empty.pieces c k := fun c k s => by
    cases c <;> cases k <;> exact Bitboard.not_mem_empty s
  have ho : ∀ c s, s ∉ empty.occupiedBy c := fun c s => by
    cases c <;> exact Bitboard.not_mem_empty s
  have ha : ∀ s, s ∉ empty.occupied := Bitboard.not_mem_empty
  refine ⟨fun hs => (hp _ _ _ hs).elim, fun {s c} => ?_, fun {s} => ?_⟩
  · simp [hp, ho]
  · simp [ho, ha]

theorem Consistent.put (hp : p.Consistent) (hs : x.square ∉ p.occupied) : (p.put x).Consistent := by
  have he : p.Exchangeable [] [x] := by
    refine ⟨by simp, by simp, by simp, ?_, by simp⟩
    simp [(pieceAt?_eq_none_iff hp).mpr hs]
  exact he.consistent hp

/-- Pieces put on distinct squares of an empty board. -/
theorem consistent_of_distinct (h : (l.map Placed.square).Nodup) :
    (empty.exchange [] l).Consistent := by
  have he : empty.Exchangeable [] l := by
    refine ⟨by simp, h.of_map _, by simp, fun x _ => ?_, fun x hx y hy hs => ?_⟩
    · exact Or.inl ((pieceAt?_eq_none_iff consistent_empty).mpr (Bitboard.not_mem_empty _))
    · exact List.inj_on_of_nodup_map h hx hy hs
  exact he.consistent consistent_empty

theorem sound_initial : initial.Sound := by
  have h : (empty.exchange [] (Color.all.flatMap homePieces)).Sound := by
    refine ⟨consistent_of_distinct (by decide), fun c => ?_⟩
    cases c <;> decide
  exact h.of_sameBoard ⟨fun c => by cases c <;> rfl, rfl⟩

theorem wellFormed_initial : initial.WellFormed := ⟨sound_initial, fun _ h => by cases h⟩

end Position

end ChessEval
