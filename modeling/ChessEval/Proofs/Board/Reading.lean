import ChessEval.Proofs.Board.FenPlacement
import ChessEval.Proofs.Board.Hashing

/-! What the fields of a FEN are read as. Positions read from a FEN are sound, whatever its en passant
field. -/
namespace ChessEval

open Position

variable {p q : Position} {c : Color} {fs : List (List Char)}

namespace Fen

theorem checkKing_eq_ok_iff {u : Unit} : checkKing p c = .ok u ↔ p.count c .king = 1 := by
  rw [checkKing]
  split <;> simp_all

/-- What the fields of a FEN are read as: the board of the first field, which has one king a side,
the other fields each by itself, and the hash of all that. -/
theorem ofFields_eq_ok_iff : ofFields fs = .ok p ↔
    ∃ board side rights target rest q, fs = board :: side :: rights :: target :: rest ∧
      placement board = .ok q ∧ (∀ c, q.count c .king = 1) ∧ sideToMove side = .ok p.turn ∧
        castling rights .none = .ok p.castling ∧ enPassant target = .ok p.enPassant ∧
          p.SameBoard q ∧ p.halfmoves = counter 0 rest[0]? ∧ p.fullmoves = counter 1 rest[1]? ∧
            p.hash = p.hashOf := by
  constructor
  · intro h
    unfold ofFields at h
    split at h
    · next board side rights target rest =>
      obtain ⟨q, hq, h⟩ := Except.of_bind_eq_ok h
      obtain ⟨_, hw, h⟩ := Except.of_bind_eq_ok h
      obtain ⟨_, hb, h⟩ := Except.of_bind_eq_ok h
      obtain ⟨turn, hturn, h⟩ := Except.of_bind_eq_ok h
      obtain ⟨held, hheld, h⟩ := Except.of_bind_eq_ok h
      obtain ⟨passed, hpassed, h⟩ := Except.of_bind_eq_ok h
      obtain rfl := Except.ok.inj h
      have hking (c : Color) : q.count c .king = 1 := by
        cases c with
        | white => exact checkKing_eq_ok_iff.mp hw
        | black => exact checkKing_eq_ok_iff.mp hb
      have hboard (h : UInt64) (m n : UInt32) : SameBoard
          ⟨q.white, q.black, q.occupied, turn, passed, held, h, m, n⟩ q :=
        ⟨fun c => by cases c <;> rfl, rfl⟩
      refine ⟨board, side, rights, target, rest, q, rfl, hq, hking, hturn, hheld, hpassed,
        hboard _ _ _, ?_, ?_, rfl⟩
      · exact congrArg (counter 0) List.head?_eq_getElem?
      · exact congrArg (counter 1) (List.head?_eq_getElem?.trans List.getElem?_tail)
    · cases h
  · rintro ⟨board, side, rights, target, rest, q, rfl, hq, hking, hturn, hheld, hpassed, hboard,
      hhalf, hfull, hhash⟩
    have hw : q.white = p.white := (hboard.army .white).symm
    have hb : q.black = p.black := (hboard.army .black).symm
    have hcheck (c : Color) : checkKing q c = .ok () := checkKing_eq_ok_iff.mpr (hking c)
    simp only [ofFields, hq, hcheck, hturn, hheld, hpassed, hw, hb, ← hboard.occupied,
      List.head?_eq_getElem?, List.getElem?_tail, ← hhalf, ← hfull, bind, Except.bind, pure,
      Except.pure]
    exact congrArg Except.ok (congrArg (fun h => { p with hash := h }) hhash.symm)

theorem consistent_of_placement {board : List Char} (h : placement board = .ok p) : p.Consistent :=
  consistent_placeRanks h consistent_empty fun s hs => (Bitboard.not_mem_empty s hs).elim

theorem sound_of_ofFields (h : ofFields fs = .ok p) : p.Sound := by
  obtain ⟨_, _, _, _, _, q, -, hq, hking, -, -, -, hboard, -⟩ := ofFields_eq_ok_iff.mp h
  have hsound : q.Sound := ⟨consistent_of_placement hq, hking⟩
  exact hsound.of_sameBoard hboard

theorem hash_of_ofFields (h : ofFields fs = .ok p) : p.hash = p.hashOf := by
  obtain ⟨_, _, _, _, _, _, -, -, -, -, -, -, -, -, -, hhash⟩ := ofFields_eq_ok_iff.mp h
  exact hhash

end Fen

/-- Every position that a FEN tells has one king a side and sets that agree. -/
theorem Position.sound_of_ofFen {text : String} (h : ofFen text = .ok p) : p.Sound :=
  Fen.sound_of_ofFields h

theorem Position.hash_of_ofFen {text : String} (h : ofFen text = .ok p) : p.hash = p.hashOf :=
  Fen.hash_of_ofFields h

theorem Position.exists_of_ofFen (text : String) (f : Position → Bool)
    (h : (ofFen text).toOption.any f = true) : ∃ p, ofFen text = .ok p ∧ f p = true := by
  obtain ⟨p, hp, hf⟩ := (Option.any_eq_true _ _).mp h
  refine ⟨p, ?_, hf⟩
  cases hfen : ofFen text with
  | ok q => rw [hfen] at hp; exact congrArg _ (Option.some.inj hp)
  | error e => rw [hfen] at hp; cases hp

end ChessEval
