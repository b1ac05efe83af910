import ChessEval.Proofs.Board.MoveTexts

/-! Moves read from text and played without a look at the legal moves: all can be played, but for an
en passant capture on a square that has none behind it. -/
namespace ChessEval

open Square Rules

variable {p : Position} {m : Move} {c : Color} {k : Piece} {s t : Square} {text : String}
  {takes : Bool}

/-- An own pawn can be moved by text onto an en passant square of another file, behind which the
board ends. -/
def CapturesOffBoard (p : Position) : Prop :=
  ∃ s t, p.pieceAt? s = some (p.turn, .pawn) ∧ p.enPassant = some t ∧ s.file ≠ t.file ∧
    t.rank = p.turn.backRank

theorem Play.behind?_eq_none_iff : behind? c s = none ↔ s.rank = c.backRank := by
  revert s
  cases c <;> decide

namespace Position

/-- A move can be played from an occupied square, if the square that it captures on is on the
board. -/
theorem exists_play?_iff : (∃ x, p.play? m = some x) ↔
    p.pieceAt? m.origin ≠ none ∧ (m.kind = .enPassant → Play.behind? p.turn m.target ≠ none) := by
  constructor
  · rintro ⟨x, hx⟩
    refine ⟨origin_of_play? hx, fun he hb => ?_⟩
    have hchange : p.change? m = none := by
      cases ho : p.pieceAt? m.origin <;> simp [change?, Play.victimSquare?, ho, he, hb]
    cases ho : p.pieceAt? m.origin <;> simp [play?, ho, hchange] at hx
  · rintro ⟨ho, hb⟩
    obtain ⟨⟨c, k⟩, ho⟩ := Option.ne_none_iff_exists'.mp ho
    have hplay : ∀ d, p.change? m = some d → ∃ x, p.play? m = some x := fun d hd => by
      obtain ⟨next, hnext, -⟩ := play?_eq_some ho hd
      exact ⟨_, hnext⟩
    by_cases hc : m.kind = .castle
    · exact hplay _ (change?_castle hc ho)
    · obtain ⟨v, hv⟩ : ∃ v, Play.victimSquare? p.turn m = some v := by
        rw [Play.victimSquare?]
        split
        · next he => exact Option.ne_none_iff_exists'.mp (hb he)
        · exact ⟨_, rfl⟩
      cases hn : p.pieceAt? v with
      | none => exact hplay _ (change?_shift hc ho hv hn)
      | some y => exact hplay _ (change?_capture hc ho hv hn)

theorem kindOf_eq_enPassant_iff : p.kindOf k s t takes = .enPassant ↔
    k = .pawn ∧ p.enPassant = some t ∧ s.file ≠ t.file := by
  have hplain : (if takes then MoveKind.capture else .quiet) ≠ .enPassant := by
    cases takes <;> decide
  cases k with
  | pawn =>
    rw [kindOf]
    split
    · next h => exact iff_of_true rfl ⟨rfl, h⟩
    · next h =>
      refine iff_of_false ?_ fun hp => h hp.2
      split
      · decide
      · exact hplain
  | king =>
    rw [kindOf]
    split <;> simp [hplain]
  | _ => simp [kindOf, hplain]

/-- A text is read as a move of an own piece, and as an en passant capture only of a pawn that
leaves its file for the en passant square. -/
theorem of_readMove (h : p.readMove text = .ok m) :
    ∃ k, p.pieceAt? m.origin = some (p.turn, k) ∧ (m.kind = .enPassant →
      k = .pawn ∧ p.enPassant = some m.target ∧ m.origin.file ≠ m.target.file) := by
  simp only [readMove] at h
  split at h
  · cases h
  · split at h
    · next s t hs ht =>
      split at h
      · next c k ho =>
        split at h
        · next hc =>
          subst hc
          split at h
          · next letter _ _ =>
            cases hx : promotionLetter letter with
            | error e =>
              rw [hx] at h
              cases h
            | ok x =>
              rw [hx] at h
              obtain rfl := Except.ok.inj h
              exact ⟨k, ho, fun he => by cases he⟩
          · obtain rfl := Except.ok.inj h
            exact ⟨k, ho, kindOf_eq_enPassant_iff.mp⟩
        · cases h
      · cases h
    · cases h

/-- Such a pawn's move is read from its text. -/
theorem readMove_enPassant (hs : p.pieceAt? s = some (p.turn, .pawn)) (ht : p.enPassant = some t)
    (hfile : s.file ≠ t.file) :
    p.readMove (Move.text ⟨s, t, .enPassant⟩) = .ok ⟨s, t, .enPassant⟩ := by
  have hkind : ∀ takes, p.kindOf .pawn s t takes = .enPassant := fun _ =>
    kindOf_eq_enPassant_iff.mpr ⟨rfl, ht, hfile⟩
  simp only [readMove_text_mk hs, Move.promoted?, hkind]

/-- A move read from text can be played unless it captures en passant on the own back rank, and in a
position all can exactly if none is such a capture. -/
theorem read_moves_are_played (p : Position) :
    (∀ text m, p.readMove text = .ok m → ((∃ next undo, p.play? m = some (next, undo)) ↔
      ¬ (m.kind = .enPassant ∧ m.target.rank = p.turn.backRank))) ∧
    ((∀ text m, p.readMove text = .ok m → ∃ next undo, p.play? m = some (next, undo)) ↔
      ¬ CapturesOffBoard p) := by
  have hplay : ∀ text m, p.readMove text = .ok m →
      ((∃ next undo, p.play? m = some (next, undo)) ↔
        ¬ (m.kind = .enPassant ∧ m.target.rank = p.turn.backRank)) := by
    intro text m hm
    obtain ⟨k, ho, -⟩ := of_readMove hm
    rw [← Prod.exists', exists_play?_iff, ← Play.behind?_eq_none_iff, ho, not_and]
    exact and_iff_right (Option.some_ne_none _)
  refine ⟨hplay, fun hall => ?_, fun hnone text m hm => (hplay text m hm).mpr ?_⟩
  · rintro ⟨s, t, hs, ht, hfile, hrank⟩
    have hread := readMove_enPassant hs ht hfile
    exact (hplay _ _ hread).mp (hall _ _ hread) ⟨rfl, hrank⟩
  · rintro ⟨he, hrank⟩
    obtain ⟨k, ho, hpawn⟩ := of_readMove hm
    obtain ⟨rfl, ht, hfile⟩ := hpawn he
    exact hnone ⟨_, _, ho, ht, hfile, hrank⟩

/-- With the en passant square a1 a pawn on b2 cannot capture there. Its promotion in the far corner,
where a king stands, can be played. -/
theorem read_moves_are_played_but_one :
    ∃ p, ofFen "7k/8/8/8/8/8/1P6/7K w - a1 0 1" = .ok p ∧
      p.readMove "b2a1" = .ok ⟨9, 0, .enPassant⟩ ∧
      (¬ ∃ next undo, p.play? ⟨9, 0, .enPassant⟩ = some (next, undo)) ∧
      p.readMove "b2h8q" = .ok ⟨9, 63, .promotion .queen true⟩ ∧
      ∃ next undo, p.play? ⟨9, 63, .promotion .queen true⟩ = some (next, undo) := by
  obtain ⟨p, hp, h⟩ := exists_of_ofFen "7k/8/8/8/8/8/1P6/7K w - a1 0 1"
    (fun p => p.turn = .white ∧ p.readMove "b2a1" = .ok ⟨9, 0, .enPassant⟩ ∧
      p.readMove "b2h8q" = .ok ⟨9, 63, .promotion .queen true⟩) (by decide +kernel)
  obtain ⟨hturn, hcapture, hpromotion⟩ := of_decide_eq_true h
  obtain ⟨hplay, -⟩ := read_moves_are_played p
  refine ⟨p, hp, hcapture, fun hnext => ?_, hpromotion, (hplay _ _ hpromotion).mpr ?_⟩
  · exact (hplay _ _ hcapture).mp hnext ⟨rfl, by rw [hturn]; rfl⟩
  · rintro ⟨he, -⟩
    cases he

/-- Not every move read from text can be played: an en passant field on the own first rank makes one
that captures on a square off the board. -/
theorem read_move_not_played : ¬ ∀ fen p, ofFen fen = .ok p → ∀ text m, p.readMove text = .ok m →
    ∃ next undo, p.play? m = some (next, undo) := by
  intro hall
  obtain ⟨p, hp, h⟩ := exists_of_ofFen "7k/8/8/8/8/8/1P6/7K w - a1 0 1"
    (fun p => p.readMove "b2a1" = .ok ⟨9, 0, .enPassant⟩ ∧ p.play? ⟨9, 0, .enPassant⟩ = none)
    (by decide +kernel)
  obtain ⟨hread, hnone⟩ := of_decide_eq_true h
  obtain ⟨next, undo, hplay⟩ := hall _ p hp _ _ hread
  rw [hnone] at hplay
  cases hplay

end Position

end ChessEval
