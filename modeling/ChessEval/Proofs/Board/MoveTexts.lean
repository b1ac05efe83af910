import ChessEval.Board.MoveText
import ChessEval.Proofs.Board.FenText
import ChessEval.Proofs.Board.KingCaptures

/-! The text of a move is read as that move: nothing that its text leaves out can be anything
else. -/
namespace ChessEval

open Square Rules

variable {p : Position} {m : Move} {c : Color} {k : Piece} {s t : Square} {takes : Bool}
  {l : List Move}

namespace Move

theorem toNat_lt_of_mem_letters {x : Char} (h : x ∈ m.letters) : x.toNat < 128 := by
  have hletters : ∀ s : Square, s.letters.all (·.toNat < 128) = true := by decide
  have hsquare : ∀ s : Square, x ∈ s.letters → x.toNat < 128 := fun s hx =>
    of_decide_eq_true (List.all_eq_true.mp (hletters s) x hx)
  have hpiece : ∀ k : Piece, k.letter.toNat < 128 := fun k => by cases k <;> decide
  rw [letters, List.mem_append, List.mem_append] at h
  rcases h with (h | h) | h
  · exact hsquare _ h
  · exact hsquare _ h
  · cases hp : m.promoted? with
    | none => rw [hp] at h; cases h
    | some k =>
      rw [hp] at h
      obtain rfl := List.mem_singleton.mp h
      exact hpiece k

theorem utf8ByteSize_text (m : Move) : m.text.utf8ByteSize = 4 + m.promoted?.toList.length := by
  rw [text, Text.utf8ByteSize_ofList fun _ => m.toNat_lt_of_mem_letters, letters]
  cases m.promoted? <;> rfl

end Move

namespace Position

/-- A text with an own piece on its first square is read as a move between its squares. -/
theorem readMove_text_mk (hs : p.pieceAt? s = some (p.turn, k)) (t : Square) (kind : MoveKind) :
    p.readMove (Move.text ⟨s, t, kind⟩) =
      let takes := (p.pieceAt? t).any fun x => x.1 != p.turn
      match (Move.mk s t kind).promoted? with
      | some k => (promotionLetter k.letter).map fun k => ⟨s, t, .promotion k takes⟩
      | none => .ok ⟨s, t, p.kindOf k s t takes⟩ := by
  generalize hm : Move.mk s t kind = m
  obtain rfl : m.origin = s := by rw [← hm]
  obtain rfl : m.target = t := by rw [← hm]
  have hchars : m.text.toList = m.letters := String.toList_ofList
  have horigin : m.letters.take 2 = m.origin.letters := rfl
  have htarget : (m.letters.drop 2).take 2 = m.target.letters := rfl
  have hletter : m.letters.drop 4 = (m.promoted?.map Piece.letter).toList := rfl
  have hguard : ¬ (m.text.utf8ByteSize < 4 ∨ 5 < m.text.utf8ByteSize ∨
      m.letters.any (128 ≤ ·.toNat) = true) := by
    rw [m.utf8ByteSize_text, List.any_eq_true]
    rintro (h | h | ⟨x, hx, h⟩)
    · omega
    · cases hp : m.promoted? <;> simp [hp] at h
    · have := m.toNat_lt_of_mem_letters hx
      simp only [decide_eq_true_eq] at h
      omega
  rw [readMove]
  simp only [hchars, if_neg hguard, horigin, htarget, hletter, ofLetters?_letters, hs, if_true]
  cases m.promoted? <;> rfl

/-- What a piece other than a pawn does is told by the target alone. -/
theorem kindOf_of_attacks {b : Board} (hk : k ≠ .pawn) (h : Attacks b c k s t) :
    p.kindOf k s t takes = if takes then .capture else .quiet := by
  cases k with
  | pawn => exact (hk rfl).elim
  | king =>
    have hfile : Play.fileDistance s t ≠ 2 := by
      have := h.2.2
      omega
    rw [kindOf, if_neg hfile]
  | _ => rfl

/-- So is what a pawn does that moves by one rank, unless an en passant capture is due. -/
theorem kindOf_pawn (he : p.enPassant = some t → s.file = t.file)
    (h : Play.rankDistance s t = 1) :
    p.kindOf .pawn s t takes = if takes then .capture else .quiet := by
  have hep : ¬ (p.enPassant = some t ∧ s.file ≠ t.file) := fun hp => hp.2 (he hp.1)
  rw [kindOf, if_neg hep, if_neg (by omega)]

end Position

namespace Rules

theorem rankDistance_of_forward {f : Int} (h : s.Off (c.forward, f) t) :
    Play.rankDistance s t = 1 := by
  cases c <;> simp only [Off, Color.forward, Play.rankDistance] at h ⊢ <;> omega

theorem rankDistance_of_pawnStep (h : PawnStep c s t) : Play.rankDistance s t = 1 :=
  h.elim rankDistance_of_forward rankDistance_of_forward

theorem rankDistance_of_double {u : Square} (hu : s.Off (c.forward, 0) u)
    (ht : u.Off (c.forward, 0) t) : Play.rankDistance s t = 2 := by
  cases c <;> simp only [Off, Color.forward, Play.rankDistance] at hu ht ⊢ <;> omega

theorem file_eq_of_forward (h : s.Off (c.forward, 0) t) : s.file = t.file := by
  have := h.2
  dsimp only at this
  omega

theorem file_ne_of_pawnStep (h : PawnStep c s t) : s.file ≠ t.file := by
  intro hf
  rw [PawnStep, Off, Off, hf] at h
  omega

theorem fileDistance_castle (r : Fin 8) :
    Play.fileDistance (.ofCoords r fileE) (.ofCoords r fileG) = 2 ∧
      Play.fileDistance (.ofCoords r fileE) (.ofCoords r fileC) = 2 := by
  simp only [Play.fileDistance, file_ofCoords]
  decide

end Rules

namespace Position

theorem promotionLetter_letter (h : k ∈ [Piece.queen, .rook, .bishop, .knight]) :
    promotionLetter k.letter = .ok k := by
  simp only [List.mem_cons, List.not_mem_nil, or_false] at h
  rcases h with rfl | rfl | rfl | rfl <;> rfl

/-- A move that the pieces of a well-formed position can make is read from its text. -/
theorem WellFormed.readMove_text (hp : p.WellFormed) (h : Permitted p m) :
    p.readMove m.text = .ok m := by
  cases h with
  | quiet hs hk ha hn =>
    simp [readMove_text_mk hs, Move.promoted?, kindOf_of_attacks hk ha, hn]
  | capture hs hk ha hn =>
    simp [readMove_text_mk hs, Move.promoted?, kindOf_of_attacks hk ha, hn]
  | @push s t hs hstep hn =>
    have hfile : p.enPassant = some t → s.file = t.file := fun _ => file_eq_of_forward hstep
    have hkind : ∀ takes, p.kindOf .pawn s t takes = if takes then .capture else .quiet :=
      fun _ => kindOf_pawn hfile (rankDistance_of_forward hstep)
    simp [readMove_text_mk hs, Move.promoted?, hkind, hn]
  | @doublePush s u t hs _ hu _ hv hn =>
    have hfile : s.file = t.file := (file_eq_of_forward hu).trans (file_eq_of_forward hv)
    simp [readMove_text_mk hs, Move.promoted?, kindOf, hfile, rankDistance_of_double hu hv]
  | @pawnCapture s t _ hs hstep hn =>
    -- it is none en passant, since the en passant square is empty
    have hfile : p.enPassant = some t → s.file = t.file := fun he => by
      rw [(hp.en_passant t he).2.1] at hn
      cases hn
    have hkind : ∀ takes, p.kindOf .pawn s t takes = if takes then .capture else .quiet :=
      fun _ => kindOf_pawn hfile (rankDistance_of_pawnStep hstep)
    simp [readMove_text_mk hs, Move.promoted?, hkind, hn]
  | promotion hs _ hn _ hk =>
    simp [readMove_text_mk hs, Move.promoted?, promotionLetter_letter hk, Except.map, hn]
  | capturingPromotion hs _ hn _ hk =>
    simp [readMove_text_mk hs, Move.promoted?, promotionLetter_letter hk, Except.map, hn]
  | enPassant hs he hstep =>
    simp [readMove_text_mk hs, Move.promoted?, kindOf, he, file_ne_of_pawnStep hstep]
  | castleKingside _ hs =>
    simp [readMove_text_mk hs, Move.promoted?, kindOf, (fileDistance_castle p.turn.backRank).1]
  | castleQueenside _ hs =>
    simp [readMove_text_mk hs, Move.promoted?, kindOf, (fileDistance_castle p.turn.backRank).2]

/-- A legal move of a well-formed position is read from its text, and found by it among the legal
moves. -/
theorem WellFormed.reads_text (hp : p.WellFormed) (hl : p.legalMoves? = some l)
    (hm : m ∈ l) : p.readMove m.text = .ok m ∧ p.readLegalMove? m.text = some (.ok m) := by
  have hread := hp.readMove_text (hp.toSound.trial_of_mem hl hm).permitted
  refine ⟨hread, ?_⟩
  obtain ⟨n, hn⟩ : ∃ n, l.find? (sameText · m) = some n :=
    Option.isSome_iff_exists.mp (List.find?_isSome.mpr ⟨m, hm, by simp [sameText]⟩)
  have hnl := List.mem_of_find?_eq_some hn
  -- the move found is written alike, so both are read from one text
  have htext : n.text = m.text := by
    have hsame := List.find?_some hn
    simp only [sameText, Bool.and_eq_true, beq_iff_eq] at hsame
    obtain ⟨⟨ho, ht⟩, hpr⟩ := hsame
    rw [Move.text, Move.letters, ho, ht, hpr]
    rfl
  have hnm : n = m := by
    have hreadn := hp.readMove_text (hp.toSound.trial_of_mem hl hnl).permitted
    rw [htext, hread] at hreadn
    exact (Except.ok.inj hreadn).symm
  rw [readLegalMove?, hread, hl]
  simp [hn, hnm]

end Position

end ChessEval
