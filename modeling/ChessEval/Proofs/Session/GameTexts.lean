import ChessEval.Proofs.Board.Games
import ChessEval.Proofs.Board.MoveTexts
import ChessEval.Proofs.Session.PlayedTexts

/-! Games as text: the command that tells a position by its FEN and the moves of a game by their
texts leads to the position that the game leads to. -/
namespace ChessEval.Position

variable {p : Position} {m : Move} {ms ms' : List Move}

/-- The position that some moves lead to, none if one of them cannot be played. -/
def playAll? : List Move → Position → Option Position
  | [], p => some p
  | m :: ms, p => (p.play? m).bind fun (next, _) => playAll? ms next

/-- Each move is legal in the position that the moves before it lead to. -/
def LegalLine : List Move → Position → Prop
  | [], _ => True
  | m :: ms, p => (∃ l ∈ p.legalMoves?, m ∈ l) ∧ ∀ x ∈ p.play? m, LegalLine ms x.1

instance decidableLegalLine : (ms : List Move) → (p : Position) → Decidable (LegalLine ms p)
  | [], _ => isTrue trivial
  | m :: ms, p =>
    have := decidableLegalLine ms
    inferInstanceAs (Decidable ((∃ l ∈ p.legalMoves?, m ∈ l) ∧ ∀ x ∈ p.play? m, LegalLine ms x.1))

/-- The words of the command that tells a game. -/
def gameWords (p : Position) (ms : List Move) : List String :=
  "position" :: "fen" :: (Text.words p.toFen.toList).map String.ofList ++
    "moves" :: ms.map Move.text

/-- The first move of a line is read from its text, and leads to a position from which the others
are a line. -/
theorem LegalLine.step (h : LegalLine (m :: ms) p) (hp : p.Faithful) :
    (p.readMove m.text = .ok m ∧ p.readLegalMove? m.text = some (.ok m)) ∧
      ∃ next undo, p.play? m = some (next, undo) ∧ next.Faithful ∧ LegalLine ms next := by
  obtain ⟨⟨l, hl, hm⟩, hrest⟩ := h
  obtain ⟨-, k, next, undo, hplayed⟩ := hp.exists_played hl hm
  obtain ⟨hnext, -⟩ := hp.step hl hm hplayed.play
  exact ⟨hp.reads_text hl hm, next, undo, hplayed.play, hnext, hrest _ hplayed.play⟩

/-- A line can be played up to any of its moves, and the texts up to there lead to the same
position. -/
theorem LegalLine.play (h : LegalLine (ms ++ ms') p) (hp : p.Faithful) :
    ∃ q, playAll? ms p = some q ∧ playTexts? (ms.map Move.text) p = some (.ok q) ∧ q.Faithful ∧
      LegalLine ms' q := by
  induction ms generalizing p with
  | nil => exact ⟨p, rfl, rfl, hp, h⟩
  | cons m ms ih =>
    obtain ⟨⟨-, hread⟩, next, undo, hplay, hnext, hline⟩ := LegalLine.step h hp
    obtain ⟨q, hq, htexts, hfaithful, hrest⟩ := ih hline hnext
    refine ⟨q, ?_, ?_, hfaithful, hrest⟩
    · rw [playAll?, hplay]
      exact hq
    · rw [List.map_cons, playTexts?, hread]
      simp only [hplay]
      exact htexts

theorem startOf_gameWords (hp : p.Faithful) (ms : List Move) :
    startOf (p.gameWords ms) = .ok (p, "moves" :: ms.map Move.text) := by
  have hlength : ((Fen.fields p).map String.ofList).length = 6 := rfl
  have hfen : " ".intercalate ((Fen.fields p).map String.ofList) = p.toFen := by
    have hchars : ((Fen.fields p).map String.ofList).map String.toList = Fen.fields p := by
      rw [List.map_map]
      exact List.map_id'' (fun _ => String.toList_ofList) _
    apply String.toList_inj.mp
    rw [String.toList_intercalate, hchars, toFen, String.toList_ofList, String.toList_ofList]
  rw [gameWords, words_toFen, List.cons_append, List.cons_append, startOf, if_neg, List.take_left',
    List.drop_left', hfen, hp.toSound.ofFen_toFen hp.hash_eq]
  · exact hlength
  · exact hlength
  · rw [List.length_append]
    omega

/-- The command made of a position's FEN and the texts of a game of legal moves leads to the
position that the game leads to. Each text is read as its move, with and without a look at the
legal moves. -/
theorem ofWords?_gameWords (hp : p.Faithful) (h : LegalLine ms p) :
    ∃ q, playAll? ms p = some q ∧ ofWords? (p.gameWords ms) = some (.ok q) ∧
      ∀ before m after, ms = before ++ m :: after → ∃ r, playAll? before p = some r ∧
        r.readMove m.text = .ok m ∧ r.readLegalMove? m.text = some (.ok m) := by
  have hline : LegalLine (ms ++ []) p := by rwa [List.append_nil]
  obtain ⟨q, hq, htexts, -⟩ := hline.play hp
  refine ⟨q, hq, ?_, ?_⟩
  · rw [ofWords?_of_startOf (startOf_gameWords hp ms), htexts]
  · rintro before m after rfl
    obtain ⟨r, hr, -, hfaithful, hline⟩ := h.play hp
    exact ⟨r, hr, (hline.step hfaithful).1⟩

/-- A double step, a capture en passant, castlings to both sides and a promotion. -/
theorem ofWords?_gameWords_of_rare_moves :
    let ms : List Move := [⟨11, 27, .doublePush⟩, ⟨28, 19, .enPassant⟩, ⟨4, 2, .castle⟩,
      ⟨60, 62, .castle⟩, ⟨49, 56, .promotion .queen true⟩]
    ms.map Move.text = ["d2d4", "e4d3", "e1c1", "e8g8", "b7a8q"] ∧
    ∃ p, ofFen "r3k2r/1P6/8/8/4p3/8/3P4/R3K2R w KQkq - 5 9" = .ok p ∧ LegalLine ms p ∧
      ∃ q, playAll? ms p = some q ∧ ofWords? (p.gameWords ms) = some (.ok q) ∧
        ∀ before m after, ms = before ++ m :: after → ∃ r, playAll? before p = some r ∧
          r.readMove m.text = .ok m ∧ r.readLegalMove? m.text = some (.ok m) := by
  intro ms
  obtain ⟨p, hfen, h⟩ := exists_of_ofFen "r3k2r/1P6/8/8/4p3/8/3P4/R3K2R w KQkq - 5 9"
    (fun p => p.enPassant = none ∧ LegalLine ms p) (by decide +kernel)
  obtain ⟨he, hline⟩ := of_decide_eq_true h
  have hp : p.Faithful := ⟨⟨sound_of_ofFen hfen, by simp [he]⟩, hash_of_ofFen hfen⟩
  exact ⟨by decide, p, hfen, hline, ofWords?_gameWords hp hline⟩

end ChessEval.Position
