import ChessEval.Proofs.Board.KingCaptures
import ChessEval.Proofs.Board.Rights

/-! Games of legal moves from a well-formed position stay among the well-formed ones, with their
hash up to date and no castling right gained. -/
namespace ChessEval.Position

open Square Rules

variable {p q next : Position} {undo : Undo} {m : Move} {l : List Move}

/-- Legal moves lead from the first position to the second. -/
inductive LeadsTo (p : Position) : Position → Prop
  | refl : LeadsTo p p
  | step {q next : Position} {l : List Move} {m : Move} {undo : Undo} : LeadsTo p q →
    q.legalMoves? = some l → m ∈ l → q.play? m = some (next, undo) → LeadsTo p next

/-- What one legal move keeps. -/
theorem Faithful.step (hp : p.Faithful) (hl : p.legalMoves? = some l) (hm : m ∈ l)
    (hplay : p.play? m = some (next, undo)) :
    next.Faithful ∧ next.castling ≤ p.castling ∧ (p.AtHome → next.AtHome) := by
  have hw := hp.toWellFormed
  obtain ⟨⟨hmp, hking⟩, k, next', undo', h⟩ := hw.exists_played hl hm
  obtain ⟨rfl, rfl⟩ := pair_unique h.play hplay
  exact ⟨⟨h.wellFormed hw.toSound hmp (hw.tame hmp) hking, h.hash_eq hw.toConsistent hp.hash_eq⟩,
    h.castling_le, h.atHome hw hmp hking⟩

theorem LeadsTo.faithful (h : LeadsTo p q) (hp : p.Faithful) :
    q.Faithful ∧ q.castling ≤ p.castling ∧ (p.AtHome → q.AtHome) := by
  induction h with
  | refl => exact ⟨hp, fun _ _ hr => hr, id⟩
  | step _ hl hm hplay ih =>
    obtain ⟨hq, hle, hhome⟩ := ih
    obtain ⟨hnext, hle', hhome'⟩ := hq.step hl hm hplay
    exact ⟨hnext, CastlingRights.le_trans hle' hle, hhome' ∘ hhome⟩

/-- A game of legal moves from a well-formed position with its own hash leads to such positions,
where listing the moves works and each can be played. No castling right is gained, and if the rights
held at the start have king and rook at home, so have those still held. -/
theorem games_stay_faithful (hp : p.Faithful) (h : p.LeadsTo q) :
    q.Faithful ∧ q.castling ≤ p.castling ∧ (p.AtHome → q.AtHome) ∧
      ∃ l, q.legalMoves? = some l ∧ KeepsKings q l := by
  obtain ⟨hq, hle, hhome⟩ := h.faithful hp
  exact ⟨hq, hle, hhome, hq.legalMoves?_keepsKings_iff.mpr hq.toWellFormed.not_enPassantFault⟩

/-- A pawn captures the rook in its corner and becomes a queen. -/
theorem games_stay_faithful_after_promotion : ∃ p q,
    ofFen "r3k3/1P6/8/8/8/8/8/4K2R w Kq - 0 1" = .ok p ∧ p.Faithful ∧ p.AtHome ∧ p.LeadsTo q ∧
      p ≠ q ∧ q.Faithful ∧ q.castling ≤ p.castling ∧ q.AtHome ∧
      ∃ l, q.legalMoves? = some l ∧ KeepsKings q l := by
  obtain ⟨p, hfen, h⟩ := exists_of_ofFen "r3k3/1P6/8/8/8/8/8/4K2R w Kq - 0 1"
    (fun p => p.enPassant.isNone && p.castling == ⟨true, false, false, true⟩ &&
      p.pieceAt? 4 == some (.white, .king) && p.pieceAt? 7 == some (.white, .rook) &&
      p.pieceAt? 60 == some (.black, .king) && p.pieceAt? 56 == some (.black, .rook) &&
      p.legalMoves?.any (⟨49, 56, .promotion .queen true⟩ ∈ ·)) (by decide +kernel)
  simp only [Bool.and_eq_true, Option.isNone_iff_eq_none, beq_iff_eq, Option.any_eq_true,
    decide_eq_true_eq] at h
  obtain ⟨⟨⟨⟨⟨⟨he, hr⟩, hwk⟩, hwr⟩, hbk⟩, hbr⟩, l, hl, hm⟩ := h
  have hp : p.Faithful := ⟨⟨sound_of_ofFen hfen, by simp [he]⟩, hash_of_ofFen hfen⟩
  have hhome : p.AtHome := by
    intro c side hs
    rw [hr] at hs
    cases c <;> cases side
    · exact ⟨hwk, hwr⟩
    · cases hs
    · cases hs
    · exact ⟨hbk, hbr⟩
  obtain ⟨-, k, q, undo, hplayed⟩ := hp.exists_played hl hm
  have hlead : p.LeadsTo q := .step .refl hl hm hplayed.play
  obtain ⟨hq, hle, hh, hmoves⟩ := games_stay_faithful hp hlead
  refine ⟨p, q, hfen, hp, hhome, hlead, fun hpq => ?_, hq, hle, hh hhome, hmoves⟩
  exact Color.opponent_ne_self p.turn (hplayed.turn.symm.trans (congrArg turn hpq.symm))

end ChessEval.Position
