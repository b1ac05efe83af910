import ChessEval.Proofs.Board.Reading
import ChessEval.Proofs.Board.SymmetricMoves

/-! A move played on the color-flipped position gives the color-flipped next position; only the
number of the full move, which counts Black's moves, differs. -/
namespace ChessEval

open Square Rules

variable {p next next' : Position} {undo undo' : Undo} {m : Move} {k k' : Piece} {s t : Square}

namespace Symmetry

/-- The image of a change: the images of the pieces it names. -/
def change (σ : Symmetry) : Change → Change
  | .shift before after => .shift (σ.placed before) (σ.placed after)
  | .capture before after captured =>
    .capture (σ.placed before) (σ.placed after) (σ.placed captured)
  | .castling kingBefore kingAfter rookBefore rookAfter =>
    .castling (σ.placed kingBefore) (σ.placed kingAfter) (σ.placed rookBefore) (σ.placed rookAfter)

theorem rookSquares_flip (king : Square) : Play.rookSquares (flip.square king) =
    (flip.square (Play.rookSquares king).1, flip.square (Play.rookSquares king).2) := by
  rw [Play.rookSquares, file_square, Play.rookSquares]
  change (if king.file = fileG then _ else _) = _
  split <;> simp [file]

theorem behind?_flip (c : Color) (s : Square) :
    Play.behind? c.opponent (flip.square s) = (Play.behind? c s).map flip.square := by
  have hstep : (-c.opponent.forward, (0 : Int)) = flip.step (-c.forward, 0) := by simp [step]
  refine Option.ext fun t => ?_
  obtain ⟨t, rfl⟩ := flip.square_surjective t
  rw [Play.behind?, step?_eq_some_iff, hstep, off_square, ← step?_eq_some_iff]
  simp [Play.behind?]

theorem victimSquare?_flip (c : Color) (m : Move) :
    Play.victimSquare? c.opponent (flip.move m) = (Play.victimSquare? c m).map flip.square := by
  rw [Play.victimSquare?, Play.victimSquare?]
  change (if m.kind = _ then _ else _) = _
  split
  · exact behind?_flip c m.target
  · rfl

/-- The square skipped by a double step lies halfway on the image, too. -/
theorem skipped_flip (h : Play.rankDistance s t = 2) :
    Play.skipped (flip.square s) (flip.square t) = flip.square (Play.skipped s t) := by
  simp only [Play.rankDistance, Square.rank] at h
  refine Fin.ext ?_
  simp only [Play.skipped, square, flipVertical, ofCoords, Square.rank, Square.file, Fin.val_rev]
  omega

end Symmetry

namespace CastlingRights

theorem swap_set (r : CastlingRights) (held : Bool) (c : Color) (side : CastlingSide) :
    r.swap.set held c.opponent side = (r.set held c side).swap := by
  cases c <;> cases side <;> rfl

theorem swap_loseBoth (r : CastlingRights) (c : Color) :
    r.swap.loseBoth c.opponent = (r.loseBoth c).swap := by
  rw [loseBoth, swap_set, swap_set, loseBoth]

theorem swap_loseRook (r : CastlingRights) (c : Color) (s : Square) :
    r.swap.loseRook c.opponent (Symmetry.flip.square s) = (r.loseRook c s).swap := by
  have hr : (Symmetry.flip.square s).rank = c.opponent.backRank ↔ s.rank = c.backRank := by
    rw [Symmetry.rank_square, show c.opponent = Symmetry.flip.color c from rfl,
      Symmetry.backRank_color, Symmetry.rank_inj]
  have hf : (Symmetry.flip.square s).file = s.file := Symmetry.file_square .flip s
  simp only [loseRook, hr, hf, swap_set]
  split_ifs <;> rfl

end CastlingRights

namespace Position

theorem rightsAfter_flip (p : Position) (m : Move) (k : Piece) (d : Change) :
    p.colorFlipped.rightsAfter (Symmetry.flip.move m) k (Symmetry.flip.change d) =
      (p.rightsAfter m k d).swap := by
  have hcastling : p.colorFlipped.castling = p.castling.swap := rfl
  have hturn : p.colorFlipped.turn = p.turn.opponent := rfl
  cases d with
  | capture before after captured =>
    obtain ⟨c, v, t⟩ := captured
    cases k <;> cases v <;>
      simp only [rightsAfter, hcastling, hturn, Symmetry.change, Symmetry.placed, Symmetry.move,
        Symmetry.color, CastlingRights.swap_loseBoth, CastlingRights.swap_loseRook]
  | _ =>
    cases k <;>
      simp only [rightsAfter, hcastling, hturn, Symmetry.change, Symmetry.move,
        CastlingRights.swap_loseBoth, CastlingRights.swap_loseRook]

/-- What a move changes on the image is the image of what it changes. -/
theorem change?_flip (hp : p.Consistent) (m : Move) :
    p.colorFlipped.change? (Symmetry.flip.move m) = (p.change? m).map Symmetry.flip.change := by
  have hboard (s : Square) : p.colorFlipped.pieceAt? (Symmetry.flip.square s) =
      (p.pieceAt? s).map (Prod.map Color.opponent id) :=
    (congrFun (hp.pieceAt?_image .flip) _).trans Symmetry.board_square
  have hturn : p.colorFlipped.turn = p.turn.opponent := turn_image .flip p
  have hvictim := Symmetry.victimSquare?_flip p.turn m
  obtain ⟨origin, target, kind⟩ := m
  cases ho : p.pieceAt? origin with
  | none => simp [change?, Symmetry.move, hboard, ho]
  | some x =>
    by_cases hc : kind = .castle
    · simp [change?, Symmetry.move, hboard, ho, hc, hturn, Symmetry.rookSquares_flip,
        Symmetry.change, Symmetry.placed, Symmetry.color]
    · have hpromoted : (⟨Symmetry.flip.square origin, Symmetry.flip.square target, kind⟩ :
          Move).promoted? = (⟨origin, target, kind⟩ : Move).promoted? := rfl
      rw [Symmetry.move] at hvictim
      cases hv : Play.victimSquare? p.turn ⟨origin, target, kind⟩ with
      | none => simp [change?, Symmetry.move, hboard, ho, hc, hturn, hvictim, hv]
      | some v =>
        cases hs : p.pieceAt? v <;>
          simp [change?, Symmetry.move, hboard, ho, hc, hturn, hvictim, hv, hs, hpromoted,
            Symmetry.change, Symmetry.placed, Symmetry.color]

theorem enPassantAfter_flip (m : Move) (k : Piece) :
    enPassantAfter (Symmetry.flip.move m) k = (enPassantAfter m k).map Symmetry.flip.square := by
  have hd := Symmetry.rankDistance_square .flip m.origin m.target
  rw [enPassantAfter, enPassantAfter]
  simp only [Symmetry.move, hd]
  split
  · next h => rw [Symmetry.skipped_flip h.2, Option.map_some]
  · rfl

theorem halfmovesAfter_flip (p : Position) (k : Piece) (d : Change) :
    p.colorFlipped.halfmovesAfter k (Symmetry.flip.change d) = p.halfmovesAfter k d := by
  cases k <;> cases d <;> rfl

end Position

namespace Played

open Position

section Flipped

variable (h : Played p m k next undo)
  (h' : Played p.colorFlipped (Symmetry.flip.move m) k' next' undo')

include h h'

theorem piece_flip (hp : p.Consistent) : k' = k :=
  (pair_unique h'.origin (hp.own_image .flip h.origin)).2

theorem change_flip (hp : p.Consistent) : undo'.change = Symmetry.flip.change undo.change := by
  have hd := h'.fits.change
  rw [change?_flip hp, h.fits.change, Option.map_some] at hd
  exact (Option.some.inj hd).symm

theorem sameBoard_flip (hp : p.Consistent) : next'.SameBoard next.colorFlipped := by
  have hnext := h.consistent hp
  refine (h'.consistent (hp.image .flip)).sameBoard (hnext.image .flip) ?_
  calc next'.pieceAt?
    _ = after (p.image .flip).pieceAt? (p.image .flip).turn (Symmetry.flip.move m) := h'.pieceAt?
    _ = after (Symmetry.flip.board p.pieceAt?) (Symmetry.flip.color p.turn)
        (Symmetry.flip.move m) := by rw [hp.pieceAt?_image, turn_image]
    _ = Symmetry.flip.board next.pieceAt? := by
      rw [Symmetry.after_board fun _ => rfl, h.pieceAt?]
    _ = (next.image .flip).pieceAt? := (hnext.pieceAt?_image .flip).symm

/-- The next position after the image of a move is the image of the next position. -/
theorem colorFlipped (hp : p.Faithful) :
    next' = { next.colorFlipped with fullmoves := next'.fullmoves } := by
  have hc := hp.toConsistent
  have hchange := h.change_flip h' hc
  have hboard := h.sameBoard_flip h' hc
  obtain rfl := h.piece_flip h' hc
  have hturn : next'.turn = next.colorFlipped.turn := by
    have hp' : p.colorFlipped.turn = p.turn.opponent := turn_image .flip p
    have hnext' : next.colorFlipped.turn = next.turn.opponent := turn_image .flip next
    rw [h'.turn, hp', hnext', h.turn]
  have henPassant : next'.enPassant = next.colorFlipped.enPassant := by
    rw [h'.enPassant, enPassantAfter_flip, ← h.enPassant]
    exact ((keeps_flip next).enPassant_image).symm
  have hcastling : next'.castling = next.colorFlipped.castling := by
    rw [castling_of_play? h'.play h'.origin, hchange, rightsAfter_flip,
      ← castling_of_play? h.play h.origin]
    rfl
  refine SameBoard.eq ⟨hboard.army, hboard.occupied⟩ hturn henPassant hcastling ?_ ?_ rfl
  -- both hashes are those of the whole position, so the fields above decide them
  · rw [h'.hash_eq (hc.image .flip) (hash_image p .flip),
      hboard.hashOf hturn henPassant hcastling]
    exact (next.hash_image .flip).symm
  · rw [halfmoves_of_play? h'.play h'.origin, hchange, halfmovesAfter_flip,
      ← halfmoves_of_play? h.play h.origin]
    exact (next.halfmoves_image .flip).symm

end Flipped

end Played

namespace Position

theorem Faithful.play?_colorFlipped (hp : p.Faithful) (hm : Permitted p m) :
    ∃ next undo next' undo', p.play? m = some (next, undo) ∧
      p.colorFlipped.play? (Symmetry.flip.move m) = some (next', undo') ∧
      next' = { next.colorFlipped with fullmoves := next'.fullmoves } := by
  have hq : p.colorFlipped.Faithful := hp.image .flip
  have hm' := hm.image hp.toConsistent p.keeps_flip
  obtain ⟨k, next, undo, h⟩ := hm.exists_played hp.toConsistent (hp.tame hm)
  obtain ⟨k', next', undo', h'⟩ := hm'.exists_played hq.toConsistent (hq.tame hm')
  exact ⟨next, undo, next', undo', h.play, h'.play, h.colorFlipped h' hp⟩

/-- The color flip is an automorphism of the game: it undoes itself, the legal moves of the flipped
position are the flipped legal moves, and to play a flipped move, legal or not, gives the flipped
next position with another number of the full move. The reflection carries over the legal moves of
positions without rights and en passant square. -/
theorem colorFlipped_automorphism (hp : p.Faithful) :
    p.colorFlipped.colorFlipped = p ∧
    (∃ l l', p.legalMoves? = some l ∧ p.colorFlipped.legalMoves? = some l' ∧
      l'.Perm (l.map Symmetry.flip.move)) ∧
    (∃ l all, p.legalMoves? = some l ∧ p.pseudoLegalMoves? = some all ∧ l ⊆ all ∧
      ∀ m ∈ all, ∃ next undo next' undo', p.play? m = some (next, undo) ∧
        p.colorFlipped.play? (Symmetry.flip.move m) = some (next', undo') ∧
        next' = { next.colorFlipped with fullmoves := next'.fullmoves }) ∧
    (p.castling = .none → p.enPassant = none →
      ∃ l l', p.legalMoves? = some l ∧ p.reflected.legalMoves? = some l' ∧
        l'.Perm (l.map Symmetry.reflect.move)) := by
  classical
  refine ⟨?_, ?_, ?_, fun hr he => ?_⟩
  · rw [← image_flip, ← image_flip, hp.image_image p.keeps_flip]
  · rw [← image_flip]
    exact hp.legalMoves?_image p.keeps_flip
  · refine ⟨_, p.candidates, hp.legalMoves?_eq_filter, hp.pseudoLegalMoves?_eq,
      List.filter_sublist.subset, fun m hm => ?_⟩
    exact hp.play?_colorFlipped (hp.toConsistent.mem_candidates.mp hm)
  · rw [← image_reflect]
    exact hp.legalMoves?_image fun _ => ⟨hr, he⟩

/-- White may castle to both sides and capture en passant. The second position is reflected. -/
theorem colorFlipped_automorphism_of_enPassant : ∃ p q,
    ofFen "r3k2r/8/8/3pP3/8/8/8/R3K2R w KQkq d6 0 1" = .ok p ∧
    p.colorFlipped.colorFlipped = p ∧
    (∃ l l', p.legalMoves? = some l ∧ p.colorFlipped.legalMoves? = some l' ∧
      l'.Perm (l.map Symmetry.flip.move)) ∧
    (∀ m ∈ [⟨4, 6, .castle⟩, ⟨4, 2, .castle⟩, ⟨36, 43, .enPassant⟩],
      ∃ next undo next' undo', p.play? m = some (next, undo) ∧
        p.colorFlipped.play? (Symmetry.flip.move m) = some (next', undo') ∧
        next' = { next.colorFlipped with fullmoves := next'.fullmoves }) ∧
    ofFen "4k3/2p5/8/8/8/8/4PP2/4K3 w - - 3 20" = .ok q ∧
    ∃ l l', q.legalMoves? = some l ∧ q.reflected.legalMoves? = some l' ∧
      l'.Perm (l.map Symmetry.reflect.move) := by
  obtain ⟨p, hfen, h⟩ := exists_of_ofFen "r3k2r/8/8/3pP3/8/8/8/R3K2R w KQkq d6 0 1"
    (fun p => p.enPassant = some 43 ∧ p.turn = .white ∧ p.pieceAt? 43 = none ∧
      p.pieceAt? 35 = some (.black, .pawn) ∧ p.pseudoLegalMoves?.all
        ([⟨4, 6, .castle⟩, ⟨4, 2, .castle⟩, ⟨36, 43, .enPassant⟩] ⊆ ·) = true) (by decide +kernel)
  obtain ⟨he, hturn, hempty, hpawn, hsub⟩ := of_decide_eq_true h
  have hp : p.WellFormed := ⟨sound_of_ofFen hfen, fun t ht => by
    rw [he] at ht
    obtain rfl := Option.some.inj ht
    rw [hturn]
    exact ⟨by decide, hempty, 35, by rw [Off]; decide, hpawn⟩⟩
  obtain ⟨q, hfen', h'⟩ := exists_of_ofFen "4k3/2p5/8/8/8/8/4PP2/4K3 w - - 3 20"
    (fun q => q.castling = .none ∧ q.enPassant = none) (by decide +kernel)
  obtain ⟨hr, hn⟩ := of_decide_eq_true h'
  have hq : q.WellFormed := ⟨sound_of_ofFen hfen', fun t ht => by simp [hn] at ht⟩
  obtain ⟨hinvolution, hlegal, ⟨-, all, -, hall, -, hplay⟩, -⟩ :=
    colorFlipped_automorphism ⟨hp, hash_of_ofFen hfen⟩
  obtain ⟨-, -, -, hreflected⟩ := colorFlipped_automorphism ⟨hq, hash_of_ofFen hfen'⟩
  rw [hall] at hsub
  exact ⟨p, q, hfen, hinvolution, hlegal, fun m hm => hplay m (of_decide_eq_true hsub hm), hfen',
    hreflected hr hn⟩

end Position

end ChessEval
