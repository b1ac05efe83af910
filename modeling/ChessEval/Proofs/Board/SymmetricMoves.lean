import Mathlib.Data.List.Perm.Basic
import ChessEval.Proofs.Board.Hashing
import ChessEval.Proofs.Board.LegalMoves
import ChessEval.Proofs.Board.Symmetry

/-! The rules see no difference between a position and its image: the moves of the image are the
images of the moves. The reflection has castling to the wrong side, so it is asked only of positions
without rights and without an en passant square, neither of which it keeps. -/
namespace ChessEval

open Square Rules

variable {σ : Symmetry} {p : Position} {m : Move} {b : Board} {c : Color} {k : Piece}
  {s t : Square}

namespace Symmetry

def rank : Symmetry → Fin 8 → Fin 8
  | flip => Fin.rev
  | reflect => id

def file : Symmetry → Fin 8 → Fin 8
  | flip => id
  | reflect => Fin.rev

/-- The image of a move: the same kind between the image squares. -/
def move (σ : Symmetry) (m : Move) : Move := ⟨σ.square m.origin, σ.square m.target, m.kind⟩

@[simp] theorem move_move (σ : Symmetry) (m : Move) : σ.move (σ.move m) = m := by simp [move]

theorem move_injective (σ : Symmetry) : Function.Injective σ.move :=
  Function.LeftInverse.injective σ.move_move

/-- The image of a board: the pieces of the image color on the image squares. -/
def board (σ : Symmetry) (b : Board) : Board := fun s => (b (σ.square s)).map (Prod.map σ.color id)

section Squares

@[simp] theorem square_ofCoords (σ : Symmetry) (r f : Fin 8) :
    σ.square (ofCoords r f) = ofCoords (σ.rank r) (σ.file f) := by
  cases σ <;> simp [square, flipVertical, flipHorizontal, rank, file]

@[simp] theorem rank_square (σ : Symmetry) (s : Square) : (σ.square s).rank = σ.rank s.rank := by
  cases σ <;> simp [square, flipVertical, flipHorizontal, rank]

@[simp] theorem file_square (σ : Symmetry) (s : Square) : (σ.square s).file = σ.file s.file := by
  cases σ <;> simp [square, flipVertical, flipHorizontal, file]

@[simp] theorem rank_inj {r r' : Fin 8} : σ.rank r = σ.rank r' ↔ r = r' := by
  cases σ <;> simp [rank]

theorem backRank_color (σ : Symmetry) (c : Color) :
    (σ.color c).backRank = σ.rank c.backRank := by
  cases σ <;> cases c <;> rfl

theorem pawnRank_color (σ : Symmetry) (c : Color) :
    (σ.color c).pawnRank = σ.rank c.pawnRank := by
  cases σ <;> cases c <;> rfl

theorem sixthRank_color (σ : Symmetry) (c : Color) :
    (σ.color c).sixthRank = σ.rank c.sixthRank := by
  cases σ <;> cases c <;> rfl

theorem lastRank_color (σ : Symmetry) (c : Color) : lastRank (σ.color c) = σ.rank (lastRank c) := by
  rw [lastRank, ← color_opponent, backRank_color, lastRank]

theorem square_surjective (σ : Symmetry) : Function.Surjective σ.square :=
  Function.RightInverse.surjective σ.square_square

theorem color_surjective (σ : Symmetry) : Function.Surjective σ.color :=
  Function.RightInverse.surjective σ.color_color

/-- A step straight ahead stays one, in the direction of the image color. -/
theorem forward_square (h : s.Off (c.forward, 0) t) :
    (σ.square s).Off ((σ.color c).forward, 0) (σ.square t) := by
  cases σ with
  | flip =>
    rw [color, Color.forward_opponent]
    exact (off_square (σ := flip)).mpr h
  | reflect => exact (off_square (σ := reflect)).mpr h

end Squares

section Boards

@[simp] theorem board_square : σ.board b (σ.square s) = (b s).map (Prod.map σ.color id) := by
  rw [board, square_square]

@[simp] theorem board_board (σ : Symmetry) (b : Board) : σ.board (σ.board b) = b := by
  funext s
  simp [board, Function.comp_def, Prod.map]

@[simp] theorem board_eq_none_iff : σ.board b (σ.square s) = none ↔ b s = none := by simp

@[simp] theorem board_eq_some_iff :
    σ.board b (σ.square s) = some (σ.color c, k) ↔ b s = some (c, k) := by
  simp

theorem attacks_board (h : Attacks b c k s t) :
    Attacks (σ.board b) (σ.color c) k (σ.square s) (σ.square t) := by
  have hfree : (σ.board b · ≠ none) = fun u => b (σ.square u) ≠ none := by
    funext u
    simp [board]
  have := attacks_square (σ := σ) h
  cases k <;> simpa only [Attacks, Slide, hfree] using this

theorem attacked_board (h : Attacked b c t) :
    Attacked (σ.board b) (σ.color c) (σ.square t) := by
  obtain ⟨s, k, hs, ha⟩ := h
  exact ⟨σ.square s, k, board_eq_some_iff.mpr hs, attacks_board ha⟩

@[simp] theorem attacked_board_iff :
    Attacked (σ.board b) (σ.color c) (σ.square t) ↔ Attacked b c t := by
  refine ⟨fun h => ?_, attacked_board⟩
  simpa using attacked_board (σ := σ) h

theorem kingSafe_board_iff : KingSafe (σ.board b) (σ.color c) ↔ KingSafe b c := by
  have hsquares : (∀ s, σ.board b s = some (σ.color c, .king) →
        ¬Attacked (σ.board b) (σ.color c).opponent s) ↔
      ∀ s, σ.board b (σ.square s) = some (σ.color c, .king) →
        ¬Attacked (σ.board b) (σ.color c).opponent (σ.square s) :=
    ⟨fun h s => h _, fun h s => by simpa using h (σ.square s)⟩
  rw [KingSafe, hsquares, KingSafe]
  simp only [board_eq_some_iff, ← color_opponent, attacked_board_iff]

@[simp] theorem beside_move (σ : Symmetry) (m : Move) :
    beside (σ.move m) = σ.square (beside m) := by
  simp [beside, move]

theorem rookHome_flip (m : Move) : rookHome (flip.move m) = flip.square (rookHome m) := by
  simp [rookHome, move, file]

theorem rookGoal_flip (m : Move) : rookGoal (flip.move m) = flip.square (rookGoal m) := by
  simp [rookGoal, move, file]

/-- The move's image on the board's image. A castling tells its side by its file. -/
theorem after_board (h : m.kind = .castle → σ = flip) :
    after (σ.board b) (σ.color c) (σ.move m) = σ.board (after b c m) := by
  funext s
  obtain ⟨s, rfl⟩ := σ.square_surjective s
  rw [board_square]
  have hkind : (σ.move m).kind = m.kind := rfl
  have horigin : (σ.move m).origin = σ.square m.origin := rfl
  have htarget : (σ.move m).target = σ.square m.target := rfl
  simp only [after, hkind, horigin, htarget, beside_move, square_inj, board_square]
  cases hk : m.kind with
  | castle =>
    obtain rfl := h hk
    simp only [rookGoal_flip, rookHome_flip, square_inj]
    split_ifs <;> rfl
  | _ => split_ifs <;> rfl

end Boards

end Symmetry

theorem CastlingRights.has_swap (r : CastlingRights) (c : Color) (side : CastlingSide) :
    r.swap.has c.opponent side = r.has c side := by
  cases c <;> cases side <;> rfl

namespace Position

theorem image_flip (p : Position) : p.image .flip = p.colorFlipped := rfl

theorem image_reflect (p : Position) : p.image .reflect = p.reflected := rfl

/-- The image has the image of everything the position has. The reflection forgets rights and en
passant square. -/
def Keeps (p : Position) (σ : Symmetry) : Prop :=
  σ = .reflect → p.castling = .none ∧ p.enPassant = none

theorem keeps_flip (p : Position) : p.Keeps .flip := fun h => by cases h

theorem Keeps.enPassant_image (h : p.Keeps σ) :
    (p.image σ).enPassant = p.enPassant.map σ.square := by
  cases σ with
  | flip => rfl
  | reflect =>
    rw [(h rfl).2]
    rfl

theorem has_castling_flip (p : Position) (c : Color) (side : CastlingSide) :
    p.colorFlipped.castling.has c.opponent side = p.castling.has c side :=
  p.castling.has_swap c side

/-- Without rights only the flip is left. -/
theorem Keeps.eq_flip (h : p.Keeps σ) {side : CastlingSide} (hr : p.castling.has c side = true) :
    σ = .flip := by
  cases σ with
  | flip => rfl
  | reflect =>
    rw [(h rfl).1] at hr
    cases c <;> cases side <;> cases hr

theorem Consistent.pieceAt?_image (hp : p.Consistent) (σ : Symmetry) :
    (p.image σ).pieceAt? = σ.board p.pieceAt? := by
  funext s
  refine Option.ext fun ⟨c, k⟩ => ?_
  obtain ⟨s, rfl⟩ := σ.square_surjective s
  obtain ⟨c, rfl⟩ := σ.color_surjective c
  rw [Symmetry.board_eq_some_iff, pieceAt?_eq_some_iff (hp.image σ), pieces_image,
    Symmetry.mem_set, Symmetry.color_color, Symmetry.square_square, pieceAt?_eq_some_iff hp]

section Images

variable (σ) (hp : p.Consistent)

include hp

theorem Consistent.own_image (hs : p.pieceAt? s = some (p.turn, k)) :
    (p.image σ).pieceAt? (σ.square s) = some ((p.image σ).turn, k) := by
  rw [hp.pieceAt?_image, turn_image, Symmetry.board_eq_some_iff, hs]

theorem Consistent.opponent_image : (p.image σ).pieceAt? (σ.square s) =
    some ((p.image σ).turn.opponent, k) ↔ p.pieceAt? s = some (p.turn.opponent, k) := by
  rw [hp.pieceAt?_image, turn_image, ← Symmetry.color_opponent, Symmetry.board_eq_some_iff]

theorem Consistent.empty_image (hs : p.pieceAt? s = none) :
    (p.image σ).pieceAt? (σ.square s) = none := by
  rw [hp.pieceAt?_image, Symmetry.board_eq_none_iff, hs]

theorem Consistent.attacks_image (h : Attacks p.pieceAt? p.turn k s t) :
    Attacks (p.image σ).pieceAt? (p.image σ).turn k (σ.square s) (σ.square t) := by
  rw [hp.pieceAt?_image, turn_image]
  exact Symmetry.attacks_board h

theorem Consistent.attacked_image :
    Attacked (p.image σ).pieceAt? (p.image σ).turn.opponent (σ.square t) ↔
      Attacked p.pieceAt? p.turn.opponent t := by
  rw [hp.pieceAt?_image, turn_image, ← Symmetry.color_opponent, Symmetry.attacked_board_iff]

end Images

section Steps

theorem forward_image (σ : Symmetry) (h : s.Off (p.turn.forward, 0) t) :
    (σ.square s).Off ((p.image σ).turn.forward, 0) (σ.square t) := by
  rw [turn_image]
  exact Symmetry.forward_square h

theorem pawnStep_image (σ : Symmetry) (h : PawnStep p.turn s t) :
    PawnStep (p.image σ).turn (σ.square s) (σ.square t) := by
  rw [turn_image]
  exact Symmetry.pawnStep_square h

theorem lastRank_image (σ : Symmetry) :
    (σ.square t).rank = lastRank (p.image σ).turn ↔ t.rank = lastRank p.turn := by
  rw [turn_image, Symmetry.rank_square, Symmetry.lastRank_color, Symmetry.rank_inj]

end Steps

section Homes

variable {f : Fin 8}

/-- The squares of a castling change their rank only. -/
theorem home_flip (p : Position) (f : Fin 8) : Symmetry.flip.square (ofCoords p.turn.backRank f) =
    ofCoords (p.image .flip).turn.backRank f := by
  rw [turn_image, Symmetry.backRank_color, Symmetry.square_ofCoords]
  rfl

theorem Consistent.own_home_flip (hp : p.Consistent)
    (h : p.pieceAt? (ofCoords p.turn.backRank f) = some (p.turn, k)) :
    (p.image .flip).pieceAt? (ofCoords (p.image .flip).turn.backRank f) =
      some ((p.image .flip).turn, k) := by
  rw [← home_flip, hp.own_image .flip h]

theorem Consistent.empty_home_flip (hp : p.Consistent)
    (h : p.pieceAt? (ofCoords p.turn.backRank f) = none) :
    (p.image .flip).pieceAt? (ofCoords (p.image .flip).turn.backRank f) = none := by
  rw [← home_flip, hp.empty_image .flip h]

theorem Consistent.attacked_home_flip (hp : p.Consistent) :
    Attacked (p.image .flip).pieceAt? (p.image .flip).turn.opponent
        (ofCoords (p.image .flip).turn.backRank f) ↔
      Attacked p.pieceAt? p.turn.opponent (ofCoords p.turn.backRank f) := by
  rw [← home_flip, hp.attacked_image .flip]

end Homes

end Position

namespace Rules

open Symmetry Position

/-- The image of a permitted move is permitted on the image. -/
theorem Permitted.image (h : Permitted p m) (hp : p.Consistent) (hk : p.Keeps σ) :
    Permitted (p.image σ) (σ.move m) := by
  cases h with
  | quiet hs hn ha he =>
    exact .quiet (hp.own_image σ hs) hn (hp.attacks_image σ ha) (hp.empty_image σ he)
  | capture hs hn ha hv =>
    exact .capture (hp.own_image σ hs) hn (hp.attacks_image σ ha) ((hp.opponent_image σ).mpr hv)
  | push hs hf he hr =>
    exact .push (hp.own_image σ hs) (forward_image σ hf) (hp.empty_image σ he)
      (mt (lastRank_image σ).mp hr)
  | doublePush hs hr hu hn hf he =>
    refine .doublePush (hp.own_image σ hs) ?_ (forward_image σ hu) (hp.empty_image σ hn)
      (forward_image σ hf) (hp.empty_image σ he)
    rw [rank_square, hr, turn_image, pawnRank_color]
  | pawnCapture hs ha hv hr =>
    exact .pawnCapture (hp.own_image σ hs) (pawnStep_image σ ha) ((hp.opponent_image σ).mpr hv)
      (mt (lastRank_image σ).mp hr)
  | promotion hs hf he hr hm =>
    exact .promotion (hp.own_image σ hs) (forward_image σ hf) (hp.empty_image σ he)
      ((lastRank_image σ).mpr hr) hm
  | capturingPromotion hs ha hv hr hm =>
    exact .capturingPromotion (hp.own_image σ hs) (pawnStep_image σ ha)
      ((hp.opponent_image σ).mpr hv) ((lastRank_image σ).mpr hr) hm
  | enPassant hs he ha =>
    refine .enPassant (hp.own_image σ hs) ?_ (pawnStep_image σ ha)
    rw [hk.enPassant_image, he, Option.map_some]
  | castleKingside hr hking hrook he ha =>
    -- a right is held, so the symmetry is the flip
    obtain rfl := hk.eq_flip hr
    rw [move, home_flip, home_flip]
    exact .castleKingside ((p.has_castling_flip _ _).trans hr) (hp.own_home_flip hking)
      (hp.own_home_flip hrook) (fun f hf => hp.empty_home_flip (he f hf))
      fun f hf => mt hp.attacked_home_flip.mp (ha f hf)
  | castleQueenside hr hking hrook he ha =>
    obtain rfl := hk.eq_flip hr
    rw [move, home_flip, home_flip]
    exact .castleQueenside ((p.has_castling_flip _ _).trans hr) (hp.own_home_flip hking)
      (hp.own_home_flip hrook) (fun f hf => hp.empty_home_flip (he f hf))
      fun f hf => mt hp.attacked_home_flip.mp (ha f hf)

theorem Permitted.eq_flip (h : Permitted p m) (hk : p.Keeps σ) (hc : m.kind = .castle) :
    σ = .flip := by
  cases h with
  | castleKingside hr | castleQueenside hr => exact hk.eq_flip hr
  | _ => cases hc

theorem Legal.image (h : Legal p m) (hp : p.Consistent) (hk : p.Keeps σ) :
    Legal (p.image σ) (σ.move m) where
  permitted := h.permitted.image hp hk
  takes_no_king := mt (hp.opponent_image σ).mp h.takes_no_king
  king_safe := by
    rw [hp.pieceAt?_image, turn_image, after_board (h.permitted.eq_flip hk), kingSafe_board_iff]
    exact h.king_safe

end Rules

namespace Position

theorem keeps_image (p : Position) (σ : Symmetry) : (p.image σ).Keeps σ := by
  rintro rfl
  exact ⟨rfl, rfl⟩

theorem hash_image (p : Position) (σ : Symmetry) : (p.image σ).hash = (p.image σ).hashOf := by
  cases σ <;> rfl

theorem WellFormed.image (hp : p.WellFormed) (σ : Symmetry) : (p.image σ).WellFormed := by
  refine ⟨hp.toSound.image σ, fun t ht => ?_⟩
  obtain ⟨t, rfl⟩ := σ.square_surjective t
  have hep : p.enPassant = some t := by
    cases σ with
    | flip =>
      obtain ⟨u, hu, he⟩ := Option.map_eq_some_iff.mp ht
      rwa [Symmetry.square_inj (σ := .flip).mp he] at hu
    | reflect => cases ht
  obtain ⟨hr, hn, v, hv, hpawn⟩ := hp.en_passant t hep
  refine ⟨?_, hp.empty_image σ hn, σ.square v, ?_, (hp.opponent_image σ).mpr hpawn⟩
  · rw [Symmetry.rank_square, hr, turn_image, Symmetry.sixthRank_color]
  · rw [turn_image, ← Color.forward_opponent, ← Symmetry.color_opponent]
    rw [← Color.forward_opponent] at hv
    exact Symmetry.forward_square hv

theorem Faithful.image (hp : p.Faithful) (σ : Symmetry) : (p.image σ).Faithful :=
  ⟨hp.toWellFormed.image σ, p.hash_image σ⟩

theorem sameBoard_image_image (p : Position) (σ : Symmetry) :
    ((p.image σ).image σ).SameBoard p := by
  refine .of_mem ?_ ?_ ?_
  · simp [pieces_image]
  · simp [occupiedBy_image]
  · simp [occupied_image]

/-- The image of the image is the position itself, with the hash computed anew. -/
theorem Faithful.image_image (hp : p.Faithful) (hk : p.Keeps σ) : (p.image σ).image σ = p := by
  have hb := p.sameBoard_image_image σ
  have ht : ((p.image σ).image σ).turn = p.turn := by
    rw [turn_image, turn_image, Symmetry.color_color]
  have he : ((p.image σ).image σ).enPassant = p.enPassant := by
    rw [(p.keeps_image σ).enPassant_image, hk.enPassant_image, Option.map_map,
      show σ.square ∘ σ.square = id from funext σ.square_square, Option.map_id_fun, id]
  have hc : ((p.image σ).image σ).castling = p.castling := by
    cases σ with
    | flip => rfl
    | reflect => exact (hk rfl).1.symm
  refine hb.eq ht he hc ?_ ?_ ?_
  · rw [hash_image, hb.hashOf ht he hc, hp.hash_eq]
  · rw [halfmoves_image, halfmoves_image]
  · cases σ <;> rfl

/-- A move and its image are legal together. -/
theorem Faithful.legal_image_iff (hp : p.Faithful) (hk : p.Keeps σ) :
    Legal (p.image σ) (σ.move m) ↔ Legal p m := by
  refine ⟨fun h => ?_, fun h => h.image hp.toConsistent hk⟩
  -- the image of the image is the position
  have h := h.image (hp.image σ).toConsistent (p.keeps_image σ)
  rwa [hp.image_image hk, Symmetry.move_move] at h

open Classical in
/-- The listing of a well-formed position sifts the legal moves out of the candidates. -/
theorem WellFormed.legalMoves?_eq_filter (hp : p.WellFormed) :
    p.legalMoves? = some (p.candidates.filter (Legal p)) := by
  obtain ⟨s, hs, hking⟩ := hp.exists_king p.turn.opponent
  have hc := hp.toConsistent
  have hsift := hp.sift?_eq_filter hs (l := p.candidates) fun m hm =>
    ⟨hc.mem_candidates.mp hm, hp.tame (hc.mem_candidates.mp hm)⟩
  have hlegal : p.legalMoves? = sift? p.turn s p p.candidates := by
    simp [legalMoves?, hs, hp.pseudoLegalMoves?_eq]
  rw [hlegal, hsift]
  refine congrArg some (List.filter_congr fun m hm => decide_eq_decide.mpr ?_)
  rw [ne_eq, ← hking]
  exact ⟨fun h => ⟨hc.mem_candidates.mp hm, h.1, h.2⟩, fun h => ⟨h.takes_no_king, h.king_safe⟩⟩

/-- The listed moves of the image are the images of the listed moves, in some order. -/
theorem Faithful.legalMoves?_image (hp : p.Faithful) (hk : p.Keeps σ) :
    ∃ l l', p.legalMoves? = some l ∧ (p.image σ).legalMoves? = some l' ∧
      l'.Perm (l.map σ.move) := by
  classical
  have hq := hp.image σ
  refine ⟨_, _, hp.legalMoves?_eq_filter, hq.legalMoves?_eq_filter, ?_⟩
  refine (List.perm_ext_iff_of_nodup (hq.toConsistent.nodup_candidates.filter _)
    ((hp.toConsistent.nodup_candidates.filter _).map σ.move_injective)).mpr fun m => ?_
  have hlegal {q : Position} (hq : q.Consistent) (m : Move) :
      m ∈ q.candidates.filter (Legal q) ↔ Legal q m := by
    rw [List.mem_filter, hq.mem_candidates, decide_eq_true_eq]
    exact and_iff_right_of_imp Legal.permitted
  simp only [List.mem_map, hlegal hq.toConsistent, hlegal hp.toConsistent]
  constructor
  · intro h
    refine ⟨σ.move m, ?_, σ.move_move m⟩
    rwa [← hp.legal_image_iff hk, Symmetry.move_move]
  · rintro ⟨m, h, rfl⟩
    exact h.image hp.toConsistent hk

end Position

end ChessEval
