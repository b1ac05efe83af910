import ChessEval.Board.Legal

/-! The rules of chess, told square by square: who attacks what, which moves there are and which of
them are legal. Nothing here looks at bitboards. -/
namespace ChessEval

/-- The square some ranks and files away. -/
def Square.Off (s : Square) (d : Step) (t : Square) : Prop :=
  (t.rank : Int) = s.rank + d.1 ∧ (t.file : Int) = s.file + d.2

/-- The squares that a piece sliding in one direction reaches: each next square as long as those
passed are free. -/
inductive Square.Slides (blocked : Square → Prop) (d : Step) : Square → Square → Prop
  | one {s t : Square} : s.Off d t → Slides blocked d s t
  | more {s t u : Square} : s.Off d u → ¬ blocked u → Slides blocked d u t → Slides blocked d s t

namespace Rules

/-- What stands on each square. -/
abbrev Board := Square → Option (Color × Piece)

def diagonals : List Step := [(1, 1), (-1, -1), (1, -1), (-1, 1)]

def straights : List Step := [(1, 0), (-1, 0), (0, 1), (0, -1)]

def KnightStep (s t : Square) : Prop :=
  (Play.rankDistance s t = 1 ∧ Play.fileDistance s t = 2) ∨
    (Play.rankDistance s t = 2 ∧ Play.fileDistance s t = 1)

def KingStep (s t : Square) : Prop :=
  s ≠ t ∧ Play.rankDistance s t ≤ 1 ∧ Play.fileDistance s t ≤ 1

/-- One rank forward and one file to either side. -/
def PawnStep (c : Color) (s t : Square) : Prop :=
  s.Off (c.forward, 1) t ∨ s.Off (c.forward, -1) t

def Slide (b : Board) (directions : List Step) (s t : Square) : Prop :=
  ∃ d ∈ directions, s.Slides (b · ≠ none) d t

/-- A color's piece on `s` attacks `t`. -/
def Attacks (b : Board) (c : Color) (k : Piece) (s t : Square) : Prop :=
  match k with
  | .pawn => PawnStep c s t
  | .knight => KnightStep s t
  | .bishop => Slide b diagonals s t
  | .rook => Slide b straights s t
  | .queen => Slide b diagonals s t ∨ Slide b straights s t
  | .king => KingStep s t

/-- Some piece of the color attacks the square. -/
def Attacked (b : Board) (c : Color) (t : Square) : Prop :=
  ∃ s k, b s = some (c, k) ∧ Attacks b c k s t

/-- The color's king is nowhere attacked. -/
def KingSafe (b : Board) (c : Color) : Prop :=
  ∀ s, b s = some (c, .king) → ¬ Attacked b c.opponent s

/-- The square beside the origin of an en passant capture, where the captured pawn stands. -/
def beside (m : Move) : Square := .ofCoords m.origin.rank m.target.file

/-- The corner from which the rook of a castling comes. -/
def rookHome (m : Move) : Square :=
  .ofCoords m.target.rank (if m.target.file = Square.fileG then Square.fileH else Square.fileA)

/-- The square that the king of a castling passes, where the rook goes. -/
def rookGoal (m : Move) : Square :=
  .ofCoords m.target.rank (if m.target.file = Square.fileG then Square.fileF else Square.fileD)

/-- The board after a color's move. -/
def after (b : Board) (c : Color) (m : Move) : Board := fun s =>
  match m.kind with
  | .castle =>
    if s = m.target then some (c, .king)
    else if s = rookGoal m then some (c, .rook)
    else if s = m.origin ∨ s = rookHome m then none
    else b s
  | .enPassant =>
    if s = m.target then b m.origin
    else if s = m.origin ∨ s = beside m then none
    else b s
  | .promotion k _ =>
    if s = m.target then some (c, k)
    else if s = m.origin then none
    else b s
  | _ =>
    if s = m.target then b m.origin
    else if s = m.origin then none
    else b s

/-- The rank on which a color's pawns promote. -/
def lastRank (c : Color) : Fin 8 := c.opponent.backRank

/-- The moves that the pieces of the side to move can make, whether or not they leave its king
attacked. -/
inductive Permitted (p : Position) : Move → Prop
  | quiet {s t k} : p.pieceAt? s = some (p.turn, k) → k ≠ .pawn → Attacks p.pieceAt? p.turn k s t →
    p.pieceAt? t = none → Permitted p ⟨s, t, .quiet⟩
  | capture {s t k v} : p.pieceAt? s = some (p.turn, k) → k ≠ .pawn →
    Attacks p.pieceAt? p.turn k s t → p.pieceAt? t = some (p.turn.opponent, v) →
    Permitted p ⟨s, t, .capture⟩
  | push {s t} : p.pieceAt? s = some (p.turn, .pawn) → s.Off (p.turn.forward, 0) t →
    p.pieceAt? t = none → t.rank ≠ lastRank p.turn → Permitted p ⟨s, t, .quiet⟩
  | doublePush {s u t} : p.pieceAt? s = some (p.turn, .pawn) → s.rank = p.turn.pawnRank →
    s.Off (p.turn.forward, 0) u → p.pieceAt? u = none → u.Off (p.turn.forward, 0) t →
    p.pieceAt? t = none → Permitted p ⟨s, t, .doublePush⟩
  | pawnCapture {s t v} : p.pieceAt? s = some (p.turn, .pawn) → PawnStep p.turn s t →
    p.pieceAt? t = some (p.turn.opponent, v) → t.rank ≠ lastRank p.turn →
    Permitted p ⟨s, t, .capture⟩
  | promotion {s t k} : p.pieceAt? s = some (p.turn, .pawn) → s.Off (p.turn.forward, 0) t →
    p.pieceAt? t = none → t.rank = lastRank p.turn → k ∈ [Piece.queen, .rook, .bishop, .knight] →
    Permitted p ⟨s, t, .promotion k false⟩
  | capturingPromotion {s t v k} : p.pieceAt? s = some (p.turn, .pawn) → PawnStep p.turn s t →
    p.pieceAt? t = some (p.turn.opponent, v) → t.rank = lastRank p.turn →
    k ∈ [Piece.queen, .rook, .bishop, .knight] → Permitted p ⟨s, t, .promotion k true⟩
  | enPassant {s t} : p.pieceAt? s = some (p.turn, .pawn) → p.enPassant = some t →
    PawnStep p.turn s t → Permitted p ⟨s, t, .enPassant⟩
  | castleKingside : p.castling.has p.turn .kingside = true →
    p.pieceAt? (.ofCoords p.turn.backRank Square.fileE) = some (p.turn, .king) →
    p.pieceAt? (.ofCoords p.turn.backRank Square.fileH) = some (p.turn, .rook) →
    (∀ f ∈ [Square.fileF, Square.fileG], p.pieceAt? (.ofCoords p.turn.backRank f) = none) →
    (∀ f ∈ [Square.fileE, Square.fileF, Square.fileG],
      ¬ Attacked p.pieceAt? p.turn.opponent (.ofCoords p.turn.backRank f)) →
    Permitted p ⟨.ofCoords p.turn.backRank Square.fileE, .ofCoords p.turn.backRank Square.fileG,
      .castle⟩
  | castleQueenside : p.castling.has p.turn .queenside = true →
    p.pieceAt? (.ofCoords p.turn.backRank Square.fileE) = some (p.turn, .king) →
    p.pieceAt? (.ofCoords p.turn.backRank Square.fileA) = some (p.turn, .rook) →
    (∀ f ∈ [Square.fileB, Square.fileC, Square.fileD],
      p.pieceAt? (.ofCoords p.turn.backRank f) = none) →
    (∀ f ∈ [Square.fileE, Square.fileD, Square.fileC],
      ¬ Attacked p.pieceAt? p.turn.opponent (.ofCoords p.turn.backRank f)) →
    Permitted p ⟨.ofCoords p.turn.backRank Square.fileE, .ofCoords p.turn.backRank Square.fileC,
      .castle⟩

/-- A permitted move that takes no king and does not leave the mover's king attacked. -/
structure Legal (p : Position) (m : Move) : Prop where
  permitted : Permitted p m
  takes_no_king : p.pieceAt? m.target ≠ some (p.turn.opponent, .king)
  king_safe : KingSafe (after p.pieceAt? p.turn m) p.turn

end Rules

end ChessEval
