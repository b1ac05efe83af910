import ChessEval.Board.Move
import ChessEval.Board.Position

/-! Playing a move and taking it back. -/
namespace ChessEval

/-- What a move overwrites, and the change it made to the board. -/
structure Undo where
  enPassant : Option Square
  castling : CastlingRights
  hash : UInt64
  halfmoves : UInt32
  fullmoves : UInt32
  change : Change
  deriving DecidableEq

namespace CastlingRights

/-- The rights left when a rook of the color leaves a square or is captured on it. -/
def loseRook (r : CastlingRights) (c : Color) (s : Square) : CastlingRights :=
  if s.rank = c.backRank then
    if s.file = Square.fileA then r.set false c .queenside
    else if s.file = Square.fileH then r.set false c .kingside
    else r
  else r

def loseBoth (r : CastlingRights) (c : Color) : CastlingRights :=
  (r.set false c .kingside).set false c .queenside

end CastlingRights

namespace Play

/-- Where the rook of a castling stands before and after, by the square the king reaches. -/
def rookSquares (king : Square) : Square × Square :=
  if king.file = Square.fileG then
    (.ofCoords king.rank Square.fileH, .ofCoords king.rank Square.fileF)
  else (.ofCoords king.rank Square.fileA, .ofCoords king.rank Square.fileD)

/-- The square right behind the one that a color's pawn reaches, if the board has it. -/
def behind? (c : Color) (s : Square) : Option Square := s.step? (-c.forward) 0

/-- The square whose piece a move captures, if the board has it. -/
def victimSquare? (c : Color) (m : Move) : Option Square :=
  if m.kind = .enPassant then behind? c m.target else some m.target

/-- The square that a double pawn step skips. -/
def skipped (a b : Square) : Square := ⟨(a + b) / 2, by omega⟩

def rankDistance (a b : Square) : Nat := ((a.rank : Int) - (b.rank : Int)).natAbs

def fileDistance (a b : Square) : Nat := ((a.file : Int) - (b.file : Int)).natAbs

end Play

namespace Position

/-- What a move changes on the board. No result if its origin is empty or the square it captures on
lies off the board. -/
def change? (p : Position) (m : Move) : Option Change := do
  let us := p.turn
  let (_, moving) ← p.pieceAt? m.origin
  let before : Placed := ⟨us, moving, m.origin⟩
  if m.kind = .castle then
    let (rookFrom, rookTo) := Play.rookSquares m.target
    return .castling before ⟨us, .king, m.target⟩ ⟨us, .rook, rookFrom⟩ ⟨us, .rook, rookTo⟩
  else
    let after : Placed := ⟨us, m.promoted?.getD moving, m.target⟩
    let victim ← Play.victimSquare? us m
    return match p.pieceAt? victim with
      | some (c, k) => .capture before after ⟨c, k, victim⟩
      | none => .shift before after

/-- The hash with the keys of some pieces exchanged for those of others, or the reverse. -/
def toggle (h : UInt64) (l : List Placed) : UInt64 :=
  l.foldl (fun h x => h ^^^ Zobrist.piece x.color x.piece x.square) h

/-- The rights left after a move of a kind of piece. -/
def rightsAfter (p : Position) (m : Move) (moving : Piece) (d : Change) : CastlingRights :=
  let kept := match moving with
    | .king => p.castling.loseBoth p.turn
    | .rook => p.castling.loseRook p.turn m.origin
    | _ => p.castling
  match d with
  | .capture _ _ ⟨c, .rook, _⟩ => kept.loseRook c m.target
  | _ => kept

def enPassantAfter (m : Move) (moving : Piece) : Option Square :=
  if moving = .pawn ∧ Play.rankDistance m.origin m.target = 2 then
    some (Play.skipped m.origin m.target)
  else none

/-- The clock of half moves starts anew at a pawn move or a capture and stops at its limit. -/
def halfmovesAfter (p : Position) (moving : Piece) (d : Change) : UInt32 :=
  match moving, d with
  | .pawn, _ => 0
  | _, .capture _ _ _ => 0
  | _, _ => if p.halfmoves = 0xFFFFFFFF then p.halfmoves else p.halfmoves + 1

/-- Plays a move. No result if its origin is empty or the square it captures on lies off the board;
legality is not asked for. The number of full moves goes back to zero after 2^32 - 1, where the
clock of half moves stops. -/
def play? (p : Position) (m : Move) : Option (Position × Undo) := do
  let (_, moving) ← p.pieceAt? m.origin
  let d ← p.change? m
  let rights := p.rightsAfter m moving d
  let target := enPassantAfter m moving
  let hash := p.hash ^^^ Zobrist.blackToMove
  let hash := match p.enPassant with
    | some s => hash ^^^ Zobrist.enPassant s
    | none => hash
  let hash := hash ^^^ Zobrist.castling p.castling.index
  let hash := toggle hash (d.lifted ++ d.added)
  let hash := match target with
    | some s => hash ^^^ Zobrist.enPassant s
    | none => hash
  let hash := hash ^^^ Zobrist.castling rights.index
  let next : Position := { p.exchange d.lifted d.added with
    turn := p.turn.opponent
    enPassant := target
    castling := rights
    hash := hash
    halfmoves := p.halfmovesAfter moving d
    fullmoves := match p.turn with
      | .white => p.fullmoves
      | .black => p.fullmoves + 1 }
  return (next, ⟨p.enPassant, p.castling, p.hash, p.halfmoves, p.fullmoves, d⟩)

/-- Takes back the move that left the record, as the record tells it. -/
def takeBack (p : Position) (u : Undo) : Position :=
  { p.exchange u.change.added u.change.removed with
    turn := p.turn.opponent
    enPassant := u.enPassant
    castling := u.castling
    hash := u.hash
    halfmoves := u.halfmoves
    fullmoves := u.fullmoves }

end Position

end ChessEval
