import ChessEval.Board.Piece
import ChessEval.Board.Square

/-! What a move takes off the board and puts on it. -/
namespace ChessEval

/-- A colored piece on a square. -/
structure Placed where
  color : Color
  piece : Piece
  square : Square
  deriving DecidableEq

namespace Placed

def text (p : Placed) : String :=
  String.ofList (p.piece.coloredLetter p.color :: p.square.letters)

end Placed

inductive Change where
  | shift (before after : Placed)
  /-- The captured piece need not stand where the mover arrives. -/
  | capture (before after captured : Placed)
  | castling (kingBefore kingAfter rookBefore rookAfter : Placed)
  deriving DecidableEq

namespace Change

/-- What the record names as taken off the board. -/
def removed : Change → List Placed
  | shift before _ => [before]
  | capture before _ captured => [before, captured]
  | castling kingBefore _ rookBefore _ => [kingBefore, rookBefore]

/-- What leaves the board. A castling lifts a king, whatever piece the record names on its square:
the two differ only where pieces share that square. -/
def lifted : Change → List Placed
  | castling kingBefore _ rookBefore _ => [{ kingBefore with piece := .king }, rookBefore]
  | d => d.removed

def added : Change → List Placed
  | shift _ after => [after]
  | capture _ after _ => [after]
  | castling _ kingAfter _ rookAfter => [kingAfter, rookAfter]

/-- Whether a king of the color left its square. -/
def movesKing (d : Change) (c : Color) : Bool :=
  d.removed.any fun p => p.piece == .king && p.color == c

end Change

end ChessEval
