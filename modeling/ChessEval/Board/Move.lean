import ChessEval.Board.Piece
import ChessEval.Board.Square

/-! Moves and what they do besides carrying one piece. -/
namespace ChessEval

inductive MoveKind where
  | quiet
  | capture
  | doublePush
  | enPassant
  /-- A king's move of two files that brings the rook along. -/
  | castle
  | promotion (piece : Piece) (takes : Bool)
  deriving DecidableEq

structure Move where
  origin : Square
  target : Square
  kind : MoveKind
  deriving DecidableEq

namespace MoveKind

def text : MoveKind → String
  | quiet => "Quiet"
  | capture => "Capture"
  | doublePush => "DoublePawnPush"
  | enPassant => "EnPassant"
  | castle => "Castle"
  | promotion p t =>
    "Promotion \x7b piece: " ++ p.name ++ ", capture: " ++ (if t then "true" else "false") ++ " \x7d"

end MoveKind

namespace Move

/-- En passant counts as a capture. -/
def isCapture (m : Move) : Bool :=
  match m.kind with
  | .capture | .enPassant | .promotion _ true => true
  | _ => false

def promoted? (m : Move) : Option Piece :=
  match m.kind with
  | .promotion p _ => some p
  | _ => none

/-- The two squares, then the letter of a promotion. -/
def letters (m : Move) : List Char :=
  m.origin.letters ++ m.target.letters ++ (m.promoted?.map Piece.letter).toList

def text (m : Move) : String := String.ofList m.letters

def describe (m : Move) : String := s!"{m.text} ({m.kind.text})"

end Move

/-- Why a text is not taken for a move. -/
inductive MoveError where
  | invalidLength (bytes : Nat)
  | invalidSquare (text : String)
  | invalidPromotion (letter : Char)
  | emptyOrigin (text : String)
  | illegal (text : String)
  deriving DecidableEq

namespace MoveError

def message : MoveError → String
  | invalidLength n => s!"Move must be 4-5 characters, found {n}"
  | invalidSquare t => s!"Invalid square notation in '{t}'"
  | invalidPromotion c => s!"Invalid promotion piece '{c}'"
  | emptyOrigin t => s!"No piece of the side to move on the origin square of '{t}'"
  | illegal t => s!"Move '{t}' is not legal in this position"

end MoveError

end ChessEval
