/-! The two colors and the six kinds of piece. -/
namespace ChessEval

inductive Color where
  | white
  | black
  deriving DecidableEq

inductive Piece where
  | pawn
  | knight
  | bishop
  | rook
  | queen
  | king
  deriving DecidableEq

namespace Color

def all : List Color := [white, black]

def index : Color → Nat
  | white => 0
  | black => 1

def opponent : Color → Color
  | white => black
  | black => white

def name : Color → String
  | white => "White"
  | black => "Black"

@[simp] theorem opponent_opponent (c : Color) : c.opponent.opponent = c := by
  cases c <;> rfl

end Color

namespace Piece

/-- All kinds, in index order. -/
def all : List Piece := [pawn, knight, bishop, rook, queen, king]

def index : Piece → Nat
  | pawn => 0
  | knight => 1
  | bishop => 2
  | rook => 3
  | queen => 4
  | king => 5

def name : Piece → String
  | pawn => "Pawn"
  | knight => "Knight"
  | bishop => "Bishop"
  | rook => "Rook"
  | queen => "Queen"
  | king => "King"

def letter : Piece → Char
  | pawn => 'p'
  | knight => 'n'
  | bishop => 'b'
  | rook => 'r'
  | queen => 'q'
  | king => 'k'

/-- The kind that a letter names, in either case. -/
def ofLetter? (c : Char) : Option Piece :=
  all.find? (·.letter == c.toLower)

/-- The letter of a colored piece: upper case for White. -/
def coloredLetter (p : Piece) : Color → Char
  | .white => p.letter.toUpper
  | .black => p.letter

end Piece

end ChessEval
