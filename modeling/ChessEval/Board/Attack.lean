import ChessEval.Board.Bitboard
import ChessEval.Board.Piece

/-! The squares a piece attacks, sliding pieces stopped by the first occupied square. -/
namespace ChessEval

/-- A step of ranks and files. -/
abbrev Step := Int × Int

namespace Step

def knight : List Step :=
  [(2, 1), (1, 2), (-1, 2), (-2, 1), (-2, -1), (-1, -2), (1, -2), (2, -1)]

def king : List Step :=
  [(1, 0), (-1, 0), (0, 1), (0, -1), (1, 1), (1, -1), (-1, 1), (-1, -1)]

def pawn : Color → List Step
  | .white => [(1, -1), (1, 1)]
  | .black => [(-1, -1), (-1, 1)]

end Step

namespace Square

/-- The squares one of the steps away. -/
def steps (s : Square) (ds : List Step) : List Square :=
  ds.filterMap fun d => s.step? d.1 d.2

/-- The first `n` squares met by repeating a step, up to the edge of the board. -/
def walk (d : Step) : Nat → Square → List Square
  | 0, _ => []
  | n + 1, s =>
    match s.step? d.1 d.2 with
    | some t => t :: walk d n t
    | none => []

/-- The squares met by repeating a step up to the edge of the board. -/
def ray (s : Square) (d : Step) : List Square := walk d 7 s

/-- The other squares of the straight line through a square. -/
def line (s : Square) (d : Step) : Bitboard :=
  Bitboard.ofList (s.ray d ++ s.ray (-d.1, -d.2))

/-- The squares of a list up to and including the first occupied one. -/
def upToFirst (occupied : Bitboard) : List Square → List Square
  | [] => []
  | t :: ts => if t ∈ occupied then [t] else t :: upToFirst occupied ts

end Square

namespace Attack

def knightTable : Vector Bitboard 64 := .ofFn fun s => .ofList (Square.steps s Step.knight)

def kingTable : Vector Bitboard 64 := .ofFn fun s => .ofList (Square.steps s Step.king)

def whitePawnTable : Vector Bitboard 64 :=
  .ofFn fun s => .ofList (Square.steps s (Step.pawn .white))

def blackPawnTable : Vector Bitboard 64 :=
  .ofFn fun s => .ofList (Square.steps s (Step.pawn .black))

def diagonalTable : Vector Bitboard 64 := .ofFn fun s => Square.line s (1, 1)

def antidiagonalTable : Vector Bitboard 64 := .ofFn fun s => Square.line s (1, -1)

def fileTable : Vector Bitboard 64 := .ofFn fun s => Square.line s (1, 0)

/-- The occupied ones among a rank's six inner squares, as the bits of a number. -/
def innerBits (occupied : Bitboard) (r : Fin 8) : Fin 64 :=
  ⟨(occupied.bits >>> UInt64.ofNat (8 * r.val + 1)).toNat % 64, Nat.mod_lt _ (by decide)⟩

/-- The squares of the first rank that such a number tells. -/
def innerSquares (inner : Fin 64) : Bitboard := ⟨UInt64.ofNat inner <<< 1⟩

/-- The squares of the first rank attacked from a file of it. The squares at its two ends need not
be known: no attack goes on from them. -/
def alongFirstRank (inner : Fin 64) (file : Fin 8) : Bitboard :=
  let s := Square.ofCoords Square.firstRank file
  let occupied := innerSquares inner
  .ofList (Square.upToFirst occupied (s.ray (0, 1)) ++ Square.upToFirst occupied (s.ray (0, -1)))

def rankTable : Vector (Vector Bitboard 8) 64 := .ofFn fun inner => .ofFn (alongFirstRank inner)

def knight (s : Square) : Bitboard := knightTable[s]

def king (s : Square) : Bitboard := kingTable[s]

def pawn (c : Color) (s : Square) : Bitboard :=
  match c with
  | .white => whitePawnTable[s]
  | .black => blackPawnTable[s]

/-- Attacks along a line of squares that crosses each rank at most once. Subtracting the slider's bit
from the blockers borrows up to the first blocker above it; with the bytes in reverse order it does
the same for the blockers below. -/
def slide (line occupied : Bitboard) (s : Square) : Bitboard :=
  let blockers := (occupied &&& line).bits
  let above := blockers - s.bit
  let below := Bitboard.swapBytes (Bitboard.swapBytes blockers - Bitboard.swapBytes s.bit)
  ⟨(above ^^^ below) &&& line.bits⟩

/-- Attacks along the slider's rank, looked up by the rank's inner squares. -/
def rank (occupied : Bitboard) (s : Square) : Bitboard :=
  ⟨rankTable[innerBits occupied s.rank][s.file].bits <<< UInt64.ofNat (8 * s.rank.val)⟩

def bishop (occupied : Bitboard) (s : Square) : Bitboard :=
  slide diagonalTable[s] occupied s ||| slide antidiagonalTable[s] occupied s

def rook (occupied : Bitboard) (s : Square) : Bitboard :=
  slide fileTable[s] occupied s ||| rank occupied s

end Attack

/-- The squares attacked from `s` by a piece, given the occupied squares. -/
def Piece.attacks (p : Piece) (c : Color) (s : Square) (occupied : Bitboard) : Bitboard :=
  match p with
  | .pawn => Attack.pawn c s
  | .knight => Attack.knight s
  | .bishop => Attack.bishop occupied s
  | .rook => Attack.rook occupied s
  | .queen => Attack.bishop occupied s ||| Attack.rook occupied s
  | .king => Attack.king s

end ChessEval
