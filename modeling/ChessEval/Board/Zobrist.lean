import ChessEval.Board.Piece
import ChessEval.Board.Square
import ChessEval.Random.ChaCha

/-! The keys whose exclusive or is the hash of a position. -/
namespace ChessEval.Zobrist

structure Keys where
  /-- One key for each kind, color and square, in this order. -/
  pieces : Vector UInt64 768
  blackToMove : UInt64
  /-- One key for each set of castling rights. -/
  castling : Vector UInt64 16
  /-- One key for each file of an en passant square. -/
  enPassant : Vector UInt64 8

def draw (s : Random.Stream) : Keys :=
  let (pieces, s) := s.vector Random.Stream.longWord 768
  let (blackToMove, s) := s.longWord
  let (castling, s) := s.vector Random.Stream.longWord 16
  let (enPassant, _) := s.vector Random.Stream.longWord 8
  ⟨pieces, blackToMove, castling, enPassant⟩

def keys : Keys := draw (.ofSeed 1234567890)

def slot (c : Color) (p : Piece) (s : Square) : Fin 768 :=
  ⟨128 * p.index + 64 * c.index + s, by
    cases c <;> cases p <;> simp [Piece.index, Color.index] <;> omega⟩

def piece (c : Color) (p : Piece) (s : Square) : UInt64 := keys.pieces.get (slot c p s)

def blackToMove : UInt64 := keys.blackToMove

def castling (rights : Fin 16) : UInt64 := keys.castling.get rights

def enPassant (s : Square) : UInt64 := keys.enPassant.get s.file

end ChessEval.Zobrist
