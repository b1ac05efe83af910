import ChessEval.Board.Position

/-! Numbers of the piece-square inputs, seen from one side's king. -/
namespace ChessEval.Feature

/-- Inputs of each perspective. -/
def count : Nat := 768

/-- Classes of king squares of each perspective. -/
def kingBuckets : Nat := 32

/-- A board is mirrored for a king on the e-file to the h-file. -/
def isMirrored (king : Square) : Bool := Square.fileD < king.file

/-- A square in the frame of a perspective, where its king stands on the left half and its pawns
move up. -/
def orient (view : Color) (king s : Square) : Square :=
  let s := if isMirrored king then s.flipHorizontal else s
  match view with
  | .white => s
  | .black => s.flipVertical

/-- A set of squares in the frame of a perspective. -/
def orientSet (view : Color) (king : Square) (b : Bitboard) : Bitboard :=
  let b := if isMirrored king then b.flipHorizontal else b
  match view with
  | .white => b
  | .black => b.flipVertical

/-- The number of a piece on a square of the perspective's frame. -/
def orientedIndex (view c : Color) (k : Piece) (s : Square) : Nat :=
  (if c = view then 0 else 384) + 64 * k.index + s

/-- The number of a piece on a square of the board. -/
def index (view : Color) (king : Square) (c : Color) (k : Piece) (s : Square) : Nat :=
  orientedIndex view c k (orient view king s)

theorem orientedIndex_lt (view c : Color) (k : Piece) (s : Square) :
    orientedIndex view c k s < count := by
  have := s.isLt
  unfold orientedIndex count
  split <;> cases k <;> simp only [Piece.index] <;> omega

theorem orient_king_file_lt (view : Color) (king : Square) :
    (orient view king king).file.val < 4 := by
  cases view <;> revert king <;> decide +kernel

/-- The class of a perspective's king. -/
def kingBucket (view : Color) (king : Square) : Fin kingBuckets :=
  let s := orient view king king
  ⟨4 * s.rank + s.file, by
    have h : s.file.val < 4 := orient_king_file_lt view king
    unfold kingBuckets
    omega⟩

/-- The numbers of all pieces of a position. -/
def active (p : Position) (view : Color) (king : Square) : List Nat :=
  Color.all.flatMap fun c => Piece.all.flatMap fun k =>
    (p.pieces c k).toList.map (index view king c k)

end ChessEval.Feature
