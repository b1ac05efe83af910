import ChessEval.Board.Position

/-! Material counts and the piece-square score. -/
namespace ChessEval

/-- The worth of a piece; a king counts nothing. -/
def Piece.worth : Piece → Int32
  | .pawn => 208
  | .knight => 854
  | .bishop => 915
  | .rook => 1380
  | .queen => 2682
  | .king => 0

namespace Material

/-- Ranks from the first to the eighth; files a to d, which the other four repeat in reverse. -/
def knightBonus : List (List Int32) :=
  [[-96, -65, -49, -21], [-67, -54, -18, 8], [-40, -27, -8, 29], [-35, -2, 13, 28],
   [-45, -16, 9, 39], [-51, -44, -16, 17], [-69, -50, -51, 12], [-100, -88, -56, -17]]

def bishopBonus : List (List Int32) :=
  [[-40, -21, -26, -8], [-26, -9, -12, 1], [-11, -1, -1, 7], [-14, -4, 0, 12],
   [-12, -1, -10, 11], [-21, 4, 3, 4], [-22, -14, -1, 1], [-32, -29, -26, -17]]

def rookBonus : List (List Int32) :=
  [[-9, -13, -10, -9], [-12, -9, -1, -2], [6, -8, -2, -6], [-6, 1, -9, 7],
   [-5, 8, 7, -6], [6, 1, -7, 10], [4, 5, 20, -5], [18, 0, 19, 13]]

def queenBonus : List (List Int32) :=
  [[-69, -57, -47, -26], [-54, -31, -22, -4], [-39, -18, -9, 3], [-23, -3, 13, 24],
   [-29, -6, 9, 21], [-38, -18, -11, 1], [-50, -27, -24, -8], [-74, -52, -43, -34]]

def kingBonus : List (List Int32) :=
  [[1, 45, 85, 76], [53, 100, 133, 135], [88, 130, 169, 175], [103, 156, 172, 172],
   [96, 166, 199, 199], [92, 172, 184, 191], [47, 121, 116, 131], [11, 59, 73, 78]]

/-- All eight files: pawns are not scored alike on both wings. -/
def pawnBonus : List (List Int32) :=
  [[0, 0, 0, 0, 0, 0, 0, 0],
   [-8, -6, 9, 5, 16, 6, -6, -18],
   [-9, -7, -10, 5, 2, 3, -8, -5],
   [7, 1, -8, -2, -14, -13, -11, -6],
   [12, 6, 2, -6, -5, -4, 14, 9],
   [27, 18, 19, 29, 30, 9, 8, 14],
   [-1, -14, 13, 22, 24, 17, 7, 7],
   [0, 0, 0, 0, 0, 0, 0, 0]]

def entry (table : List (List Int32)) (rank file : Nat) : Int32 :=
  (table.getD rank []).getD file 0

/-- The bonus of a color's piece on a square, the board seen from that color's side. -/
def squareBonus (c : Color) (k : Piece) (s : Square) : Int32 :=
  let s := match c with
    | .white => s
    | .black => s.flipVertical
  let edge := min s.file.val s.file.rev.val
  match k with
  | .pawn => entry pawnBonus s.rank s.file
  | .knight => entry knightBonus s.rank edge
  | .bishop => entry bishopBonus s.rank edge
  | .rook => entry rookBonus s.rank edge
  | .queen => entry queenBonus s.rank edge
  | .king => entry kingBonus s.rank edge

/-- The kinds that count as material besides pawns. -/
def nonPawn : List Piece := [.knight, .bishop, .rook, .queen]

end Material

namespace Position

def nonPawnMaterial (p : Position) (c : Color) : Int32 :=
  (Material.nonPawn.map fun k => k.worth * Int32.ofNat (p.count c k)).sum

def nonPawnMaterialTotal (p : Position) : Int32 :=
  p.nonPawnMaterial .white + p.nonPawnMaterial .black

/-- The material balance from a color's point of view. -/
def materialBalance (p : Position) (c : Color) : Int32 :=
  Piece.pawn.worth * (Int32.ofNat (p.count c .pawn) - Int32.ofNat (p.count c.opponent .pawn)) +
    p.nonPawnMaterial c - p.nonPawnMaterial c.opponent

/-- The worth and the square bonus of a color's pieces. -/
def pieceSquareSum (p : Position) (c : Color) : Int32 :=
  (Piece.all.map fun k =>
    ((p.pieces c k).toList.map fun s => k.worth + Material.squareBonus c k s).sum).sum

/-- The piece-square score from the point of view of the side to move. -/
def pieceSquareScore (p : Position) : Int32 :=
  p.pieceSquareSum p.turn - p.pieceSquareSum p.turn.opponent

end Position

end ChessEval
