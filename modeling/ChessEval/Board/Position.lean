import ChessEval.Board.Attack
import ChessEval.Board.Change
import ChessEval.Board.Zobrist

/-! Positions: where the pieces stand, whose turn it is, the rights, the clocks and the hash. -/
namespace ChessEval

/-- The squares of each kind of piece. -/
structure PieceSets where
  pawns : Bitboard
  knights : Bitboard
  bishops : Bitboard
  rooks : Bitboard
  queens : Bitboard
  kings : Bitboard
  deriving DecidableEq

namespace PieceSets

def empty : PieceSets := ⟨.empty, .empty, .empty, .empty, .empty, .empty⟩

def get (a : PieceSets) : Piece → Bitboard
  | .pawn => a.pawns
  | .knight => a.knights
  | .bishop => a.bishops
  | .rook => a.rooks
  | .queen => a.queens
  | .king => a.kings

def set (a : PieceSets) (p : Piece) (b : Bitboard) : PieceSets :=
  match p with
  | .pawn => { a with pawns := b }
  | .knight => { a with knights := b }
  | .bishop => { a with bishops := b }
  | .rook => { a with rooks := b }
  | .queen => { a with queens := b }
  | .king => { a with kings := b }

def map (f : Bitboard → Bitboard) (a : PieceSets) : PieceSets :=
  ⟨f a.pawns, f a.knights, f a.bishops, f a.rooks, f a.queens, f a.kings⟩

end PieceSets

/-- One side's pieces and the squares they are held to occupy. -/
structure Army where
  pieces : PieceSets
  occupied : Bitboard
  deriving DecidableEq

namespace Army

def empty : Army := ⟨.empty, .empty⟩

def put (a : Army) (p : Piece) (s : Square) : Army :=
  ⟨a.pieces.set p ((a.pieces.get p).insert s), a.occupied.insert s⟩

def take (a : Army) (p : Piece) (s : Square) : Army :=
  ⟨a.pieces.set p ((a.pieces.get p).erase s), a.occupied.erase s⟩

def map (f : Bitboard → Bitboard) (a : Army) : Army := ⟨a.pieces.map f, f a.occupied⟩

end Army

inductive CastlingSide where
  | kingside
  | queenside
  deriving DecidableEq

structure CastlingRights where
  whiteKingside : Bool
  whiteQueenside : Bool
  blackKingside : Bool
  blackQueenside : Bool
  deriving DecidableEq

namespace CastlingRights

def none : CastlingRights := ⟨false, false, false, false⟩

def all : CastlingRights := ⟨true, true, true, true⟩

def has (r : CastlingRights) : Color → CastlingSide → Bool
  | .white, .kingside => r.whiteKingside
  | .white, .queenside => r.whiteQueenside
  | .black, .kingside => r.blackKingside
  | .black, .queenside => r.blackQueenside

def set (r : CastlingRights) (held : Bool) : Color → CastlingSide → CastlingRights
  | .white, .kingside => { r with whiteKingside := held }
  | .white, .queenside => { r with whiteQueenside := held }
  | .black, .kingside => { r with blackKingside := held }
  | .black, .queenside => { r with blackQueenside := held }

/-- The rights with the colors exchanged. -/
def swap (r : CastlingRights) : CastlingRights :=
  ⟨r.blackKingside, r.blackQueenside, r.whiteKingside, r.whiteQueenside⟩

/-- The rights as a number of four bits, White's kingside the lowest. -/
def index (r : CastlingRights) : Fin 16 :=
  ⟨r.whiteKingside.toNat + 2 * r.whiteQueenside.toNat + 4 * r.blackKingside.toNat +
    8 * r.blackQueenside.toNat, by
    have := r.whiteKingside.toNat_lt
    have := r.whiteQueenside.toNat_lt
    have := r.blackKingside.toNat_lt
    have := r.blackQueenside.toNat_lt
    omega⟩

end CastlingRights

structure Position where
  white : Army
  black : Army
  occupied : Bitboard
  turn : Color
  enPassant : Option Square
  castling : CastlingRights
  hash : UInt64
  /-- Half moves since the last capture or pawn move. -/
  halfmoves : UInt32
  /-- The number of the current full move. -/
  fullmoves : UInt32
  deriving DecidableEq

namespace Color

/-- The rank of the color's king and rooks at the start. -/
def backRank : Color → Fin 8
  | .white => Square.firstRank
  | .black => Square.eighthRank

/-- The rank from which the color's pawns may step twice. -/
def pawnRank : Color → Fin 8
  | .white => Square.secondRank
  | .black => Square.seventhRank

/-- The step of the color's pawns. -/
def forward : Color → Int
  | .white => 1
  | .black => -1

end Color

namespace Position

/-- A board without pieces, White to move. -/
def empty : Position :=
  ⟨.empty, .empty, .empty, .white, none, .none, 0, 0, 1⟩

def army (p : Position) : Color → Army
  | .white => p.white
  | .black => p.black

def setArmy (p : Position) (c : Color) (a : Army) : Position :=
  match c with
  | .white => { p with white := a }
  | .black => { p with black := a }

def pieces (p : Position) (c : Color) (k : Piece) : Bitboard := (p.army c).pieces.get k

def occupiedBy (p : Position) (c : Color) : Bitboard := (p.army c).occupied

def put (p : Position) (x : Placed) : Position :=
  { p.setArmy x.color ((p.army x.color).put x.piece x.square) with
    occupied := p.occupied.insert x.square }

def take (p : Position) (x : Placed) : Position :=
  { p.setArmy x.color ((p.army x.color).take x.piece x.square) with
    occupied := p.occupied.erase x.square }

/-- The position with some pieces taken off, then others put on. -/
def exchange (p : Position) (off on : List Placed) : Position :=
  on.foldl put (off.foldl take p)

/-- The piece on a square: White's before Black's, then the first kind in index order. -/
def pieceAt? (p : Position) (s : Square) : Option (Color × Piece) :=
  if s ∈ p.occupied then
    let c : Color := if s ∈ p.occupiedBy .white then .white else .black
    (Piece.all.find? fun k => s ∈ p.pieces c k).map fun k => (c, k)
  else none

def king? (p : Position) (c : Color) : Option Square := (p.pieces c .king).first?

def count (p : Position) (c : Color) (k : Piece) : Nat := (p.pieces c k).card

/-- The number of pieces of a kind, of both colors. -/
def countBoth (p : Position) (k : Piece) : Nat := p.count .white k + p.count .black k

def pieceCount (p : Position) : Nat := p.occupied.card

/-- The pieces of a color that attack a square, found by looking back from the square. -/
def attackers (p : Position) (s : Square) (c : Color) : Bitboard :=
  (Attack.pawn c.opponent s &&& p.pieces c .pawn) |||
  (Attack.knight s &&& p.pieces c .knight) |||
  (Attack.king s &&& p.pieces c .king) |||
  (Attack.bishop p.occupied s &&& (p.pieces c .bishop ||| p.pieces c .queen)) |||
  (Attack.rook p.occupied s &&& (p.pieces c .rook ||| p.pieces c .queen))

/-- The opponent's pieces that attack the king of the side to move; none without such a king. -/
def checkers? (p : Position) : Option Bitboard :=
  (p.king? p.turn).map fun k => p.attackers k p.turn.opponent

def inCheck? (p : Position) : Option Bool := p.checkers?.map (!·.isEmpty)

/-- The hash computed from the whole position. -/
def hashOf (p : Position) : UInt64 :=
  let board := Color.all.foldl (fun h c =>
    Piece.all.foldl (fun h k =>
      (p.pieces c k).toList.foldl (fun h s => h ^^^ Zobrist.piece c k s) h) h) 0
  let board := match p.turn with
    | .white => board
    | .black => board ^^^ Zobrist.blackToMove
  let board := board ^^^ Zobrist.castling p.castling.index
  match p.enPassant with
  | some s => board ^^^ Zobrist.enPassant s
  | none => board

def rehash (p : Position) : Position := { p with hash := p.hashOf }

/-- The pieces of a back rank at the start of a game, from the a-file on. -/
def homeRank : List Piece := [.rook, .knight, .bishop, .queen, .king, .bishop, .knight, .rook]

/-- A color's pieces at the start of a game. -/
def homePieces (c : Color) : List Placed :=
  (homeRank.zip (List.finRange 8)).flatMap fun (k, f) =>
    [⟨c, k, .ofCoords c.backRank f⟩, ⟨c, .pawn, .ofCoords c.pawnRank f⟩]

/-- The start of a game. -/
def initial : Position :=
  { empty.exchange [] (Color.all.flatMap homePieces) with castling := .all }.rehash

/-- The position with left and right exchanged. The rights and the en passant square do not outlive
the reflection. -/
def reflected (p : Position) : Position :=
  { p with
    white := p.white.map Bitboard.flipHorizontal
    black := p.black.map Bitboard.flipHorizontal
    occupied := p.occupied.flipHorizontal
    castling := .none
    enPassant := none }.rehash

/-- The position with the colors exchanged and the board seen from the other side. -/
def colorFlipped (p : Position) : Position :=
  { p with
    white := p.black.map Bitboard.flipVertical
    black := p.white.map Bitboard.flipVertical
    occupied := p.occupied.flipVertical
    turn := p.turn.opponent
    castling := p.castling.swap
    enPassant := p.enPassant.map Square.flipVertical }.rehash

end Position

end ChessEval
