import ChessEval.Board.Position
import ChessEval.Text.Blank
import ChessEval.Text.Decimal

/-! Positions as FEN text. -/
namespace ChessEval

inductive FenError where
  | tooFewParts (found : Nat)
  | invalidPiece (letter : Char)
  | invalidCastling (letter : Char)
  | invalidSideToMove (found : String)
  | invalidEnPassant (found : String)
  | invalidRank (rank : Nat)
  | tooManyFiles (rank files : Nat)
  | kingCount (color : Color) (found : Nat)
  deriving DecidableEq

namespace FenError

def message : FenError → String
  | tooFewParts n => s!"FEN must have at least 4 parts, found {n}"
  | invalidPiece c => s!"Invalid piece character '{c}' in FEN"
  | invalidCastling c => s!"Invalid castling character '{c}' in FEN"
  | invalidSideToMove t => s!"Invalid side to move '{t}', expected 'w' or 'b'"
  | invalidEnPassant t => s!"Invalid en passant square '{t}'"
  | invalidRank r => s!"Invalid rank index {r} in FEN"
  | tooManyFiles r f => s!"Too many files ({f}) in rank {r}"
  | kingCount .white n => s!"Expected exactly one white king, found {n}"
  | kingCount .black n => s!"Expected exactly one black king, found {n}"

end FenError

namespace Fen

/-- Puts the pieces of one rank on the board. `rank` counts from the eighth rank down, `file` is
the sum of the digits and letters already read, of which a piece's place keeps eight bits. -/
def placeRank (rank : Nat) : List Char → Nat → Position → Except FenError Position
  | [], file, p => if 8 < file then .error (.tooManyFiles rank file) else .ok p
  | c :: cs, file, p =>
    match Text.digit? c with
    | some d => placeRank rank cs (file + d) p
    | none =>
      match Piece.ofLetter? c with
      | none => .error (.invalidPiece c)
      | some k =>
        match Square.at? (7 - rank) (file % 256) with
        | none => .error (.tooManyFiles rank (file + 1))
        | some s =>
          placeRank rank cs (file + 1) (p.put ⟨if c.isUpper then .white else .black, k, s⟩)

/-- Puts the ranks on the board, the eighth first. -/
def placeRanks : List (List Char) → Nat → Position → Except FenError Position
  | [], _, p => .ok p
  | r :: rs, rank, p =>
    if 8 ≤ rank then .error (.invalidRank rank)
    else (placeRank rank r 0 p).bind (placeRanks rs (rank + 1))

def placement (cs : List Char) : Except FenError Position :=
  placeRanks (Text.split (· == '/') cs) 0 .empty

/-- Fails unless the color has exactly one king. -/
def checkKing (p : Position) (c : Color) : Except FenError Unit :=
  if p.count c .king = 1 then .ok () else .error (.kingCount c (p.count c .king))

def sideToMove (cs : List Char) : Except FenError Color :=
  if cs = ['w'] then .ok .white
  else if cs = ['b'] then .ok .black
  else .error (.invalidSideToMove (String.ofList cs))

def addRight (r : CastlingRights) (c : Char) : Except FenError CastlingRights :=
  if c = 'K' then .ok (r.set true .white .kingside)
  else if c = 'Q' then .ok (r.set true .white .queenside)
  else if c = 'k' then .ok (r.set true .black .kingside)
  else if c = 'q' then .ok (r.set true .black .queenside)
  else if c = '-' then .ok r
  else .error (.invalidCastling c)

/-- The rights named by letters in any order; a dash names none and may stand anywhere. -/
def castling : List Char → CastlingRights → Except FenError CastlingRights
  | [], r => .ok r
  | c :: cs, r => (addRight r c).bind (castling cs)

def enPassant (cs : List Char) : Except FenError (Option Square) :=
  if cs = ['-'] then .ok none
  else match Square.ofLetters? cs with
    | some s => .ok (some s)
    | none => .error (.invalidEnPassant (String.ofList cs))

/-- A counter, or a default where it is missing or is no number. -/
def counter (default : UInt32) : Option (List Char) → UInt32
  | some cs => (Text.counter? cs).getD default
  | none => default

/-- Reads the fields of a FEN in their order, the two counters last. -/
def ofFields : List (List Char) → Except FenError Position
  | board :: side :: rights :: target :: counters => do
    let p ← placement board
    checkKing p .white
    checkKing p .black
    let turn ← sideToMove side
    let rights ← castling rights .none
    let target ← enPassant target
    return { p with
      turn := turn
      castling := rights
      enPassant := target
      halfmoves := counter 0 counters.head?
      fullmoves := counter 1 counters.tail.head? }.rehash
  | fields => .error (.tooFewParts fields.length)

def pieceLetter (p : Position) (s : Square) : Option Char :=
  (p.pieceAt? s).map fun (c, k) => k.coloredLetter c

/-- Letters of a rank with runs of empty squares as digits, `run` empty squares being open. -/
def rankLetters : List (Option Char) → Nat → List Char
  | [], run => if run = 0 then [] else Text.natText run
  | none :: cs, run => rankLetters cs (run + 1)
  | some c :: cs, run => (if run = 0 then [] else Text.natText run) ++ c :: rankLetters cs 0

def rankText (p : Position) (rank : Fin 8) : List Char :=
  rankLetters ((List.finRange 8).map fun f => pieceLetter p (.ofCoords rank f)) 0

def boardText (p : Position) : List Char :=
  List.intercalate ['/'] ((List.finRange 8).reverse.map (rankText p))

def sideText : Color → List Char
  | .white => ['w']
  | .black => ['b']

def castlingText (r : CastlingRights) : List Char :=
  let letters := (if r.whiteKingside then ['K'] else []) ++ (if r.whiteQueenside then ['Q'] else []) ++
    (if r.blackKingside then ['k'] else []) ++ (if r.blackQueenside then ['q'] else [])
  if letters.isEmpty then ['-'] else letters

def enPassantText : Option Square → List Char
  | some s => s.letters
  | none => ['-']

/-- The six fields of a position. -/
def fields (p : Position) : List (List Char) :=
  [boardText p, sideText p.turn, castlingText p.castling, enPassantText p.enPassant,
   Text.natText p.halfmoves.toNat, Text.natText p.fullmoves.toNat]

end Fen

namespace Position

def ofFen (text : String) : Except FenError Position := Fen.ofFields (Text.words text.toList)

def toFen (p : Position) : String := String.ofList (List.intercalate [' '] (Fen.fields p))

end Position

end ChessEval
