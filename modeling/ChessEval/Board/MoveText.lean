import ChessEval.Board.Legal

/-! Moves read from text. -/
namespace ChessEval

namespace Position

/-- What a move without a promotion letter does, judged by the piece and the two squares. -/
def kindOf (p : Position) (moving : Piece) (s t : Square) (takes : Bool) : MoveKind :=
  let plain := if takes then MoveKind.capture else .quiet
  match moving with
  | .king => if Play.fileDistance s t = 2 then .castle else plain
  | .pawn =>
    if p.enPassant = some t ∧ s.file ≠ t.file then .enPassant
    else if Play.rankDistance s t = 2 then .doublePush
    else plain
  | _ => plain

def promotionLetter (c : Char) : Except MoveError Piece :=
  match Piece.ofLetter? c with
  | some .knight => .ok .knight
  | some .bishop => .ok .bishop
  | some .rook => .ok .rook
  | some .queen => .ok .queen
  | _ => .error (.invalidPromotion c)

/-- Reads a move from four characters or, with a promotion letter, five. Its kind is inferred from
the position; whether it is legal is not asked. -/
def readMove (p : Position) (text : String) : Except MoveError Move :=
  let chars := text.toList
  if text.utf8ByteSize < 4 ∨ 5 < text.utf8ByteSize ∨ chars.any (128 ≤ ·.toNat) then
    .error (.invalidLength text.utf8ByteSize)
  else
    match Square.ofLetters? (chars.take 2), Square.ofLetters? ((chars.drop 2).take 2) with
    | some s, some t =>
      match p.pieceAt? s with
      | some (c, moving) =>
        if c = p.turn then
          let takes := (p.pieceAt? t).any fun x => x.1 != p.turn
          match chars.drop 4 with
          | letter :: _ => (promotionLetter letter).map fun k => ⟨s, t, .promotion k takes⟩
          | [] => .ok ⟨s, t, p.kindOf moving s t takes⟩
        else .error (.emptyOrigin text)
      | none => .error (.emptyOrigin text)
    | _, _ => .error (.invalidSquare text)

/-- Whether two moves are written alike. -/
def sameText (a b : Move) : Bool :=
  a.origin == b.origin && a.target == b.target && a.promoted? == b.promoted?

/-- Reads a move and finds it among the legal moves. No result where the legal moves have none. -/
def readLegalMove? (p : Position) (text : String) : Option (Except MoveError Move) :=
  match p.readMove text with
  | .error e => some (.error e)
  | .ok m => p.legalMoves?.map fun moves =>
    match moves.find? (sameText · m) with
    | some m => .ok m
    | none => .error (.illegal text)

end Position

end ChessEval
