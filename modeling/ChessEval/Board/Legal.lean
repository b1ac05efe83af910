import ChessEval.Board.Play

/-! The moves of a position: those its pieces can make, and those that are legal. -/
namespace ChessEval

namespace Generate

/-- Moves of a piece to squares of a set, in ascending order. -/
def toTargets (p : Position) (s : Square) (targets : Bitboard) : List Move :=
  targets.toList.map fun t =>
    ⟨s, t, if t ∈ p.occupiedBy p.turn.opponent then .capture else .quiet⟩

def promotions : List Piece := [.queen, .rook, .bishop, .knight]

/-- A pawn's arrival on a square: four moves on the last rank, one elsewhere. -/
def pawnArrivals (c : Color) (s t : Square) (takes : Bool) : List Move :=
  if t.rank = c.opponent.backRank then
    promotions.map fun k => ⟨s, t, .promotion k takes⟩
  else [⟨s, t, if takes then .capture else .quiet⟩]

/-- The square right ahead of a pawn, if the board has it and it is empty. -/
def pushSquare? (p : Position) (s : Square) : Option Square :=
  (s.step? p.turn.forward 0).filter (· ∉ p.occupied)

def doublePush (p : Position) (s : Square) : List Move :=
  if s.rank = p.turn.pawnRank then
    (((pushSquare? p s).bind (pushSquare? p)).map fun t => ⟨s, t, .doublePush⟩).toList
  else []

def enPassant (p : Position) (s : Square) : List Move :=
  match p.enPassant with
  | some t => if t ∈ Attack.pawn p.turn s then [⟨s, t, .enPassant⟩] else []
  | none => []

/-- The moves of one pawn: the double step, en passant, the single step, then captures. -/
def pawnMoves (p : Position) (s : Square) : List Move :=
  let us := p.turn
  let captures := (Attack.pawn us s &&& p.occupiedBy us.opponent).toList
  doublePush p s ++ enPassant p s ++
    (pushSquare? p s).toList.flatMap (pawnArrivals us s · false) ++
    captures.flatMap (pawnArrivals us s · true)

/-- The moves of one piece that is no pawn. -/
def pieceMoves (p : Position) (k : Piece) (s : Square) : List Move :=
  toTargets p s (k.attacks p.turn s p.occupied \ p.occupiedBy p.turn)

/-- The files between king and rook. -/
def between : CastlingSide → List (Fin 8)
  | .kingside => [Square.fileF, Square.fileG]
  | .queenside => [Square.fileB, Square.fileC, Square.fileD]

/-- The files the king crosses, the last being its goal. -/
def crossed : CastlingSide → List (Fin 8)
  | .kingside => [Square.fileF, Square.fileG]
  | .queenside => [Square.fileD, Square.fileC]

def goal : CastlingSide → Fin 8
  | .kingside => Square.fileG
  | .queenside => Square.fileC

def rookFile : CastlingSide → Fin 8
  | .kingside => Square.fileH
  | .queenside => Square.fileA

/-- Castling to a side asks for the right, the rook at home, no piece between and no attack on the
squares that the king crosses. -/
def canCastle (p : Position) (side : CastlingSide) : Bool :=
  let us := p.turn
  let home := Square.ofCoords us.backRank
  p.castling.has us side &&
  decide (home (rookFile side) ∈ p.pieces us .rook) &&
  (between side).all (fun f => decide (home f ∉ p.occupied)) &&
  (crossed side).all (fun f => (p.attackers (home f) us.opponent).isEmpty)

def castlings (p : Position) (king : Square) : List Move :=
  let us := p.turn
  if king = .ofCoords us.backRank Square.fileE ∧ (p.attackers king us.opponent).isEmpty then
    ([.kingside, .queenside].filter (canCastle p)).map fun side =>
      ⟨king, .ofCoords us.backRank (goal side), .castle⟩
  else []

end Generate

namespace Position

/-- The moves of the side to move, whether or not they leave its king attacked. No result without
a king. -/
def pseudoLegalMoves? (p : Position) : Option (List Move) := do
  let us := p.turn
  let king ← p.king? us
  return (p.pieces us .pawn).toList.flatMap (Generate.pawnMoves p) ++
    (p.pieces us .knight).toList.flatMap (Generate.pieceMoves p .knight) ++
    (p.pieces us .bishop).toList.flatMap (Generate.pieceMoves p .bishop) ++
    (p.pieces us .rook).toList.flatMap (Generate.pieceMoves p .rook) ++
    (p.pieces us .queen).toList.flatMap (Generate.pieceMoves p .queen) ++
    Generate.pieceMoves p .king king ++
    Generate.castlings p king

/-- The moves that neither take the king on `theirs` nor leave the own king attacked. Each is tried
on the board that the trials before it left behind. -/
def sift? (us : Color) (theirs : Square) : Position → List Move → Option (List Move)
  | _, [] => some []
  | p, m :: ms =>
    if m.target = theirs then sift? us theirs p ms
    else do
      let (next, undo) ← p.play? m
      let king ← next.king? us
      let rest ← sift? us theirs (next.takeBack undo) ms
      return if (next.attackers king us.opponent).isEmpty then m :: rest else rest

/-- The legal moves. No result if a king is missing, now or after one of the moves. -/
def legalMoves? (p : Position) : Option (List Move) := do
  let theirs ← p.king? p.turn.opponent
  let moves ← p.pseudoLegalMoves?
  sift? p.turn theirs p moves

/-- The number of lines of `n` legal moves, and the board after playing and taking back each. -/
def countLines? : Nat → Position → Option (Nat × Position)
  | 0, p => some (1, p)
  | n + 1, p => do
    let moves ← p.legalMoves?
    moves.foldlM (fun (total, p) m => do
      let (next, undo) ← p.play? m
      let (k, next) ← countLines? n next
      return (total + k, next.takeBack undo)) (0, p)

/-- For each legal move the number of lines of `n` further moves. -/
def divide? (n : Nat) (p : Position) : Option (List (Move × Nat) × Position) := do
  let moves ← p.legalMoves?
  let (counts, p) ← moves.foldlM (fun (counts, p) m => do
    let (next, undo) ← p.play? m
    let (k, next) ← countLines? n next
    return ((m, k) :: counts, next.takeBack undo)) ([], p)
  return (counts.reverse, p)

end Position

end ChessEval
