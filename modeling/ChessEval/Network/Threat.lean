import ChessEval.Network.Feature

/-! Attacks on occupied squares, as inputs that follow the piece-square inputs. -/
namespace ChessEval

/-- A piece that attacks an occupied square. The kind of the attacked piece plays no part. -/
structure Threat where
  color : Color
  piece : Piece
  origin : Square
  victim : Color
  target : Square
  deriving DecidableEq

namespace Threat

/-- Threats are ordered by color, kind and square of the attacker, then color and square of the
attacked piece. -/
def key (t : Threat) : Nat :=
  65536 * t.color.index + 8192 * t.piece.index + 128 * t.origin + 64 * t.victim.index + t.target

def text (t : Threat) : String :=
  String.ofList (t.piece.coloredLetter t.color :: t.origin.letters ++
    (if t.color = t.victim then ['='] else []) ++ 'x' :: t.target.letters)

/-- A pawn that stands where no pawn can. -/
def strandedPawn (k : Piece) (s : Square) : Bool :=
  k == .pawn && (s.rank == Square.firstRank || s.rank == Square.eighthRank)

/-- The squares attacked on an empty board; none by a stranded pawn. -/
def reach (c : Color) (k : Piece) (s : Square) : Bitboard :=
  if strandedPawn k s then .empty else k.attacks c s .empty

/-- The place of a color's piece on a square among all of them. -/
def slotNumber (c : Color) (k : Piece) (s : Square) : Nat := 384 * c.index + 64 * k.index + s

theorem slotNumber_lt (c : Color) (k : Piece) (s : Square) : slotNumber c k s < 768 := by
  have := s.isLt
  cases c <;> cases k <;> simp only [slotNumber, Color.index, Piece.index] <;> omega

def slot (c : Color) (k : Piece) (s : Square) : Fin 768 := ⟨slotNumber c k s, slotNumber_lt c k s⟩

/-- Every color, kind and square, in the order of their slots. -/
def slots : List (Color × Piece × Square) :=
  Color.all.flatMap fun c => Piece.all.flatMap fun k => Square.all.map fun s => (c, k, s)

def reachSizes : List Nat := slots.map fun (c, k, s) => (reach c k s).card

/-- Pairs of a piece on a square and a square it reaches on an empty board. -/
def pairs : Nat := 7504

/-- Inputs of both blocks, against friends and against foes, after the piece-square inputs. -/
def inputs : Nat := Feature.count + 2 * pairs

def offsetTable : Vector Nat 768 := .ofFn fun i => (reachSizes.take i).foldr (· + ·) 0

def reachTable : Vector Bitboard 768 := .ofFn fun i =>
  match slots[i.val]? with
  | some (c, k, s) => reach c k s
  | none => .empty

/-- The number of a threat seen from one side's king: its block, the pairs of earlier slots and the
earlier squares that its attacker reaches. -/
def index (view : Color) (king : Square) (t : Threat) : Nat :=
  let side := if t.color = view then Color.white else .black
  let place := slot side t.piece (Feature.orient view king t.origin)
  let target := Feature.orient view king t.target
  Feature.count + (if t.victim = t.color then 0 else pairs) + offsetTable.get place +
    (reachTable.get place &&& .below target).card

/-- The threats of one piece on a square. -/
def ofPiece (p : Position) (c : Color) (k : Piece) (s : Square) : List Threat :=
  if strandedPawn k s then []
  else (k.attacks c s p.occupied &&& p.occupied).toList.map fun t =>
    ⟨c, k, s, if t ∈ p.occupiedBy c then c else c.opponent, t⟩

/-- The threats of a position, attacker by attacker. -/
def all (p : Position) : List Threat :=
  Color.all.flatMap fun c => Piece.all.flatMap fun k =>
    (p.pieces c k).toList.flatMap (ofPiece p c k)

/-- The threats of a position in ascending order. -/
def sorted (p : Position) : List Threat := (all p).mergeSort fun a b => a.key ≤ b.key

end Threat

/-- Threats that a move ended and threats that it made. -/
structure ThreatChange where
  removed : List Threat
  added : List Threat
  deriving DecidableEq

namespace ThreatChange

def isEmpty (d : ThreatChange) : Bool := d.removed.isEmpty && d.added.isEmpty

/-- The difference of two ascending lists, merged in one pass. Where a change is filled anew, both
of its lists are cleared first, so that the result takes nothing from what it held. -/
def between : List Threat → List Threat → ThreatChange
  | [], after => ⟨[], after⟩
  | before, [] => ⟨before, []⟩
  | a :: before, b :: after =>
    if a.key < b.key then
      let d := between before (b :: after)
      { d with removed := a :: d.removed }
    else if b.key < a.key then
      let d := between (a :: before) after
      { d with added := b :: d.added }
    else between before after
  termination_by before after => before.length + after.length

end ThreatChange

end ChessEval
