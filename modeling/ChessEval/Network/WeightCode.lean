import ChessEval.Board.Piece

/-! One-byte codes of first-layer weights. A few codes of each kind of piece and point of view stand
for weights that a byte cannot hold; every other code is the weight itself. -/
namespace ChessEval.WeightCode

/-- A code, counted from the lowest byte, that stands for another weight, for a kind of piece of the
perspective's own side or of the enemy's. -/
structure Exception where
  piece : Piece
  enemy : Bool
  code : Nat
  weight : Int16

def exceptions : List Exception :=
  [⟨.pawn, false, 0, -200⟩, ⟨.pawn, false, 1, -196⟩, ⟨.pawn, false, 2, -148⟩,
   ⟨.pawn, false, 3, -142⟩, ⟨.pawn, true, 0, -191⟩, ⟨.pawn, true, 1, -175⟩,
   ⟨.pawn, true, 3, -171⟩, ⟨.pawn, true, 4, -164⟩, ⟨.pawn, true, 5, -163⟩,
   ⟨.pawn, true, 6, -160⟩, ⟨.pawn, true, 7, -157⟩, ⟨.pawn, true, 8, -141⟩,
   ⟨.pawn, true, 9, -139⟩, ⟨.knight, false, 0, -131⟩, ⟨.bishop, false, 0, -142⟩,
   ⟨.bishop, false, 1, -136⟩, ⟨.bishop, false, 2, -135⟩, ⟨.bishop, false, 3, -129⟩,
   ⟨.queen, false, 0, -182⟩, ⟨.queen, false, 1, -181⟩, ⟨.queen, false, 2, -175⟩,
   ⟨.queen, false, 3, -173⟩, ⟨.queen, false, 4, -172⟩, ⟨.queen, false, 5, -170⟩,
   ⟨.queen, false, 6, -167⟩, ⟨.queen, false, 7, -166⟩, ⟨.queen, false, 8, -165⟩,
   ⟨.queen, false, 9, -164⟩, ⟨.queen, false, 10, -163⟩, ⟨.queen, false, 11, -162⟩,
   ⟨.queen, false, 12, -161⟩, ⟨.queen, false, 13, -160⟩, ⟨.queen, false, 14, -159⟩,
   ⟨.queen, false, 15, -158⟩, ⟨.queen, false, 16, -157⟩, ⟨.queen, false, 17, -156⟩,
   ⟨.queen, false, 18, -155⟩, ⟨.queen, false, 19, -154⟩, ⟨.queen, false, 20, -153⟩,
   ⟨.queen, false, 21, -152⟩, ⟨.queen, false, 22, -151⟩, ⟨.queen, false, 23, -150⟩,
   ⟨.queen, false, 24, -149⟩, ⟨.queen, false, 25, -148⟩, ⟨.queen, false, 26, -146⟩,
   ⟨.queen, false, 27, -145⟩, ⟨.queen, false, 28, -144⟩, ⟨.queen, false, 29, -143⟩,
   ⟨.queen, false, 30, -142⟩, ⟨.queen, false, 31, -141⟩, ⟨.queen, false, 32, -140⟩,
   ⟨.queen, false, 33, -139⟩, ⟨.queen, false, 34, -138⟩, ⟨.queen, true, 0, -155⟩,
   ⟨.queen, true, 1, -154⟩, ⟨.queen, true, 2, -144⟩, ⟨.queen, true, 3, -139⟩,
   ⟨.queen, true, 16, -138⟩, ⟨.queen, true, 249, 132⟩, ⟨.queen, true, 247, 129⟩,
   ⟨.queen, true, 246, 128⟩]

def codeOf (b : Int8) : Nat := (b.toInt + 128).toNat

def byteOf (code : Nat) : Int8 := Int8.ofInt ((code : Int) - 128)

def exceptionsOf (piece : Piece) (enemy : Bool) : List Exception :=
  exceptions.filter fun e => e.piece == piece && e.enemy == enemy

/-- The weight that a byte stands for, given the exceptions that apply. -/
def decodeWith (l : List Exception) (b : Int8) : Int16 :=
  match l.find? (·.code == codeOf b) with
  | some e => e.weight
  | none => b.toInt16

def decode (piece : Piece) (enemy : Bool) (b : Int8) : Int16 :=
  decodeWith (exceptionsOf piece enemy) b

/-- The byte that stands for a weight, given the exceptions that apply. -/
def encodeWith? (l : List Exception) (w : Int16) : Option Int8 :=
  match l.find? (·.weight == w) with
  | some e => some (byteOf e.code)
  | none => if w.toInt8.toInt16 = w ∧ decodeWith l w.toInt8 = w then some w.toInt8 else none

def encode? (piece : Piece) (enemy : Bool) (w : Int16) : Option Int8 :=
  encodeWith? (exceptionsOf piece enemy) w

end ChessEval.WeightCode
