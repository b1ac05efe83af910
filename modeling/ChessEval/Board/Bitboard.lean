import ChessEval.Board.Square

/-! Sets of squares held in a 64-bit word, one bit a square. -/
namespace ChessEval

structure Bitboard where
  bits : UInt64
  deriving DecidableEq

/-- The word whose one bit is the square's. -/
def Square.bit (s : Square) : UInt64 := 1 <<< UInt64.ofNat s

namespace Bitboard

def empty : Bitboard := ⟨0⟩

def single (s : Square) : Bitboard := ⟨s.bit⟩

def isEmpty (b : Bitboard) : Bool := b.bits == 0

def contains (b : Bitboard) (s : Square) : Bool := b.bits &&& s.bit != 0

instance : Membership Square Bitboard := ⟨fun b s => b.contains s = true⟩

instance (s : Square) (b : Bitboard) : Decidable (s ∈ b) :=
  inferInstanceAs (Decidable (b.contains s = true))

instance : OrOp Bitboard := ⟨fun a b => ⟨a.bits ||| b.bits⟩⟩

instance : AndOp Bitboard := ⟨fun a b => ⟨a.bits &&& b.bits⟩⟩

/-- The squares of the first set that the second lacks. -/
instance : SDiff Bitboard := ⟨fun a b => ⟨a.bits &&& ~~~b.bits⟩⟩

def insert (b : Bitboard) (s : Square) : Bitboard := b ||| single s

def erase (b : Bitboard) (s : Square) : Bitboard := b \ single s

def ofList (l : List Square) : Bitboard := l.foldl insert empty

/-- The square of a word's lowest set bit. -/
def lowest (w : UInt64) : Square := Fin.ofNat 64 (w &&& -w).log2.toNat

/-- The squares of the lowest `n` set bits, each step clearing the lowest. -/
def takeLowest : Nat → UInt64 → List Square
  | 0, _ => []
  | n + 1, w => if w = 0 then [] else lowest w :: takeLowest n (w &&& (w - 1))

/-- The squares of a set in ascending order. -/
def toList (b : Bitboard) : List Square := takeLowest 64 b.bits

def first? (b : Bitboard) : Option Square :=
  if b.isEmpty then none else some (lowest b.bits)

def card (b : Bitboard) : Nat := b.toList.length

/-- The squares below a given one. -/
def below (s : Square) : Bitboard := ⟨s.bit - 1⟩

/-- The word with neighbouring fields of `k` bits exchanged, `mask` selecting the lower of each
pair. -/
def swapFields (k mask w : UInt64) : UInt64 := ((w >>> k) &&& mask) ||| ((w &&& mask) <<< k)

/-- The word with its eight bytes in reverse order. -/
def swapBytes (w : UInt64) : UInt64 :=
  swapFields 32 0x00000000FFFFFFFF
    (swapFields 16 0x0000FFFF0000FFFF (swapFields 8 0x00FF00FF00FF00FF w))

/-- The word with the eight bits of each byte in reverse order. -/
def swapBits (w : UInt64) : UInt64 :=
  swapFields 4 0x0F0F0F0F0F0F0F0F
    (swapFields 2 0x3333333333333333 (swapFields 1 0x5555555555555555 w))

/-- The set reflected so that the first and the eighth rank change places. -/
def flipVertical (b : Bitboard) : Bitboard := ⟨swapBytes b.bits⟩

/-- The set reflected so that the a-file and the h-file change places. -/
def flipHorizontal (b : Bitboard) : Bitboard := ⟨swapBits b.bits⟩

end Bitboard

end ChessEval
