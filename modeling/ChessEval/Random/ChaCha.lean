/-! The ChaCha stream with twelve rounds, as a source of pseudo-random words. -/
namespace ChessEval.Random

/-- The sixteen words of a block. -/
structure Block where
  x0 : UInt32
  x1 : UInt32
  x2 : UInt32
  x3 : UInt32
  x4 : UInt32
  x5 : UInt32
  x6 : UInt32
  x7 : UInt32
  x8 : UInt32
  x9 : UInt32
  x10 : UInt32
  x11 : UInt32
  x12 : UInt32
  x13 : UInt32
  x14 : UInt32
  x15 : UInt32

@[inline] def rotate (w k : UInt32) : UInt32 := (w <<< k) ||| (w >>> (32 - k))

@[inline] def quarterRound (a b c d : UInt32) : UInt32 × UInt32 × UInt32 × UInt32 :=
  let a := a + b
  let d := rotate (d ^^^ a) 16
  let c := c + d
  let b := rotate (b ^^^ c) 12
  let a := a + b
  let d := rotate (d ^^^ a) 8
  let c := c + d
  let b := rotate (b ^^^ c) 7
  (a, b, c, d)

namespace Block

/-- A round on the columns, then one on the diagonals. -/
def doubleRound (s : Block) : Block :=
  let (x0, x4, x8, x12) := quarterRound s.x0 s.x4 s.x8 s.x12
  let (x1, x5, x9, x13) := quarterRound s.x1 s.x5 s.x9 s.x13
  let (x2, x6, x10, x14) := quarterRound s.x2 s.x6 s.x10 s.x14
  let (x3, x7, x11, x15) := quarterRound s.x3 s.x7 s.x11 s.x15
  let (x0, x5, x10, x15) := quarterRound x0 x5 x10 x15
  let (x1, x6, x11, x12) := quarterRound x1 x6 x11 x12
  let (x2, x7, x8, x13) := quarterRound x2 x7 x8 x13
  let (x3, x4, x9, x14) := quarterRound x3 x4 x9 x14
  ⟨x0, x1, x2, x3, x4, x5, x6, x7, x8, x9, x10, x11, x12, x13, x14, x15⟩

def rounds : Nat → Block → Block
  | 0, s => s
  | n + 1, s => rounds n s.doubleRound

/-- The words of a block after mixing, each added to the word it came from. -/
def output (s : Block) : List UInt32 :=
  let t := rounds 6 s
  [s.x0 + t.x0, s.x1 + t.x1, s.x2 + t.x2, s.x3 + t.x3,
   s.x4 + t.x4, s.x5 + t.x5, s.x6 + t.x6, s.x7 + t.x7,
   s.x8 + t.x8, s.x9 + t.x9, s.x10 + t.x10, s.x11 + t.x11,
   s.x12 + t.x12, s.x13 + t.x13, s.x14 + t.x14, s.x15 + t.x15]

end Block

/-- A stream of words: the key, the number of the next block and the words not yet drawn. -/
structure Stream where
  key : Block
  counter : UInt64
  pending : List UInt32

/-- One step of the generator that spreads a 64-bit seed over a key. -/
def spread (state : UInt64) : UInt64 × UInt32 :=
  let state := state * 6364136223846793005 + 11634580027462260723
  let w := (((state >>> 18) ^^^ state) >>> 27).toUInt32
  let k := (state >>> 59).toUInt32
  (state, (w >>> k) ||| (w <<< ((32 - k) &&& 31)))

namespace Stream

/-- The stream of a seed. -/
def ofSeed (seed : UInt64) : Stream :=
  let (s, k0) := spread seed
  let (s, k1) := spread s
  let (s, k2) := spread s
  let (s, k3) := spread s
  let (s, k4) := spread s
  let (s, k5) := spread s
  let (s, k6) := spread s
  let (_, k7) := spread s
  ⟨⟨0x61707865, 0x3320646E, 0x79622D32, 0x6B206574,
    k0, k1, k2, k3, k4, k5, k6, k7, 0, 0, 0, 0⟩, 0, []⟩

def nextBlock (s : Stream) : List UInt32 :=
  Block.output { s.key with x12 := s.counter.toUInt32, x13 := (s.counter >>> 32).toUInt32 }

def word (s : Stream) : UInt32 × Stream :=
  match s.pending with
  | w :: ws => (w, { s with pending := ws })
  | [] =>
    match s.nextBlock with
    | w :: ws => (w, { s with counter := s.counter + 1, pending := ws })
    | [] => (0, s)

/-- Two words, the low half first. -/
def longWord (s : Stream) : UInt64 × Stream :=
  let (lo, s) := s.word
  let (hi, s) := s.word
  (lo.toUInt64 ||| (hi.toUInt64 <<< 32), s)

/-- The first accepted try of `fuel` tries: a word times the width, its high half the value and its
low half at most `zone`. Zero if no try is accepted: a draw in itself tries on without end, and the
number of tries is bounded here alone, so that the recursion ends. -/
def drawBelow (width : UInt64) (zone : UInt32) : Nat → Stream → UInt32 × Stream
  | 0, s => (0, s)
  | fuel + 1, s =>
    let (w, s) := s.word
    let m := w.toUInt64 * width
    if m.toUInt32 ≤ zone then ((m >>> 32).toUInt32, s) else drawBelow width zone fuel s

/-- The tries after which a draw gives up, a bound of this library that the stream itself does not
have; each try succeeds with probability above one half. -/
def tries : Nat := 256

/-- A number below `width` for ranges of 8-bit and 16-bit numbers. -/
def belowNarrow (width : UInt32) (s : Stream) : UInt32 × Stream :=
  let excess := UInt32.ofNat ((4294967296 - width.toNat) % width.toNat)
  drawBelow width.toUInt64 (0xFFFFFFFF - excess) tries s

/-- A number below `width` for ranges of 32-bit numbers. -/
def belowWide (width : UInt32) (s : Stream) : UInt32 × Stream :=
  drawBelow width.toUInt64 ((width <<< (31 - width.log2)) - 1) tries s

def int8 (lo hi : Int8) (s : Stream) : Int8 × Stream :=
  let (v, s) := s.belowNarrow (UInt32.ofNat (hi.toInt - lo.toInt + 1).toNat)
  (lo + v.toUInt8.toInt8, s)

def int16 (lo hi : Int16) (s : Stream) : Int16 × Stream :=
  let (v, s) := s.belowNarrow (UInt32.ofNat (hi.toInt - lo.toInt + 1).toNat)
  (lo + v.toUInt16.toInt16, s)

def int32 (lo hi : Int32) (s : Stream) : Int32 × Stream :=
  let (v, s) := s.belowWide (UInt32.ofNat (hi.toInt - lo.toInt + 1).toNat)
  (lo + v.toInt32, s)

/-- A binary32 number from minus one up to but not including one. -/
def unit (s : Stream) : Float32 × Stream :=
  let (w, s) := s.word
  let x := Float32.ofBits ((w >>> 9) ||| 0x3F800000) - 1.0
  (x * 2.0 - 1.0, s)

/-- `n` draws, collected from the first to the last. -/
def draws {α : Type} (draw : Stream → α × Stream) : Nat → Array α → Stream → Array α × Stream
  | 0, acc, s => (acc, s)
  | n + 1, acc, s =>
    let (a, s) := draw s
    draws draw n (acc.push a) s

theorem size_draws {α : Type} (draw : Stream → α × Stream) (n : Nat) (acc : Array α) (s : Stream) :
    (draws draw n acc s).1.size = acc.size + n := by
  induction n generalizing acc s with
  | zero => rfl
  | succ n ih =>
    simp only [draws, ih, Array.size_push]
    omega

def vector {α : Type} (draw : Stream → α × Stream) (n : Nat) (s : Stream) : Vector α n × Stream :=
  let r := draws draw n #[] s
  (⟨r.1, by simpa using size_draws draw n #[] s⟩, r.2)

end Stream

end ChessEval.Random
