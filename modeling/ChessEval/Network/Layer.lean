import ChessEval.Network.Kernel

/-! The layers behind the first one: a stack of affine layers for the big network and a head of
squared clipped numbers for the small one. -/
namespace ChessEval

/-- The unit of network outputs. -/
def outputScale : Int32 := 16

/-- Rows are filled up to a multiple of 32 columns. -/
def padded (n : Nat) : Nat := (n + 31) / 32 * 32

structure Affine (inputs outputs : Nat) where
  biases : Vector Int32 outputs
  /-- One row for each output, filled up with columns that meet no input. -/
  weights : Vector (Vector Int8 (padded inputs)) outputs
  deriving DecidableEq

namespace Affine

variable {inputs outputs : Nat}

/-- The number that stands for a layer's shape behind layers with the number `prev`. -/
def hash (outputs : Nat) (prev : UInt32) : UInt32 :=
  ((0xCC03DAE4 : UInt32) + UInt32.ofNat outputs) ^^^ (prev >>> 1) ^^^ (prev <<< 31)

def apply (l : Affine inputs outputs) (x : Vector UInt8 (padded inputs)) : Vector Int32 outputs :=
  Vector.zipWith (fun b w => b + Kernel.dot x w) l.biases l.weights

end Affine

def activationHash (prev : UInt32) : UInt32 := 0x538D24C7 + prev

/-- One of the big network's output networks. The last output of the first layer bypasses the
others. -/
structure LayerStack where
  first : Affine 512 16
  second : Affine 15 32
  third : Affine 32 1
  deriving DecidableEq

namespace LayerStack

def hash : UInt32 :=
  let input : UInt32 := 0xEC42E90D ^^^ 512
  Affine.hash 1 (activationHash (Affine.hash 32 (activationHash (Affine.hash 16 input))))

/-- The activations of fifteen outputs, followed by zeros. -/
def hidden (v : Vector Int32 16) : Vector UInt8 (padded 15) :=
  .ofFn fun i => if h : i.val < 15 then Kernel.activate v[i.val] else 0

/-- The share of the bypassing output, in units of the network's output. -/
def bypass (x : Int32) : Int32 := Kernel.saturate (x.toInt64 * 9600 / 8128)

/-- The last layer's output with the share that bypasses the hidden layers. -/
def output (first : Vector Int32 16) (third : Vector Int32 1) : Int32 :=
  Kernel.addSaturating third[0] (bypass first[15])

def apply (s : LayerStack) (x : Vector UInt8 512) : Int32 :=
  let first := s.first.apply x
  let second := s.second.apply (hidden first)
  output first (s.third.apply (Kernel.activateAll second))

end LayerStack

/-- The small network's output layer. -/
structure Head (width : Nat) where
  /-- Weights of the side to move. -/
  ours : Vector Int16 width
  theirs : Vector Int16 width
  bias : Int16
  deriving DecidableEq

namespace Head

variable {width : Nat}

/-- Upper bound of the numbers that enter the head. -/
def clip : Int16 := 101

def weightScale : Int64 := 160

def scale : Int64 := 340

def hash (width : Nat) : UInt32 := 0x3C103E72 ^^^ UInt32.ofNat (2 * width)

/-- A weighted sum brought to units of the network's output. -/
def rescale (h : Head width) (sum : Int32) : Int32 :=
  let unsquared := sum.toInt64 / clip.toInt64 + h.bias.toInt64
  (unsquared * scale / (clip.toInt64 * weightScale) * outputScale.toInt64).toInt32

def apply (h : Head width) (us them : Vector Int16 width) : Int32 :=
  h.rescale (Kernel.screluDot clip us h.ours + Kernel.screluDot clip them h.theirs)

/-- A clipped number squared. -/
def square (a : Int16) : Int32 :=
  let c := (Kernel.clamp 0 clip a).toInt32
  c * c

/-- A square weighted at full width. -/
def weighted (s : Int32) (w : Int16) : Int32 := s * w.toInt32

/-- The head in two passes: all squares, then their weighted sum in one chain over both halves. -/
def applyInTwoPasses (h : Head width) (us them : Vector Int16 width) : Int32 :=
  let squares := (us ++ them).map square
  h.rescale ((Vector.zipWith weighted squares (h.ours ++ h.theirs)).foldl (· + ·) 0)

end Head

end ChessEval
