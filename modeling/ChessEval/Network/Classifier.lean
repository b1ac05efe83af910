import ChessEval.Network.Single
import ChessEval.Random.ChaCha

/-! A small network in binary32 arithmetic that tells how likely a second opinion is worth its
cost. -/
namespace ChessEval

/-- Inputs, two hidden layers of `h1` and `h2` numbers, one output. -/
structure Classifier where
  h1 : Nat
  h2 : Nat
  w1 : Vector (Vector Single 10) h1
  b1 : Vector Single h1
  w2 : Vector (Vector Single h1) h2
  b2 : Vector Single h2
  w3 : Vector Single h2
  b3 : Single
  deriving DecidableEq

namespace Classifier

variable {n m : Nat}

/-- The weighted sum, its terms added from the first to the last. -/
def weigh (w : Vector Single n) (x : Vector Float32 n) : Float32 :=
  (Vector.zipWith (fun a b => a.value * b) w x).foldl (· + ·) 0

/-- Zero in place of a number that is negative or no number. -/
def rectify (x : Float32) : Float32 := if 0 < x then x else 0

def dense (w : Vector (Vector Single n) m) (b : Vector Single m) (x : Vector Float32 n) :
    Vector Float32 m :=
  Vector.zipWith (fun row b => rectify (weigh row x + b.value)) w b

def logistic (x : Float32) : Float32 := 1 / (1 + (-x).exp)

/-- The probability that the big network should be asked. No result without a first hidden
layer. -/
def probability? (c : Classifier) (x : Vector Float32 10) : Option Float32 :=
  if c.h1 = 0 then none
  else
    let hidden := dense c.w2 c.b2 (dense c.w1 c.b1 x)
    some (logistic (weigh c.w3 hidden + c.b3.value))

/-- A classifier whose answer is `p` for every input. -/
def constant (p : Single) : Classifier :=
  let x := p.value
  let nan := if x.isNaN then p.bits ||| 0x00400000 else Single.invalid
  { h1 := 1
    h2 := 1
    w1 := .replicate 1 (.replicate 10 .zero)
    b1 := .replicate 1 .zero
    w2 := .replicate 1 (.replicate 1 .zero)
    b2 := .replicate 1 .zero
    w3 := .replicate 1 .zero
    b3 := .ofResult nan (x / (1 - x)).log }

def drawSingle (s : Random.Stream) : Single × Random.Stream :=
  let (x, s) := s.unit
  (.ofValue x, s)

/-- The classifier drawn from a seed. -/
def synthetic (seed : UInt64) (h1 h2 : Nat) : Classifier :=
  let s := Random.Stream.ofSeed seed
  let (w1, s) := s.vector (·.vector drawSingle 10) h1
  let (b1, s) := s.vector drawSingle h1
  let (w2, s) := s.vector (·.vector drawSingle h1) h2
  let (b2, s) := s.vector drawSingle h2
  let (w3, s) := s.vector drawSingle h2
  let (b3, _) := drawSingle s
  ⟨h1, h2, w1, b1, w2, b2, w3, b3⟩

end Classifier

end ChessEval
