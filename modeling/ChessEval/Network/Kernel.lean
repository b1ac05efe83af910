/-! Fixed-point arithmetic on vectors of small integers. Sums and products wrap at their width. -/
namespace ChessEval.Kernel

variable {n : Nat}

def clamp (lo hi a : Int16) : Int16 := if a < lo then lo else if hi < a then hi else a

/-- Upper bound of the numbers that enter the affine layers. -/
def transformClip : Int16 := 127

def clampToByte (a : Int16) : UInt8 := (clamp 0 transformClip a).toUInt16.toUInt8

def clampToBytes (v : Vector Int16 n) : Vector UInt8 n := v.map clampToByte

def add (a b : Vector Int16 n) : Vector Int16 n := Vector.zipWith (· + ·) a b

def sub (a b : Vector Int16 n) : Vector Int16 n := Vector.zipWith (· - ·) a b

/-- A clipped number times its weight, kept in 16 bits, times the clipped number again. -/
def screluTerm (clip a w : Int16) : Int32 :=
  let c := clamp 0 clip a
  (c * w).toInt32 * c.toInt32

/-- The weighted sum of squared clipped numbers. -/
def screluDot (clip : Int16) (a w : Vector Int16 n) : Int32 :=
  (Vector.zipWith (screluTerm clip) a w).sum

def dotTerm (x : UInt8) (w : Int8) : Int32 := x.toUInt32.toInt32 * w.toInt32

def dot (x : Vector UInt8 n) (w : Vector Int8 n) : Int32 := (Vector.zipWith dotTerm x w).sum

/-- The largest activation. -/
def activationMax : Int32 := 126

/-- Where the activation saturates, after the input's two low bits are dropped. -/
def activationKnee : Int32 := 2032

/-- The activation between affine layers: two parabolas that meet at zero. -/
def activate (x : Int32) : UInt8 :=
  let size := (x >>> 2).abs
  let v := (if activationKnee < size then activationKnee else size) - activationKnee
  let vv := (v * v) >>> 16
  (if 0 < x then activationMax - vv else vv).toUInt32.toUInt8

def activateAll (v : Vector Int32 n) : Vector UInt8 n := v.map activate

/-- The nearest number of 32 bits. -/
def saturate (v : Int64) : Int32 :=
  if v < -2147483648 then -2147483648 else if 2147483647 < v then 2147483647 else v.toInt32

/-- A sum that stops at the ends of its range. -/
def addSaturating (a b : Int32) : Int32 := saturate (a.toInt64 + b.toInt64)

/-- A quotient rounded toward zero. No result for a zero divisor or one beyond the range. -/
def quotient? (a b : Int64) : Option Int64 :=
  if b = 0 ∨ (a = Int64.minValue ∧ b = -1) then none else some (a / b)

end ChessEval.Kernel
