import ChessEval.Network.Kernel

/-! The arithmetic of `Kernel` in registers of 256 bits, whose lanes an instruction handles at once. A
vector is a row of registers, worked through from the first to the last. -/
namespace ChessEval.Lanes

variable {α : Type} {n w : Nat}

theorem place_lt (i : Fin n) (k : Fin w) : i * w + k < n * w := by
  have := Nat.mul_le_mul_right w (Nat.succ_le_of_lt i.isLt)
  rw [Nat.succ_mul] at this
  omega

theorem register_lt (j : Fin (n * w)) : j / w < n :=
  Nat.div_lt_of_lt_mul (Nat.mul_comm n w ▸ j.isLt)

theorem lane_lt (j : Fin (n * w)) : j % w < w :=
  Nat.mod_lt _ (Nat.pos_of_ne_zero fun h => by
    have := j.isLt
    simp [h] at this)

/-- The `i`th register of a vector. -/
def load (v : Vector α (n * w)) (i : Fin n) : Vector α w :=
  .ofFn fun k => v.get ⟨i * w + k, place_lt i k⟩

/-- Registers laid end to end. -/
def store (f : Fin n → Vector α w) : Vector α (n * w) :=
  .ofFn fun j => (f ⟨j / w, register_lt j⟩).get ⟨j % w, lane_lt j⟩

/-- The lanes in even places. -/
def evens (v : Vector α (n * 2)) : Vector α n := .ofFn fun k => (load v k).get ⟨0, Nat.two_pos⟩

/-- The lanes in odd places. -/
def odds (v : Vector α (n * 2)) : Vector α n := .ofFn fun k => (load v k).get ⟨1, Nat.one_lt_two⟩

def lower (v : Vector α (2 * w)) : Vector α w := load v ⟨0, Nat.two_pos⟩

def upper (v : Vector α (2 * w)) : Vector α w := load v ⟨1, Nat.one_lt_two⟩

def add16 (a b : Vector Int16 w) : Vector Int16 w := Vector.zipWith (· + ·) a b

def sub16 (a b : Vector Int16 w) : Vector Int16 w := Vector.zipWith (· - ·) a b

/-- The low 16 bits of the products. -/
def mul16 (a b : Vector Int16 w) : Vector Int16 w := Vector.zipWith (· * ·) a b

def add32 (a b : Vector Int32 w) : Vector Int32 w := Vector.zipWith (· + ·) a b

/-- No lane below zero, none above `hi`. -/
def bound (hi : Int16) (v : Vector Int16 w) : Vector Int16 w :=
  (v.map fun a => if a < 0 then 0 else a).map fun a => if hi < a then hi else a

def widen (v : Vector Int16 w) : Vector Int32 w := v.map Int16.toInt32

def mul32 (a b : Vector Int32 w) : Vector Int32 w := Vector.zipWith (· * ·) a b

/-- Products of 16 bits each, added in neighbouring pairs. -/
def mulPairs (a b : Vector Int16 (n * 2)) : Vector Int32 n :=
  let p := mul32 (widen a) (widen b)
  add32 (evens p) (odds p)

/-- The nearest number of 16 bits. -/
def saturate16 (v : Int32) : Int16 :=
  if v < -32768 then -32768 else if 32767 < v then 32767 else v.toInt16

/-- Products of bytes, added in neighbouring pairs that stop at the ends of 16 bits. -/
def mulBytePairs (x : Vector UInt8 (n * 2)) (y : Vector Int8 (n * 2)) : Vector Int16 n :=
  let p := mul32 (x.map fun b => b.toUInt32.toInt32) (y.map Int8.toInt32)
  (add32 (evens p) (odds p)).map saturate16

/-- The upper half of the lanes added to the lower one. -/
def foldHalves (v : Vector Int32 (2 * w)) : Vector Int32 w := add32 (lower v) (upper v)

/-- The sum of eight lanes. -/
def total (v : Vector Int32 8) : Int32 :=
  let four : Vector Int32 4 := foldHalves v
  let two : Vector Int32 2 := foldHalves four
  let one : Vector Int32 1 := foldHalves two
  one.get ⟨0, Nat.one_pos⟩

/-- The sum over all registers of what `f` gives for each. -/
def sumOver (f : Fin n → Vector Int32 8) : Int32 :=
  total (Fin.foldl n (fun sum i => add32 sum (f i)) (.replicate 8 0))

/-- The nearest number of eight bits without a sign. -/
def saturateByte (a : Int16) : UInt8 :=
  if a < 0 then 0 else if 255 < a then 255 else a.toUInt16.toUInt8

theorem half_lt (q : Fin 4) : q.val / 2 < 2 := by omega

theorem swap_lt (q : Fin 4) : q.val % 2 * 2 + q.val / 2 < 4 := by omega

/-- Two registers of words as one of bytes, taken by quarters from one and the other in turn. -/
def pack (a b : Vector Int16 16) : Vector UInt8 32 :=
  let quarter (q : Fin 4) : Vector Int16 8 :=
    load (n := 2) (if q.val % 2 = 0 then a else b) ⟨q / 2, half_lt q⟩
  store (n := 4) fun q => (quarter q).map saturateByte

/-- The quarters of a register with the two in the middle exchanged. -/
def swapMiddle (v : Vector UInt8 32) : Vector UInt8 32 :=
  store (n := 4) fun q => load (n := 4) (w := 8) v ⟨q % 2 * 2 + q / 2, swap_lt q⟩

/-- The activation of eight lanes. -/
def activateLanes (x : Vector Int32 8) : Vector Int32 8 :=
  let size := (x.map fun (a : Int32) => a >>> 2).map Int32.abs
  let v := (size.map fun a => if Kernel.activationKnee < a then Kernel.activationKnee else a).map
    (· - Kernel.activationKnee)
  let vv := (mul32 v v).map fun (a : Int32) => a >>> 16
  Vector.zipWith (fun a b => if 0 < a then Kernel.activationMax - b else b) x vv

def add (a b : Vector Int16 (n * 16)) : Vector Int16 (n * 16) :=
  store fun i => add16 (load a i) (load b i)

def sub (a b : Vector Int16 (n * 16)) : Vector Int16 (n * 16) :=
  store fun i => sub16 (load a i) (load b i)

/-- The weighted sum of squared clipped numbers. -/
def screluDot (clip : Int16) (a b : Vector Int16 (n * 16)) : Int32 :=
  sumOver fun i =>
    let c := bound clip (load a i)
    mulPairs (n := 8) (mul16 c (load b i)) c

def dot (x : Vector UInt8 (n * 32)) (y : Vector Int8 (n * 32)) : Int32 :=
  sumOver fun i =>
    mulPairs (n := 8) (mulBytePairs (n := 16) (load x i) (load y i)) (.replicate 16 1)

def clampToBytes (v : Vector Int16 (n * 32)) : Vector UInt8 (n * 32) :=
  store fun i =>
    let r : Vector Int16 (2 * 16) := load v i
    swapMiddle (pack (bound Kernel.transformClip (lower r)) (bound Kernel.transformClip (upper r)))

def activateAll (v : Vector Int32 (n * 8)) : Vector UInt8 (n * 8) :=
  store fun i => (activateLanes (load v i)).map fun a => a.toUInt32.toUInt8

end ChessEval.Lanes
