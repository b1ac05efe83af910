import ChessEval.Network.Single

/-! Values of fixed size in byte strings, the low byte of a number first. -/
namespace ChessEval.File

/-- The byte at a place, zero beyond the end. -/
def byteAt (b : ByteArray) (i : Nat) : UInt8 := if h : i < b.size then b[i] else 0

/-- How a value is written in `size` bytes: `get` reads it from a place on, `put` appends it. -/
structure Layout (α : Type) where
  size : Nat
  get : ByteArray → Nat → α
  put : ByteArray → α → ByteArray

namespace Layout

variable {α β : Type}

def uint16At (b : ByteArray) (i : Nat) : UInt16 :=
  (byteAt b i).toUInt16 ||| ((byteAt b (i + 1)).toUInt16 <<< 8)

def uint32At (b : ByteArray) (i : Nat) : UInt32 :=
  (byteAt b i).toUInt32 ||| ((byteAt b (i + 1)).toUInt32 <<< 8) |||
  ((byteAt b (i + 2)).toUInt32 <<< 16) ||| ((byteAt b (i + 3)).toUInt32 <<< 24)

def putUInt16 (b : ByteArray) (w : UInt16) : ByteArray :=
  (b.push w.toUInt8).push (w >>> 8).toUInt8

def putUInt32 (b : ByteArray) (w : UInt32) : ByteArray :=
  (((b.push w.toUInt8).push (w >>> 8).toUInt8).push (w >>> 16).toUInt8).push (w >>> 24).toUInt8

def uint8 : Layout UInt8 := ⟨1, byteAt, ByteArray.push⟩

def uint32 : Layout UInt32 := ⟨4, uint32At, putUInt32⟩

def int8 : Layout Int8 := ⟨1, fun b i => (byteAt b i).toInt8, fun b v => b.push v.toUInt8⟩

def int16 : Layout Int16 :=
  ⟨2, fun b i => (uint16At b i).toInt16, fun b v => putUInt16 b v.toUInt16⟩

def int32 : Layout Int32 :=
  ⟨4, fun b i => (uint32At b i).toInt32, fun b v => putUInt32 b v.toUInt32⟩

def single : Layout Single := ⟨4, fun b i => ⟨uint32At b i⟩, fun b v => putUInt32 b v.bits⟩

/-- One value after the other. -/
def vector (n : Nat) (l : Layout α) : Layout (Vector α n) :=
  ⟨n * l.size, fun b i => .ofFn fun k => l.get b (i + k * l.size), fun b v => v.foldl l.put b⟩

/-- Two values, the first before the second. -/
def pair (l : Layout α) (m : Layout β) : Layout (α × β) :=
  ⟨l.size + m.size, fun b i => (l.get b i, m.get b (i + l.size)), fun b v => m.put (l.put b v.1) v.2⟩

/-- A value written as another one. -/
def through (l : Layout α) (forth : α → β) (back : β → α) : Layout β :=
  ⟨l.size, fun b i => forth (l.get b i), fun b v => l.put b (back v)⟩

/-- The bytes of a value. -/
def bytes (l : Layout α) (v : α) : ByteArray := l.put .empty v

end Layout

end ChessEval.File
