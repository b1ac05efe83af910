import ChessEval.File.Layout
import ChessEval.Text.Decimal

/-! Reading a byte string from its start to its end, and what can be wrong with it. -/
namespace ChessEval.File

/-- The part of a file that opens with the number of its shape. -/
inductive Part where
  | file
  | transformer
  | stack
  | head
  deriving DecidableEq

namespace Part

def name : Part → String
  | file => "file"
  | transformer => "feature transformer"
  | stack => "layer stack"
  | head => "output head"

end Part

inductive ReadError where
  /-- The bytes end too early. -/
  | truncated
  /-- Bytes are left over. -/
  | trailing
  | badVersion (found expected : UInt32)
  | hashMismatch (part : Part) (found expected : UInt32)
  | badMagic (found : Vector UInt8 4)
  | descriptionTooLong (bytes : UInt32)
  | classifierShape (inputs h1 h2 : UInt32)
  deriving DecidableEq

namespace ReadError

def message : ReadError → String
  | truncated => "I/O error: failed to fill whole buffer"
  | trailing => "I/O error: trailing bytes after network parameters"
  | badVersion f e =>
    s!"unsupported network version 0x{Text.hexText f}, expected 0x{Text.hexText e}"
  | hashMismatch p f e =>
    s!"network hash mismatch in {p.name}: found 0x{Text.hexText f}, expected 0x{Text.hexText e}"
  | badMagic f => s!"bad classifier magic [{f[0]}, {f[1]}, {f[2]}, {f[3]}]"
  | descriptionTooLong n => s!"bad dimensions: description of {n} bytes"
  | classifierShape i a b => s!"bad dimensions: classifier {i} -> {a} -> {b} -> 1"

end ReadError

/-- A byte string and the place up to which it has been read. -/
structure Cursor where
  bytes : ByteArray
  place : Nat

abbrev Reader := StateT Cursor (Except ReadError)

namespace Reader

def fail {α : Type} (e : ReadError) : Reader α := fun _ => .error e

/-- Reads a value of fixed size. -/
def take {α : Type} (l : Layout α) : Reader α := fun c =>
  if c.place + l.size ≤ c.bytes.size then
    .ok (l.get c.bytes c.place, ⟨c.bytes, c.place + l.size⟩)
  else .error .truncated

/-- Reads `n` bytes. -/
def takeBytes (n : Nat) : Reader ByteArray := fun c =>
  if c.place + n ≤ c.bytes.size then
    .ok (c.bytes.extract c.place (c.place + n), ⟨c.bytes, c.place + n⟩)
  else .error .truncated

/-- Fails if bytes are left. -/
def finish : Reader Unit := fun c =>
  if c.place < c.bytes.size then .error .trailing else .ok ((), c)

/-- Reads the number of a part's shape and fails if it is another one. -/
def checkHash (part : Part) (expected : UInt32) : Reader Unit := do
  let found ← take .uint32
  if found = expected then return () else fail (.hashMismatch part found expected)

/-- Runs a reader on a byte string from its start. -/
def run {α : Type} (r : Reader α) (b : ByteArray) : Except ReadError α :=
  (r ⟨b, 0⟩).map Prod.fst

end Reader

end ChessEval.File
