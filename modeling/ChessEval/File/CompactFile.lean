import ChessEval.File.NetworkFile
import ChessEval.Network.WeightCode

/-! The small network's two formats with weights of one byte. -/
namespace ChessEval

open File

/-- Codes of the first layer's weights by kind of piece, side (the perspective's own first), sum and
square. -/
abbrev WeightCodes := Vector (Vector (Vector (Vector Int8 64) 64) 2) 6

namespace WeightCodes

/-- The kind of piece, the side and the square of a feature. -/
def split (i : Fin 768) : Fin 6 × Fin 2 × Fin 64 :=
  (⟨i % 384 / 64, by omega⟩, ⟨i / 384, by omega⟩, ⟨i % 64, by omega⟩)

/-- The feature of a kind of piece, a side and a square. -/
def feature (k : Fin 6) (side : Fin 2) (s : Fin 64) : Fin 768 :=
  ⟨384 * side + 64 * k + s, by omega⟩

def pieceOf (k : Fin 6) : Piece :=
  match k with
  | 0 => .pawn
  | 1 => .knight
  | 2 => .bishop
  | 3 => .rook
  | 4 => .queen
  | 5 => .king

def exceptions (k : Fin 6) (side : Fin 2) : List WeightCode.Exception :=
  WeightCode.exceptionsOf (pieceOf k) (side == 1)

def layout : Layout WeightCodes := (((Layout.int8.vector 64).vector 64).vector 2).vector 6

/-- The weights that codes stand for, feature by feature. -/
def decode (c : WeightCodes) : Vector (Vector Int16 64) 768 :=
  .ofFn fun i =>
    let (k, side, s) := split i
    let l := exceptions k side
    .ofFn fun n => WeightCode.decodeWith l (((c.get k).get side).get n |>.get s)

/-- The codes of weights, zero for a weight that has none. -/
def encode (w : Vector (Vector Int16 64) 768) : WeightCodes :=
  .ofFn fun k => .ofFn fun side =>
    let l := exceptions k side
    .ofFn fun n => .ofFn fun s =>
      (WeightCode.encodeWith? l ((w.get (feature k side s)).get n)).getD 0

/-- The first weight without a code, in the order of the codes. -/
def uncoded? (w : Vector (Vector Int16 64) 768) : Option Int16 :=
  (List.finRange 6).findSome? fun k => (List.finRange 2).findSome? fun side =>
    let l := exceptions k side
    (List.finRange 64).findSome? fun n => (List.finRange 64).findSome? fun s =>
      let v := (w.get (feature k side s)).get n
      if (WeightCode.encodeWith? l v).isNone then some v else none

end WeightCodes

/-- Why a network cannot be written with weights of one byte. -/
inductive WriteError where
  | weight (value : Int16)
  | bias (value : Int16)
  /-- The format has no room for piece-square sums. -/
  | psqt
  deriving DecidableEq

namespace WriteError

def message : WriteError → String
  | weight v => s!"bad dimensions: weight {v} has no compact encoding"
  | bias v => s!"bad dimensions: bias {v} has no compact encoding"
  | psqt => "bad dimensions: headerless small network cannot store PSQT weights"

end WriteError

namespace SmallNetwork

/-- The number at the start of a compact file. -/
def compactVersion : UInt32 := 0x7AF32F21

/-- The size of a headerless file: codes of weights, biases of one byte and the head. -/
def headerlessSize : Nat := 49152 + 64 + 256 + 2

/-- The weights and biases of the two formats: codes, then biases of one byte. -/
def coreLayout : Layout (WeightCodes × Vector Int8 64) :=
  WeightCodes.layout.pair (Layout.int8.vector 64)

def ofCore (core : WeightCodes × Vector Int8 64) (psqt : Vector (Vector Int32 1) 768)
    (head : Head 64) : SmallNetwork :=
  ⟨"", ⟨core.2.map Int8.toInt16, core.1.decode, psqt⟩, head⟩

/-- Reads what follows the version of a compact file. -/
def compactReader : Reader SmallNetwork := do
  Reader.checkHash .file fileHash
  let core ← Reader.take coreLayout
  let psqt ← Reader.take ((Layout.int32.vector 1).vector 768)
  let head ← Reader.take (Layout.head 64)
  Reader.finish
  return ofCore core psqt head

/-- Reads a headerless file. -/
def headerlessReader : Reader SmallNetwork := do
  let core ← Reader.take coreLayout
  let head ← Reader.take (Layout.head 64)
  Reader.finish
  return ofCore core (.replicate 768 (.replicate 1 0)) head

/-- The network that a file in any of the three formats holds. A file that starts with neither
version is headerless, and must have exactly that format's size. -/
def read (b : ByteArray) : Except ReadError SmallNetwork :=
  match Reader.take .uint32 ⟨b, 0⟩ with
  | .error e => .error e
  | .ok (found, rest) =>
    if found = File.version then (fullReader rest).map Prod.fst
    else if found = compactVersion then (compactReader rest).map Prod.fst
    else if b.size = headerlessSize then headerlessReader.run b
    else .error (.badVersion found File.version)

/-- The weights and biases in bytes, where all of them fit. -/
def core (n : SmallNetwork) : Except WriteError (WeightCodes × Vector Int8 64) :=
  match WeightCodes.uncoded? n.transformer.weights with
  | some v => .error (.weight v)
  | none =>
    match n.transformer.biases.toList.find? fun v => v.toInt8.toInt16 ≠ v with
    | some v => .error (.bias v)
    | none => .ok (.encode n.transformer.weights, n.transformer.biases.map Int16.toInt8)

/-- The compact file that holds a network's numbers. -/
def writeCompact (n : SmallNetwork) : Except WriteError ByteArray := do
  let core ← n.core
  let b := Layout.uint32.put (Layout.uint32.put .empty compactVersion) fileHash
  let b := ((Layout.int32.vector 1).vector 768).put (coreLayout.put b core) n.transformer.psqt
  return (Layout.head 64).put b n.head

/-- The headerless file that holds a network's numbers. -/
def writeHeaderless (n : SmallNetwork) : Except WriteError ByteArray := do
  if n.transformer.psqt.all fun row => row.all (· == 0) then
    let core ← n.core
    return (Layout.head 64).put (coreLayout.put .empty core) n.head
  else throw .psqt

end SmallNetwork

end ChessEval
