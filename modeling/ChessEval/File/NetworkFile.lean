import ChessEval.File.Reader
import ChessEval.Network.Networks
import ChessEval.Text.Utf8

/-! The full file formats of both networks. -/
namespace ChessEval

open File

namespace File.Layout

variable {F : FeatureSet} {width buckets inputs outputs : Nat}

def transformer (F : FeatureSet) (width buckets : Nat) : Layout (Transformer F width buckets) :=
  ((Layout.int16.vector width).pair
    (((Layout.int16.vector width).vector F.inputs).pair
      ((Layout.int32.vector buckets).vector F.inputs))).through
    (fun (biases, weights, psqt) => ⟨biases, weights, psqt⟩)
    (fun t => (t.biases, t.weights, t.psqt))

def affine (inputs outputs : Nat) : Layout (Affine inputs outputs) :=
  ((Layout.int32.vector outputs).pair ((Layout.int8.vector (padded inputs)).vector outputs)).through
    (fun (biases, weights) => ⟨biases, weights⟩)
    (fun l => (l.biases, l.weights))

def stack : Layout LayerStack :=
  ((affine 512 16).pair ((affine 15 32).pair (affine 32 1))).through
    (fun (first, second, third) => ⟨first, second, third⟩)
    (fun s => (s.first, s.second, s.third))

def head (width : Nat) : Layout (Head width) :=
  ((Layout.int16.vector width).pair ((Layout.int16.vector width).pair Layout.int16)).through
    (fun (ours, theirs, bias) => ⟨ours, theirs, bias⟩)
    (fun h => (h.ours, h.theirs, h.bias))

end File.Layout

namespace File

/-- The number at the start of a file in the full format. -/
def version : UInt32 := 0x7AF32F20

/-- The longest description of a file, in bytes. -/
def maxDescription : UInt32 := 1048576

/-- Reads what follows the version of a full file, up to its first part, and gives the
description. -/
def readHeader (hash : UInt32) : Reader String := do
  Reader.checkHash .file hash
  let size ← Reader.take .uint32
  if maxDescription < size then Reader.fail (.descriptionTooLong size)
  else return Text.ofBytes (← Reader.takeBytes size.toNat)

def header (hash : UInt32) (description : String) : ByteArray :=
  let text := description.toUTF8
  let b := Layout.uint32.put (Layout.uint32.put .empty version) hash
  Layout.uint32.put b (UInt32.ofNat text.size) ++ text

end File

namespace BigNetwork

def transformerHash : UInt32 := Transformer.hash .withThreats 256

def fileHash : UInt32 := transformerHash ^^^ LayerStack.hash

/-- Reads `n` output networks, each behind the number of its shape. -/
def readStacks : (n : Nat) → Reader (Vector LayerStack n)
  | 0 => return .emptyWithCapacity 0
  | n + 1 => do
    let layerStacks ← readStacks n
    Reader.checkHash .stack LayerStack.hash
    return layerStacks.push (← Reader.take Layout.stack)

def reader : Reader BigNetwork := do
  let found ← Reader.take .uint32
  if found = File.version then do
    let description ← File.readHeader fileHash
    Reader.checkHash .transformer transformerHash
    let transformer ← Reader.take (Layout.transformer .withThreats 256 8)
    let layerStacks ← readStacks 8
    Reader.finish
    return ⟨description, transformer, layerStacks⟩
  else Reader.fail (.badVersion found File.version)

/-- The network that a file holds. -/
def read (b : ByteArray) : Except ReadError BigNetwork := reader.run b

def putStack (b : ByteArray) (s : LayerStack) : ByteArray :=
  Layout.stack.put (Layout.uint32.put b LayerStack.hash) s

/-- The file that holds a network. -/
def write (n : BigNetwork) : ByteArray :=
  let b := Layout.uint32.put (File.header fileHash n.description) transformerHash
  n.layerStacks.foldl putStack ((Layout.transformer .withThreats 256 8).put b n.transformer)

end BigNetwork

namespace SmallNetwork

def transformerHash : UInt32 := Transformer.hash .pieceSquare 64

def fileHash : UInt32 := transformerHash ^^^ Head.hash 64

/-- Reads what follows the version of a full file. -/
def fullReader : Reader SmallNetwork := do
  let description ← File.readHeader fileHash
  Reader.checkHash .transformer transformerHash
  let transformer ← Reader.take (Layout.transformer .pieceSquare 64 1)
  Reader.checkHash .head (Head.hash 64)
  let head ← Reader.take (Layout.head 64)
  Reader.finish
  return ⟨description, transformer, head⟩

/-- The full file that holds a network. -/
def write (n : SmallNetwork) : ByteArray :=
  let b := Layout.uint32.put (File.header fileHash n.description) transformerHash
  let b := (Layout.transformer .pieceSquare 64 1).put b n.transformer
  (Layout.head 64).put (Layout.uint32.put b (Head.hash 64)) n.head

end SmallNetwork

end ChessEval
