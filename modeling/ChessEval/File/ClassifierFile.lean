import ChessEval.File.Reader
import ChessEval.Network.Classifier

/-! The classifier's file format. -/
namespace ChessEval.Classifier

open File

/-- The first four bytes: the letters AUXC. -/
def magic : Vector UInt8 4 := #v[0x41, 0x55, 0x58, 0x43]

def inputs : UInt32 := 10

/-- The largest hidden layer of a file. -/
def maxHidden : UInt32 := 1024

def reader : Reader Classifier := do
  let found ← Reader.take (Layout.uint8.vector 4)
  if found = magic then do
    let n ← Reader.take .uint32
    let h1 ← Reader.take .uint32
    let h2 ← Reader.take .uint32
    if n ≠ inputs ∨ h1 = 0 ∨ h2 = 0 ∨ maxHidden < h1 ∨ maxHidden < h2 then
      Reader.fail (.classifierShape n h1 h2)
    else do
      let w1 ← Reader.take ((Layout.single.vector 10).vector h1.toNat)
      let b1 ← Reader.take (Layout.single.vector h1.toNat)
      let w2 ← Reader.take ((Layout.single.vector h1.toNat).vector h2.toNat)
      let b2 ← Reader.take (Layout.single.vector h2.toNat)
      let w3 ← Reader.take (Layout.single.vector h2.toNat)
      let b3 ← Reader.take .single
      Reader.finish
      return ⟨h1.toNat, h2.toNat, w1, b1, w2, b2, w3, b3⟩
  else Reader.fail (.badMagic found)

/-- The classifier that a file holds. -/
def read (b : ByteArray) : Except ReadError Classifier := reader.run b

/-- The file that holds a classifier. -/
def write (c : Classifier) : ByteArray :=
  let b := (Layout.uint8.vector 4).put .empty magic
  let b := Layout.uint32.put (Layout.uint32.put b inputs) (UInt32.ofNat c.h1)
  let b := Layout.uint32.put b (UInt32.ofNat c.h2)
  let b := ((Layout.single.vector 10).vector c.h1).put b c.w1
  let b := (Layout.single.vector c.h1).put b c.b1
  let b := ((Layout.single.vector c.h1).vector c.h2).put b c.w2
  let b := (Layout.single.vector c.h2).put b c.b2
  let b := (Layout.single.vector c.h2).put b c.w3
  Layout.single.put b c.b3

end ChessEval.Classifier
