import ChessEval.Network.Networks

/-! Networks drawn from a seed. -/
namespace ChessEval

open ChessEval.Random

def Transformer.drawFrom (F : FeatureSet) (width buckets : Nat) (limit : Int16) (s : Stream) :
    Transformer F width buckets × Stream :=
  let (biases, s) := s.vector (·.int16 (-50) 50) width
  let (weights, s) := s.vector (·.vector (·.int16 (-limit) limit) width) F.inputs
  let (psqt, s) := s.vector (·.vector (·.int32 (-2000) 2000) buckets) F.inputs
  (⟨biases, weights, psqt⟩, s)

/-- A row of drawn weights, followed by zeros. -/
def Affine.drawRow (inputs : Nat) (s : Stream) : Vector Int8 (padded inputs) × Stream :=
  let (row, s) := s.vector (·.int8 (-64) 64) inputs
  (.ofFn fun i => row[i.val]?.getD 0, s)

def Affine.drawFrom (inputs outputs : Nat) (s : Stream) : Affine inputs outputs × Stream :=
  let (weights, s) := s.vector (Affine.drawRow inputs) outputs
  let (biases, s) := s.vector (·.int32 (-2000) 2000) outputs
  (⟨biases, weights⟩, s)

def LayerStack.drawFrom (s : Stream) : LayerStack × Stream :=
  let (first, s) := Affine.drawFrom 512 16 s
  let (second, s) := Affine.drawFrom 15 32 s
  let (third, s) := Affine.drawFrom 32 1 s
  (⟨first, second, third⟩, s)

def Head.drawFrom (width : Nat) (s : Stream) : Head width × Stream :=
  let (ours, s) := s.vector (·.int16 (-250) 250) width
  let (theirs, s) := s.vector (·.int16 (-250) 250) width
  let (bias, s) := s.int16 (-300) 300
  (⟨ours, theirs, bias⟩, s)

def BigNetwork.synthetic (seed : UInt64) : BigNetwork :=
  let (transformer, s) := Transformer.drawFrom .withThreats 256 8 40 (Stream.ofSeed seed)
  let (layerStacks, _) := s.vector LayerStack.drawFrom 8
  ⟨s!"synthetic big network (seed {seed})", transformer, layerStacks⟩

def SmallNetwork.synthetic (seed : UInt64) : SmallNetwork :=
  let (transformer, s) := Transformer.drawFrom .pieceSquare 64 1 60 (Stream.ofSeed seed)
  let (head, _) := Head.drawFrom 64 s
  ⟨s!"synthetic small network (seed {seed})", transformer, head⟩

/-- Networks drawn from a seed and its successor, without a classifier. -/
def Networks.synthetic (seed : UInt64) : Networks :=
  ⟨.synthetic seed, .synthetic (seed + 1), none, ⟨"synthetic", "synthetic", "None"⟩⟩

end ChessEval
