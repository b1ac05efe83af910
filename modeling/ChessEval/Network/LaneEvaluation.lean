import ChessEval.Network.Lanes
import ChessEval.Network.Networks

/-! The networks' answers computed in lanes. -/
namespace ChessEval

variable {inputs outputs : Nat}

namespace Affine

def applyInLanes (l : Affine inputs outputs) (x : Vector UInt8 (padded inputs)) :
    Vector Int32 outputs :=
  Vector.zipWith (fun b w => b + Lanes.dot x w) l.biases l.weights

end Affine

namespace LayerStack

/-- All sixteen outputs are activated, then the last is cleared and zeros are appended. -/
def hiddenInLanes (v : Vector Int32 16) : Vector UInt8 (padded 15) :=
  let a : Vector UInt8 16 := Lanes.activateAll (n := 2) v
  .ofFn fun i => if h : i.val < 15 then a.get ⟨i, Nat.lt_succ_of_lt h⟩ else 0

def applyInLanes (s : LayerStack) (x : Vector UInt8 512) : Int32 :=
  let first := s.first.applyInLanes x
  let second := s.second.applyInLanes (hiddenInLanes first)
  output first (s.third.applyInLanes (Lanes.activateAll (n := 4) second))

end LayerStack

namespace Head

def applyInLanes (h : Head 64) (us them : Vector Int16 64) : Int32 :=
  h.rescale (Lanes.screluDot (n := 4) clip us h.ours + Lanes.screluDot (n := 4) clip them h.theirs)

end Head

namespace BigNetwork

def evaluateInLanes (n : BigNetwork) (a : BigAccumulator) (turn : Color) (pieces : Nat) :
    NetworkOutput :=
  let us := (a.half turn).sums
  let them := (a.half turn.opponent).sums
  let b := bucket pieces
  { psqt := psqtTerm (us.psqt.get b) (them.psqt.get b)
    positional := (n.layerStacks.get b).applyInLanes
      (Lanes.clampToBytes (n := 8) us.values ++ Lanes.clampToBytes (n := 8) them.values) }

end BigNetwork

namespace SmallNetwork

def evaluateInLanes (n : SmallNetwork) (a : SmallAccumulator) (turn : Color) : NetworkOutput :=
  let us := (a.half turn).sums
  let them := (a.half turn.opponent).sums
  { psqt := psqtTerm (us.psqt.get onlyBucket) (them.psqt.get onlyBucket)
    positional := n.head.applyInLanes us.values them.values }

end SmallNetwork

end ChessEval
