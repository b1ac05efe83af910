import ChessEval.Network.Accumulator
import ChessEval.Network.Classifier
import ChessEval.Network.Layer

/-! The two networks of the evaluation, and the bundle they are used in. -/
namespace ChessEval

/-- A network's answer in units of `outputScale`. -/
structure NetworkOutput where
  psqt : Int32
  positional : Int32
  deriving DecidableEq

/-- Half the difference between the two sides' piece-square sums. -/
def psqtTerm (us them : Int32) : Int32 := (us - them) / 2

abbrev BigTransformer := Transformer .withThreats 256 8

abbrev SmallTransformer := Transformer .pieceSquare 64 1

abbrev BigAccumulator := Accumulator 256 8

abbrev SmallAccumulator := Accumulator 64 1

structure BigNetwork where
  description : String
  transformer : BigTransformer
  layerStacks : Vector LayerStack 8
  deriving DecidableEq

namespace BigNetwork

/-- The output network for a number of pieces. -/
def bucket (pieces : Nat) : Fin 8 := ⟨min ((pieces - 1) / 4) 7, by omega⟩

/-- The answer from the point of view of the side to move. -/
def evaluate (n : BigNetwork) (a : BigAccumulator) (turn : Color) (pieces : Nat) : NetworkOutput :=
  let us := (a.half turn).sums
  let them := (a.half turn.opponent).sums
  let b := bucket pieces
  { psqt := psqtTerm (us.psqt.get b) (them.psqt.get b)
    positional := (n.layerStacks.get b).apply
      (Kernel.clampToBytes us.values ++ Kernel.clampToBytes them.values) }

end BigNetwork

structure SmallNetwork where
  description : String
  transformer : SmallTransformer
  head : Head 64
  deriving DecidableEq

namespace SmallNetwork

/-- The only piece-square sum. -/
def onlyBucket : Fin 1 := ⟨0, Nat.one_pos⟩

/-- The answer from the point of view of the side to move. -/
def evaluate (n : SmallNetwork) (a : SmallAccumulator) (turn : Color) : NetworkOutput :=
  let us := (a.half turn).sums
  let them := (a.half turn.opponent).sums
  { psqt := psqtTerm (us.psqt.get onlyBucket) (them.psqt.get onlyBucket)
    positional := n.head.apply us.values them.values }

end SmallNetwork

/-- The files that an evaluation is made of. -/
inductive NetworkClass where
  | big
  | small
  | classifier
  deriving DecidableEq

namespace NetworkClass

def all : List NetworkClass := [big, small, classifier]

def name : NetworkClass → String
  | big => "big"
  | small => "small"
  | classifier => "classifier"

end NetworkClass

/-- For each class the name of the file that was loaded. -/
structure Identity where
  big : String
  small : String
  classifier : String
  deriving DecidableEq

namespace Identity

/-- Nothing loaded. -/
def none : Identity := ⟨"None", "None", "None"⟩

def get (i : Identity) : NetworkClass → String
  | .big => i.big
  | .small => i.small
  | .classifier => i.classifier

def set (i : Identity) (c : NetworkClass) (name : String) : Identity :=
  match c with
  | .big => { i with big := name }
  | .small => { i with small := name }
  | .classifier => { i with classifier := name }

end Identity

structure Networks where
  big : BigNetwork
  small : SmallNetwork
  classifier : Option Classifier
  identity : Identity

namespace Networks

/-- The bundle with a drawn classifier. -/
def withClassifier (n : Networks) (c : Classifier) : Networks :=
  { n with classifier := some c, identity := n.identity.set .classifier "synthetic" }

end Networks

end ChessEval
