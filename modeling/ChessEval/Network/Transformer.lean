import ChessEval.Network.Kernel
import ChessEval.Network.Threat

/-! The first layer: sums of one row of weights for each feature of a position. -/
namespace ChessEval

/-- The features of a first layer. -/
inductive FeatureSet where
  | pieceSquare
  /-- Threats after the piece-square features. -/
  | withThreats
  deriving DecidableEq

namespace FeatureSet

def inputs : FeatureSet → Nat
  | pieceSquare => Feature.count
  | withThreats => Threat.inputs

def hash : FeatureSet → UInt32
  | pieceSquare => 0x5D69D5B8
  | withThreats => 0x7F234CB8

/-- The numbers of a position's features, seen from one side's king. -/
def active (F : FeatureSet) (p : Position) (view : Color) (king : Square) : List Nat :=
  match F with
  | pieceSquare => Feature.active p view king
  | withThreats => Feature.active p view king ++ (Threat.all p).map (Threat.index view king)

/-- The numbers of threats, none where the set has no threats. -/
def threatIndices (F : FeatureSet) (l : List Threat) (view : Color) (king : Square) : List Nat :=
  match F with
  | pieceSquare => []
  | withThreats => l.map (Threat.index view king)

end FeatureSet

/-- Sums over features: `width` values for the layers behind and `buckets` values of the
piece-square score. -/
structure Sums (width buckets : Nat) where
  values : Vector Int16 width
  psqt : Vector Int32 buckets
  deriving DecidableEq

namespace Sums

variable {width buckets : Nat}

def zero : Sums width buckets := ⟨.replicate width 0, .replicate buckets 0⟩

instance : Add (Sums width buckets) :=
  ⟨fun a b => ⟨Kernel.add a.values b.values, Vector.zipWith (· + ·) a.psqt b.psqt⟩⟩

instance : Sub (Sums width buckets) :=
  ⟨fun a b => ⟨Kernel.sub a.values b.values, Vector.zipWith (· - ·) a.psqt b.psqt⟩⟩

end Sums

/-- The weights of a first layer. -/
structure Transformer (F : FeatureSet) (width buckets : Nat) where
  biases : Vector Int16 width
  weights : Vector (Vector Int16 width) F.inputs
  psqt : Vector (Vector Int32 buckets) F.inputs
  deriving DecidableEq

namespace Transformer

variable {F : FeatureSet} {width buckets : Nat}

/-- The number that stands for the layer's shape in files. -/
def hash (F : FeatureSet) (width : Nat) : UInt32 := F.hash ^^^ UInt32.ofNat (2 * width)

/-- What a feature adds; nothing beyond the last feature. -/
def row (t : Transformer F width buckets) (i : Nat) : Sums width buckets :=
  if h : i < F.inputs then ⟨t.weights[i], t.psqt[i]⟩ else .zero

/-- The sums of a position without features. -/
def start (t : Transformer F width buckets) : Sums width buckets := ⟨t.biases, .replicate buckets 0⟩

def addAll (t : Transformer F width buckets) (s : Sums width buckets) (l : List Nat) :
    Sums width buckets :=
  l.foldl (fun s i => s + t.row i) s

def subAll (t : Transformer F width buckets) (s : Sums width buckets) (l : List Nat) :
    Sums width buckets :=
  l.foldl (fun s i => s - t.row i) s

/-- The sums of a position, computed from scratch. No result without the perspective's king. -/
def refresh? (t : Transformer F width buckets) (p : Position) (view : Color) :
    Option (Sums width buckets) :=
  (p.king? view).map fun king => t.addAll t.start (F.active p view king)

def placedIndex (view : Color) (king : Square) (x : Placed) : Nat :=
  Feature.index view king x.color x.piece x.square

/-- The sums after a move, from those before it. `king` is the perspective's king, which did not
move. -/
def update (t : Transformer F width buckets) (before : Sums width buckets) (d : Change)
    (threats : ThreatChange) (king : Square) (view : Color) : Sums width buckets :=
  let s := t.subAll before (d.removed.map (placedIndex view king))
  let s := t.addAll s (d.added.map (placedIndex view king))
  let s := t.subAll s (F.threatIndices threats.removed view king)
  t.addAll s (F.threatIndices threats.added view king)

end Transformer

end ChessEval
