import ChessEval.Board.Material
import ChessEval.Evaluate.Constants
import ChessEval.Network.Line

/-! From a position to one number: material, the choice of a network, optimism, damping. -/
namespace ChessEval

inductive NetworkChoice where
  /-- Material alone decided. -/
  | lazily
  | small
  | big
  deriving DecidableEq

/-- The evaluation with every number on the way to it. -/
structure Breakdown where
  balance : Int32
  choice : NetworkChoice
  /-- Whether the big network's answer took the place of the small one's. -/
  rechecked : Bool
  /-- The classifier's answer, where it was asked. -/
  probability : Option Float32
  output : NetworkOutput
  score : Int32
  complexity : Int32
  /-- The value before damping. -/
  blended : Int32
  value : Int32

/-- A network's score and its complexity, in units of the evaluation. -/
structure Scored where
  score : Int32
  complexity : Int32
  deriving DecidableEq

namespace NetworkOutput

/-- The two terms weighed against each other by the material left. -/
def scored (o : NetworkOutput) (material : Int32) : Scored :=
  let delta := (24 - material / 9560).toInt64
  let psqt := o.psqt.toInt64
  let positional := o.positional.toInt64
  { score := Kernel.saturate (((1024 - delta) * psqt + (1024 + delta) * positional) / 16384)
    complexity := Kernel.saturate ((psqt - positional).abs / 16) }

end NetworkOutput

/-- What the networks said: the one chosen, and how it came to be chosen. -/
structure Consultation where
  choice : NetworkChoice
  rechecked : Bool
  probability : Option Float32
  output : NetworkOutput
  scored : Scored

structure Evaluator where
  config : EvalConfig
  classifier : ClassifierConfig

namespace Evaluator

def default : Evaluator := ⟨.default, .default⟩

/-- The classifier's inputs. -/
def classifierInputs (e : Evaluator) (p : Position) (o : NetworkOutput) (complexity optimism : Int32) :
    Vector Float32 10 :=
  let c := e.classifier
  let pieces := (Material.nonPawn.map p.countBoth).foldr (· + ·) 0
  #v[o.psqt.toFloat32 / 16 / c.networkNorm,
    o.positional.toFloat32 / 16 / c.networkNorm,
    complexity.toFloat32 / c.complexityNorm,
    optimism.toFloat32 / c.optimismNorm,
    (UInt32.ofNat (p.countBoth .pawn)).toFloat32 / c.pawnNorm,
    (UInt32.ofNat pieces).toFloat32 / c.pieceNorm,
    p.nonPawnMaterialTotal.toFloat32 / c.materialNorm,
    (p.materialBalance p.turn).toFloat32 / c.balanceNorm,
    p.pieceSquareScore.toFloat32 / c.scoreNorm,
    p.halfmoves.toFloat32 / c.shuffleNorm]

/-- The big network's answer at the last position `p` of a line. -/
def runBig? (nets : Networks) (p : Position) (l : Line) : Option (NetworkOutput × Line) :=
  (l.bigAccumulator? nets p).map fun (a, l) => (nets.big.evaluate a p.turn p.pieceCount, l)

/-- The small network's answer at the last position `p` of a line. -/
def runSmall? (nets : Networks) (p : Position) (l : Line) : Option (NetworkOutput × Line) :=
  (l.smallAccumulator? nets p).map fun (a, l) => (nets.small.evaluate a p.turn, l)

/-- Whether the big network is asked after the small one, and the classifier's answer. -/
def recheck? (e : Evaluator) (nets : Networks) (inputs : Vector Float32 10) :
    Option (Bool × Option Float32) :=
  match nets.classifier with
  | none => some (true, none)
  | some c => (c.probability? inputs).map fun q => (e.classifier.threshold < q, some q)

/-- Asks the small network far from a material balance, the big one otherwise, and the big one again
where the small one's score is close to zero and the classifier does not object. -/
def consult? (e : Evaluator) (nets : Networks) (p : Position) (l : Line) (optimism : Int32) :
    Option (Consultation × Line) := do
  let material := p.nonPawnMaterialTotal
  if e.config.smallThreshold < (p.materialBalance p.turn).abs then
    let (o, l) ← runSmall? nets p l
    let s := o.scored material
    if s.score.abs < e.config.recheckThreshold then
      let (again, q) ← e.recheck? nets (e.classifierInputs p o s.complexity optimism)
      if again then
        let (o, l) ← runBig? nets p l
        return (⟨.big, true, q, o, o.scored material⟩, l)
      else return (⟨.small, false, q, o, s⟩, l)
    else return (⟨.small, false, none, o, s⟩, l)
  else
    let (o, l) ← runBig? nets p l
    return (⟨.big, false, none, o, o.scored material⟩, l)

/-- The score reduced by its spread and the value blended from it and the optimism. -/
def blend? (e : Evaluator) (p : Position) (c : Consultation) (optimism : Int32) :
    Option (Int64 × Int64) := do
  let score := c.scored.score.toInt64
  let optimism := optimism.toInt64
  let balance := (p.materialBalance p.turn).toInt64
  let spread := c.scored.complexity.toInt64 + (balance - score).abs
  let optimism := optimism + (← Kernel.quotient? (optimism * spread) e.config.optimismDivisor.toInt64)
  let score := score - (← Kernel.quotient? (score * spread) e.config.scoreDivisor.toInt64)
  let material := (p.nonPawnMaterialTotal / 64).toInt64
  let weight := match c.choice with
    | .small => e.config.smallWeight.toInt64
    | _ => e.config.bigWeight.toInt64
  let pawns := Int64.ofNat (p.countBoth .pawn)
  let sum := score * (weight + material + e.config.pawnWeight.toInt64 * pawns) +
    optimism * (e.config.optimismBase.toInt64 + material)
  return (score, sum / 1024)

/-- A value damped by the clock of half moves and kept within the limits. -/
def damp? (e : Evaluator) (p : Position) (blended : Int32) : Option Int32 := do
  let clock := Int64.ofNat p.halfmoves.toNat
  let cap := e.config.dampingCap.toInt64
  let shuffle := if cap < clock then cap else clock
  let damped ← Kernel.quotient? (blended.toInt64 * (e.config.dampingBase.toInt64 - shuffle))
    e.config.dampingDivisor.toInt64
  let v := Kernel.saturate damped
  return if v < -evalLimit then -evalLimit else if evalLimit < v then evalLimit else v

/-- Evaluates the last position `p` of a line from the point of view of the side to move. No result
in check, without a king, for a divisor of zero or a classifier without hidden numbers. -/
def evaluate? (e : Evaluator) (nets : Networks) (p : Position) (l : Line) (optimism : Int32) :
    Option (Breakdown × Line) := do
  let check ← p.inCheck?
  if check then none
  else
    let balance := p.materialBalance p.turn
    if e.config.lazyThreshold < balance.abs then
      let value ← e.damp? p balance
      return (⟨balance, .lazily, false, none, ⟨0, 0⟩, 0, 0, balance, value⟩, l)
    else
      let (c, l) ← e.consult? nets p l optimism
      let (score, blended) ← e.blend? p c optimism
      let blended := Kernel.saturate blended
      let value ← e.damp? p blended
      return (⟨balance, c.choice, c.rechecked, c.probability, c.output, Kernel.saturate score,
        c.scored.complexity, blended, value⟩, l)

/-- Evaluates a position on its own. -/
def evaluateFresh? (e : Evaluator) (nets : Networks) (p : Position) (optimism : Int32) :
    Option Breakdown := do
  let l ← Line.start? nets p
  let (b, _) ← e.evaluate? nets p l optimism
  return b

end Evaluator

end ChessEval
