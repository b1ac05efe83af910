/-! The tuned numbers of the evaluation. -/
namespace ChessEval

structure EvalConfig where
  /-- Beyond this material balance no network is asked. -/
  lazyThreshold : Int32
  /-- Beyond this material balance the small network is asked. -/
  smallThreshold : Int32
  /-- Below this score of the small network the big one may be asked as well. -/
  recheckThreshold : Int32
  smallWeight : Int32
  bigWeight : Int32
  pawnWeight : Int32
  optimismBase : Int32
  optimismDivisor : Int32
  scoreDivisor : Int32
  /-- The clock at which damping stops growing. -/
  dampingCap : Int32
  dampingBase : Int32
  dampingDivisor : Int32
  deriving DecidableEq

namespace EvalConfig

def default : EvalConfig :=
  { lazyThreshold := 2550
    smallThreshold := 1050
    recheckThreshold := 500
    smallWeight := 773
    bigWeight := 882
    pawnWeight := 9
    optimismBase := 106
    optimismDivisor := 512
    scoreDivisor := 32768
    dampingCap := 100
    dampingBase := 200
    dampingDivisor := 214 }

end EvalConfig

/-- What the classifier's inputs are divided by, and the probability above which the big network is
asked. -/
structure ClassifierConfig where
  networkNorm : Float32
  complexityNorm : Float32
  optimismNorm : Float32
  pawnNorm : Float32
  pieceNorm : Float32
  materialNorm : Float32
  balanceNorm : Float32
  scoreNorm : Float32
  shuffleNorm : Float32
  threshold : Float32

namespace ClassifierConfig

def default : ClassifierConfig :=
  { networkNorm := 600
    complexityNorm := 600
    optimismNorm := 150
    pawnNorm := 16
    pieceNorm := 14
    materialNorm := 15000
    balanceNorm := 2550
    scoreNorm := 2550
    shuffleNorm := 100
    threshold := 0.5 }

end ClassifierConfig

/-- The largest value of an evaluation, next below the scores of solved endings. -/
def evalLimit : Int32 := 31506

end ChessEval
