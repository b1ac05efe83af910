import ChessEval.Evaluate.Blend
import ChessEval.Text.FixedPlaces

/-! An evaluation told in words, its numbers from White's point of view. -/
namespace ChessEval.Evaluator

def choiceText (b : Breakdown) : String :=
  match b.choice with
  | .lazily => "none (lazy)"
  | .small => "small"
  | .big => if b.rechecked then "big (rechecked)" else "big"

/-- A number of the side to move as White sees it, with its sign. -/
def fromWhite (p : Position) (v : Int32) : String :=
  match p.turn with
  | .white => Text.signedText v.toInt
  | .black => Text.signedText (-v).toInt

/-- The lines of the text. No result where the evaluation has none, except in check. -/
def trace? (e : Evaluator) (nets : Networks) (p : Position) : Option (List String) := do
  let check ← p.inCheck?
  if check then return ["Final evaluation: none (in check)"]
  else
    let l ← Line.start? nets p
    let (big, l) ← runBig? nets p l
    let (small, l) ← runSmall? nets p l
    let (b, _) ← e.evaluate? nets p l 0
    let bucket := (BigNetwork.bucket p.pieceCount).val
    let bigPsqt := fromWhite p (big.psqt / outputScale)
    let bigPositional := fromWhite p (big.positional / outputScale)
    let smallPsqt := fromWhite p (small.psqt / outputScale)
    let smallPositional := fromWhite p (small.positional / outputScale)
    let classifier := match b.probability with
      | some q => ["Classifier             " ++ Text.fixedPlaces 3 q.toBits]
      | none => []
    return ["Simple evaluation      " ++ fromWhite p b.balance,
        s!"Big network (bucket {bucket}) psqt {bigPsqt} positional {bigPositional}",
        s!"Small network          psqt {smallPsqt} positional {smallPositional}",
        "Network used           " ++ choiceText b] ++ classifier ++
      ["Complexity             " ++ Text.intText b.complexity.toInt,
        "Final evaluation       " ++ fromWhite p b.value ++ " (white side)"]

end ChessEval.Evaluator
