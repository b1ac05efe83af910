import ChessEval.Board.Fen
import ChessEval.Board.MoveText

/-! Positions told by a command: a start and the moves played from it. -/
namespace ChessEval

inductive SetupError where
  | invalidFen (error : FenError)
  | invalidMove (text : String) (error : MoveError)
  | missingParts
  deriving DecidableEq

namespace SetupError

def message : SetupError → String
  | invalidFen e => "invalid FEN: " ++ e.message
  | invalidMove t e => s!"invalid move '{t}': " ++ e.message
  | missingParts => "missing required parts in position command"

end SetupError

namespace Position

/-- The position that the words of a command start from, and the words that follow. -/
def startOf : List String → Except SetupError (Position × List String)
  | _ :: "startpos" :: ws => .ok (.initial, ws)
  | _ :: "fen" :: ws =>
    if ws.length < 6 then .error .missingParts
    else match Position.ofFen (" ".intercalate (ws.take 6)) with
      | .ok p => .ok (p, ws.drop 6)
      | .error e => .error (.invalidFen e)
  | _ => .error .missingParts

/-- Plays legal moves given as text. No result where reading or playing one has none. -/
def playTexts? : List String → Position → Option (Except SetupError Position)
  | [], p => some (.ok p)
  | t :: ts, p =>
    match p.readLegalMove? t with
    | none => none
    | some (.error e) => some (.error (.invalidMove t e))
    | some (.ok m) => (p.play? m).bind fun (next, _) => playTexts? ts next

/-- The position that the words of a command tell. -/
def ofWords? (words : List String) : Option (Except SetupError Position) :=
  match startOf words with
  | .error e => some (.error e)
  | .ok (p, "moves" :: ts) => playTexts? ts p
  | .ok (p, _) => some (.ok p)

end Position

end ChessEval
