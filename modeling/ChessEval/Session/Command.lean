import ChessEval.Text.Blank

/-! Lines of input as commands. -/
namespace ChessEval

inductive Command where
  | identify
  | isReady
  | newGame
  /-- Every word of the line. -/
  | position (words : List String)
  /-- Every word of the line. -/
  | setOption (words : List String)
  | evaluate
  | quit
  /-- The line without the blanks at its ends. -/
  | unknown (line : String)
  deriving DecidableEq

/-- The command of a line, told by its first word; none for a blank line. -/
def Command.ofLine? (line : String) : Option Command :=
  match (Text.words line.toList).map String.ofList with
  | [] => none
  | w :: ws =>
    match w with
    | "uci" => some .identify
    | "isready" => some .isReady
    | "ucinewgame" => some .newGame
    | "position" => some (.position (w :: ws))
    | "setoption" => some (.setOption (w :: ws))
    | "eval" => some .evaluate
    | "quit" => some .quit
    | _ => some (.unknown (String.ofList (Text.trim line.toList)))

end ChessEval
