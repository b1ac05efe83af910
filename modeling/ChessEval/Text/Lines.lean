/-! Lines of input, cut from bytes. -/
namespace ChessEval.Text

def lineFeed : UInt8 := 10

def carriageReturn : UInt8 := 13

/-- The bytes cut after each line feed. -/
def cutLines : List UInt8 → List (List UInt8)
  | [] => []
  | b :: bs =>
    if b = lineFeed then [b] :: cutLines bs
    else match cutLines bs with
      | l :: ls => (b :: l) :: ls
      | [] => [[b]]

/-- A line without the line feed at its end and a carriage return before it. -/
def dropEnd (line : List UInt8) : List UInt8 :=
  match line.reverse with
  | b :: rest =>
    if b = lineFeed then
      match rest with
      | c :: rest => if c = carriageReturn then rest.reverse else (c :: rest).reverse
      | [] => []
    else line
  | [] => []

/-- The text of a line; none if its bytes are no UTF-8. -/
def lineText? (line : List UInt8) : Option String := String.fromUTF8? ⟨(dropEnd line).toArray⟩

/-- The texts of some lines, up to the first that has none. -/
def readable : List (List UInt8) → List String
  | [] => []
  | l :: ls =>
    match lineText? l with
    | some t => t :: readable ls
    | none => []

/-- The lines of some input, up to the first that is no UTF-8. -/
def inputLines (input : List UInt8) : List String := readable (cutLines input)

end ChessEval.Text
