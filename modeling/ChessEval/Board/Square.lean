/-! The squares of the board, a1 first, rank by rank. -/
namespace ChessEval

abbrev Square := Fin 64

namespace Square

def all : List Square := List.finRange 64

def ofCoords (rank file : Fin 8) : Square := ⟨8 * rank + file, by omega⟩

def rank (s : Square) : Fin 8 := ⟨s / 8, by omega⟩

def file (s : Square) : Fin 8 := ⟨s % 8, by omega⟩

def fileA : Fin 8 := ⟨0, by decide⟩

def fileB : Fin 8 := ⟨1, by decide⟩

def fileC : Fin 8 := ⟨2, by decide⟩

def fileD : Fin 8 := ⟨3, by decide⟩

def fileE : Fin 8 := ⟨4, by decide⟩

def fileF : Fin 8 := ⟨5, by decide⟩

def fileG : Fin 8 := ⟨6, by decide⟩

def fileH : Fin 8 := ⟨7, by decide⟩

def firstRank : Fin 8 := ⟨0, by decide⟩

def secondRank : Fin 8 := ⟨1, by decide⟩

def seventhRank : Fin 8 := ⟨6, by decide⟩

def eighthRank : Fin 8 := ⟨7, by decide⟩

/-- The square on a rank and a file counted from zero, if the board has it. -/
def at? (rank file : Nat) : Option Square :=
  if h : rank < 8 ∧ file < 8 then some (ofCoords ⟨rank, h.1⟩ ⟨file, h.2⟩) else none

/-- The square a step of ranks and files away, if the board has it. -/
def step? (s : Square) (dr df : Int) : Option Square :=
  let r := (s.rank : Int) + dr
  let f := (s.file : Int) + df
  if 0 ≤ r ∧ 0 ≤ f then at? r.toNat f.toNat else none

/-- The reflection that exchanges the first and the eighth rank. -/
def flipVertical (s : Square) : Square := ofCoords s.rank.rev s.file

/-- The reflection that exchanges the a-file and the h-file. -/
def flipHorizontal (s : Square) : Square := ofCoords s.rank s.file.rev

def fileLetter (f : Fin 8) : Char := Char.ofNat ('a'.toNat + f)

def rankDigit (r : Fin 8) : Char := Char.ofNat ('1'.toNat + r)

def letters (s : Square) : List Char := [fileLetter s.file, rankDigit s.rank]

def name (s : Square) : String := String.ofList s.letters

/-- The square that two characters name: a file letter a to h, then a rank digit 1 to 8. -/
def ofLetters? : List Char → Option Square
  | [f, r] =>
    if 'a' ≤ f ∧ f ≤ 'h' ∧ '1' ≤ r ∧ r ≤ '8' then
      at? (r.toNat - '1'.toNat) (f.toNat - 'a'.toNat)
    else none
  | _ => none

end Square

/-- Why a square cannot be built from text or from a rank and a file. -/
inductive SquareError where
  | rankOutOfBounds (rank : UInt8)
  | fileOutOfBounds (file : UInt8)
  | invalidNotation (text : String)
  deriving DecidableEq

namespace SquareError

def message : SquareError → String
  | rankOutOfBounds r => s!"Rank {r} out of bounds (must be 0-7)"
  | fileOutOfBounds f => s!"File {f} out of bounds (must be 0-7)"
  | invalidNotation t => s!"Invalid square notation '{t}'"

end SquareError

namespace Square

def parse (text : String) : Except SquareError Square :=
  match ofLetters? text.toList with
  | some s => .ok s
  | none => .error (.invalidNotation text)

/-- The square on a rank and a file; a bad rank is reported before a bad file. -/
def ofRankFile (rank file : UInt8) : Except SquareError Square :=
  if hr : rank.toNat < 8 then
    if hf : file.toNat < 8 then .ok (ofCoords ⟨rank.toNat, hr⟩ ⟨file.toNat, hf⟩)
    else .error (.fileOutOfBounds file)
  else .error (.rankOutOfBounds rank)

end Square

end ChessEval
