/-! Text from bytes, with a mark in place of what is no UTF-8. -/
namespace ChessEval.Text

/-- The character that marks bytes that are no text. -/
def replacement : Char := '\uFFFD'

/-- The number of continuation bytes after a first byte, with the range of the first of them. -/
def continuation? (b : UInt8) : Option (Nat × UInt8 × UInt8) :=
  if b < 0x80 then some (0, 0x80, 0xBF)
  else if 0xC2 ≤ b ∧ b ≤ 0xDF then some (1, 0x80, 0xBF)
  else if b = 0xE0 then some (2, 0xA0, 0xBF)
  else if b = 0xED then some (2, 0x80, 0x9F)
  else if 0xE1 ≤ b ∧ b ≤ 0xEF then some (2, 0x80, 0xBF)
  else if b = 0xF0 then some (3, 0x90, 0xBF)
  else if 0xF1 ≤ b ∧ b ≤ 0xF3 then some (3, 0x80, 0xBF)
  else if b = 0xF4 then some (3, 0x80, 0x8F)
  else none

/-- The first byte's share of a character's number. -/
def leadBits (more : Nat) (b : UInt8) : Nat :=
  match more with
  | 0 => b.toNat
  | 1 => b.toNat % 32
  | 2 => b.toNat % 16
  | _ => b.toNat % 8

/-- Reads text. `more` continuation bytes of an open character are still to come, the next one
between `lo` and `hi`, and `code` is the number read so far; a character that breaks off is marked
once and the byte that broke it is read anew. -/
def readMarked : List UInt8 → Nat → Nat → UInt8 → UInt8 → List Char
  | [], more, _, _, _ => if more = 0 then [] else [replacement]
  | b :: bs, more, code, lo, hi =>
    if more ≠ 0 ∧ lo ≤ b ∧ b ≤ hi then
      let code := 64 * code + b.toNat % 64
      if more = 1 then Char.ofNat code :: readMarked bs 0 0 0 0
      else readMarked bs (more - 1) code 0x80 0xBF
    else
      let mark := if more = 0 then [] else [replacement]
      match continuation? b with
      | none => mark ++ replacement :: readMarked bs 0 0 0 0
      | some (0, _, _) => mark ++ Char.ofNat b.toNat :: readMarked bs 0 0 0 0
      | some (n, lo, hi) => mark ++ readMarked bs n (leadBits n b) lo hi

/-- The text of some bytes; where they are no UTF-8, every longest broken piece of a character is
replaced by one mark. -/
def ofBytes (b : ByteArray) : String :=
  match String.fromUTF8? b with
  | some s => s
  | none => String.ofList (readMarked b.toList 0 0 0 0)

end ChessEval.Text
