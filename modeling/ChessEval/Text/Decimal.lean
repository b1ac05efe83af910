/-! Decimal and hexadecimal text of numbers. -/
namespace ChessEval.Text

def digit? (c : Char) : Option Nat :=
  if '0' ≤ c ∧ c ≤ '9' then some (c.toNat - '0'.toNat) else none

/-- The value of a text of digits, read after the digits that gave `acc`. -/
def digitsValue? : List Char → Nat → Option Nat
  | [], acc => some acc
  | c :: cs, acc => (digit? c).bind fun d => digitsValue? cs (10 * acc + d)

/-- A natural number: at least one digit, perhaps after a plus sign. -/
def nat? : List Char → Option Nat
  | [] => none
  | '+' :: c :: cs => digitsValue? (c :: cs) 0
  | c :: cs => digitsValue? (c :: cs) 0

/-- A counter that fits into 32 bits. -/
def counter? (cs : List Char) : Option UInt32 :=
  (nat? cs).bind fun n => if n < 4294967296 then some (UInt32.ofNat n) else none

def natText (n : Nat) : List Char := Nat.toDigits 10 n

def intText (i : Int) : String :=
  match i with
  | .ofNat n => String.ofList (natText n)
  | .negSucc n => String.ofList ('-' :: natText (n + 1))

/-- An integer with its sign, also when it is not negative. -/
def signedText (i : Int) : String :=
  if i < 0 then intText i else "+" ++ intText i

/-- Eight upper-case hexadecimal digits. -/
def hexText (w : UInt32) : String :=
  let ds := (Nat.toDigits 16 w.toNat).map Char.toUpper
  String.ofList (List.replicate (8 - ds.length) '0' ++ ds)

end ChessEval.Text
