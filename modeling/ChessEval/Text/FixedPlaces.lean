import ChessEval.Text.Decimal

/-! A binary32 number written with a fixed number of decimal places. -/
namespace ChessEval.Text

/-- A quotient rounded to the nearest whole number, a half to the even neighbour. -/
def roundDiv (num den : Nat) : Nat :=
  let q := num / den
  let r := num % den
  if 2 * r < den then q else if den < 2 * r then q + 1 else q + q % 2

/-- The eight bits of a number's exponent. -/
def exponentField (bits : UInt32) : Nat := bits.toNat / 8388608 % 256

/-- The lower 23 bits, those of a number's fraction. -/
def fractionField (bits : UInt32) : Nat := bits.toNat % 8388608

/-- The size of a finite number as significand and exponent of two. -/
def magnitude (bits : UInt32) : Nat × Int :=
  let e := exponentField bits
  let f := fractionField bits
  if e = 0 then (f, -149) else (8388608 + f, (e : Int) - 150)

/-- The exact value of a number rounded to `places` places after the point. -/
def fixedPlaces (places : Nat) (bits : UInt32) : String :=
  let sign := if bits.toNat < 2147483648 then "" else "-"
  if exponentField bits = 255 then
    if fractionField bits = 0 then sign ++ "inf" else "NaN"
  else
    let (m, q) := magnitude bits
    let unit := Nat.pow 10 places
    let scaled := m * unit
    let n := if 0 ≤ q then scaled * Nat.pow 2 q.toNat else roundDiv scaled (Nat.pow 2 (-q).toNat)
    let whole := natText (n / unit)
    let part := natText (n % unit)
    sign ++ String.ofList whole ++
      (if places = 0 then ""
       else "." ++ String.ofList (List.replicate (places - part.length) '0' ++ part))

end ChessEval.Text
