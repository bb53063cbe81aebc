import GotoFree.Json.Scan

/-!
# Numbers in JSON text

A number is kept as it is written. Whether it is in range is a question about the float of double
precision that it is read as: the leading digits that fit one machine word are multiplied by a power
of ten, each of the two rounded to a float before. So a number next to the limit of the floats may
fall to either side of it, depending on how it is written.
-/

namespace GotoFree.Json

/-- A number as it is written. -/
structure Number where
  negative : Bool
  /-- The digits before the point. -/
  whole : List Char
  /-- The digits behind the point, if there is one. -/
  places : Option (List Char)
  /-- The power of ten behind the exponent mark, if there is one. -/
  power : Option Int

/-- The value of a decimal digit. -/
def digitValue (digit : Char) : Nat := digit.toNat - '0'.toNat

/-- The value of a run of decimal digits. -/
def decimal (digits : List Char) : Nat :=
  digits.foldl (fun value digit => value * 10 + digitValue digit) 0

namespace Number

/-- Whether a number has neither point nor exponent. -/
def isIntegral (n : Number) : Bool := n.places.isNone && n.power.isNone

/-- The value of a number that is integral. -/
def integer (n : Number) : Int := if n.negative then -decimal n.whole else decimal n.whole

/-- Whether a number is integral and zero. -/
def isZero (n : Number) : Bool := n.isIntegral && decimal n.whole = 0

/-! ## The range of floats -/

/-- The first number beyond a machine word of 64 bits. -/
def wordLimit : Nat := 0x10000000000000000

/-- The least number that is rounded to no finite float of double precision: it lies halfway between
the greatest float and the one that would follow. -/
def floatLimit : Nat := Nat.pow 2 1024 - Nat.pow 2 970

/-- Puts digits behind a significand while it fits a machine word, and returns those that are
left. -/
def appendDigits (significand : Nat) : List Char → Nat × List Char
  | [] => (significand, [])
  | digit :: rest =>
      let longer := significand * 10 + digitValue digit
      if longer < wordLimit then appendDigits longer rest else (significand, digit :: rest)

/-- The leading digits of a number that fit a machine word, and the power of ten they are multiplied
by. Digits of the whole part that do not fit raise the power, places that fit lower it. -/
def leading (n : Number) : Nat × Int :=
  let places := n.places.getD []
  let (significand, beyond) := appendDigits 0 n.whole
  let (significand, unused) := appendDigits significand places
  (significand, n.power.getD 0 + beyond.length - (places.length - unused.length : Nat))

/-- The nearest number of at most 53 significant binary digits, which is how many a float has. A tie
goes to the one whose last digit is even. -/
def roundToFloat (n : Nat) : Nat :=
  let unit := Nat.pow 2 (n.log2 + 1 - 53)
  let below := n / unit
  let excess := 2 * (n % unit)
  if unit < excess || (excess = unit && below % 2 = 1) then (below + 1) * unit else below * unit

/-- Whether a number is read as a finite float. No power of ten beyond the range of floats is
computed. -/
def isFinite (n : Number) : Bool :=
  let (significand, power) := n.leading
  if significand = 0 || power ≤ 0 then true
  else if 308 < power then false
  else roundToFloat significand * roundToFloat (Nat.pow 10 power.toNat) < floatLimit

end Number

/-! ## Reading -/

/-- Reads the digits behind a point or an exponent mark; at least one has to stand there. -/
def someDigits : Scan (List Char)
  | [] => .error ⟨.truncated, []⟩
  | c :: rest =>
      if c.isDigit then .ok ((c :: rest).takeWhile Char.isDigit, (c :: rest).dropWhile Char.isDigit)
      else .error ⟨.malformed, c :: rest⟩

/-- Reads the digits behind the point, if there is one. -/
def fraction : Scan (Option (List Char))
  | '.' :: rest => do
      let (digits, rest) ← someDigits rest
      return (some digits, rest)
  | text => .ok (none, text)

/-- Reads a signed number. -/
def signedDigits : Scan Int
  | '+' :: rest => do
      let (digits, rest) ← someDigits rest
      return (decimal digits, rest)
  | '-' :: rest => do
      let (digits, rest) ← someDigits rest
      return (-decimal digits, rest)
  | text => do
      let (digits, rest) ← someDigits text
      return (decimal digits, rest)

/-- Reads the exponent, if there is one. -/
def exponent : Scan (Option Int)
  | 'e' :: rest | 'E' :: rest => do
      let (value, rest) ← signedDigits rest
      return (some value, rest)
  | text => .ok (none, text)

/-- Reads a number from behind its sign. The whole part has no superfluous zero. -/
def number (negative : Bool) : Scan Number := fun text => do
  let (whole, rest) ← someDigits text
  if whole.head? = some '0' ∧ 1 < whole.length then
    throw ⟨.malformed, rest⟩
  let (places, rest) ← fraction rest
  let (power, rest) ← exponent rest
  return (⟨negative, whole, places, power⟩, rest)

end GotoFree.Json
