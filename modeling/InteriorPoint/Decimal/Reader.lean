import InteriorPoint.Scalar

/-!
# Decimal/Reader — doubles from text

`read?` accepts an optional sign and then either `inf`, `infinity` or `nan` in any case, or digits
with an optional point among or around them (at least one digit in all) and an optional exponent.
Nothing else may stand in the text. The decimal is rounded to the nearest double; too large is
infinite.
-/

namespace InteriorPoint.Decimal

/-- The value of a row of digits. -/
def value (cs : List Char) : Nat :=
  cs.foldl (fun n c => 10 * n + (c.toNat - '0'.toNat)) 0

/-- A leading sign, and what follows it. -/
def sign? : List Char → Bool × List Char
  | '-' :: cs => (true, cs)
  | '+' :: cs => (false, cs)
  | cs => (false, cs)

/-- The exponent at the end of a number: nothing at all, or `e`, a sign and digits. -/
def exponent? : List Char → Option Int
  | [] => some 0
  | c :: cs =>
    if c = 'e' ∨ c = 'E' then
      let (negative, ds) := sign? cs
      if !ds.isEmpty && ds.all Char.isDigit then
        some (if negative then -(value ds : Int) else value ds)
      else none
    else none

/-- `coefficient · 10 ^ exponent` as a double.  Far beyond the range of doubles, the answer does not
depend on the digits. -/
def ofDigits (coefficient : Nat) (exponent : Int) : Float :=
  let order := exponent + (Nat.toDigits 10 coefficient).length
  if coefficient = 0 ∨ order < -400 then 0.0
  else if 400 < order then Scalar.infinity
  else if exponent < 0 then Float.ofScientific coefficient true exponent.natAbs
  else Float.ofScientific coefficient false exponent.natAbs

/-- A number without its sign. -/
def magnitude? (cs : List Char) : Option Float :=
  let word := String.ofList (cs.map Char.toLower)
  if word = "inf" ∨ word = "infinity" then some Scalar.infinity
  else if word = "nan" then some (0.0 / 0.0)
  else
    let whole := cs.takeWhile Char.isDigit
    let rest := cs.dropWhile Char.isDigit
    let (places, rest) :=
      match rest with
      | '.' :: cs => (cs.takeWhile Char.isDigit, cs.dropWhile Char.isDigit)
      | cs => ([], cs)
    if whole.isEmpty && places.isEmpty then none
    else (exponent? rest).map fun e => ofDigits (value (whole ++ places)) (e - places.length)

/-- The double that a text stands for. -/
def read? (s : String) : Option Float :=
  let (negative, cs) := sign? s.toList
  (magnitude? cs).map fun x => if negative then -x else x

end InteriorPoint.Decimal
