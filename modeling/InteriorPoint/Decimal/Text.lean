import InteriorPoint.Decimal.Digits

/-!
# Decimal/Text — how numbers are written

Four layouts of a double: `plain` and `scientific` with the fewest digits that read back, `fixed`
and `scientificFixed` with a given number of places. A plain number never has an exponent, whole
numbers have no point, the sign of a zero is kept, and what is not finite is `NaN`, `inf` or
`-inf`.
-/

namespace InteriorPoint.Decimal

/-- Writes a double: `zero` and `positive` say how magnitudes look. -/
def layout (zero : String) (positive : (mantissa : Nat) → (exponent : Int) → String) (x : Float) :
    String :=
  match Reading.ofFloat x with
  | .nan => "NaN"
  | .infinite negative => (if negative then "-" else "") ++ "inf"
  | .finite negative m q =>
    (if negative then "-" else "") ++ (if m = 0 then zero else positive m q)

/-- `n` zeros. -/
def zeros (n : Nat) : List Char := List.replicate n '0'

/-- The digits with all places written out. -/
def Digits.positional (d : Digits) : String :=
  let cs := d.text
  let order := d.order
  if 0 ≤ d.exponent then String.ofList (cs ++ zeros d.exponent.toNat)
  else if 0 < order then
    String.ofList (cs.take order.toNat ++ '.' :: cs.drop order.toNat)
  else String.ofList ('0' :: '.' :: zeros (-order).toNat ++ cs)

/-- The digits with one place before the point and an exponent. -/
def Digits.scientific (d : Digits) : String :=
  let cs := d.text
  let tail := cs.drop 1
  String.ofList (cs.take 1 ++ (if tail.isEmpty then [] else '.' :: tail)) ++
    "e" ++ toString (d.order - 1)

/-- Fewest digits, no exponent. -/
def plain : Float → String :=
  layout "0" fun m q => (shortest m q).positional

/-- Fewest digits, one place before the point, with an exponent. -/
def scientific : Float → String :=
  layout "0e0" fun m q => (shortest m q).scientific

/-- A point and the digits after it, or nothing if there are none. -/
def fraction (cs : List Char) : List Char :=
  if cs.isEmpty then [] else '.' :: cs

/-- `places` digits after the point, no exponent. -/
def fixed (places : Nat) : Float → String :=
  layout (String.ofList ('0' :: fraction (zeros places))) fun m q =>
    let cs := (roundTo m q (-places)).text
    let cs := zeros (places + 1 - cs.length) ++ cs
    let whole := cs.length - places
    String.ofList (cs.take whole ++ fraction (cs.drop whole))

/-- `places` digits after the point, one before it, with an exponent. -/
def scientificFixed (places : Nat) : Float → String :=
  layout (String.ofList ('0' :: fraction (zeros places)) ++ "e0") fun m q =>
    let d := roundTo m q ((Ratio.binary m q).order - 1 - places)
    let cs := d.text
    String.ofList (cs.take 1 ++ fraction ((cs.drop 1).take places)) ++
      "e" ++ toString (d.order - 1)

/-- Puts spaces in front until the text is `width` characters wide. -/
def padLeft (width : Nat) (s : String) : String :=
  String.ofList (List.replicate (width - s.length) ' ') ++ s

/-! ## Samples -/

section Samples

example : (⟨25, -4⟩ : Digits).scientific = "2.5e-3" := by cbv

example : (⟨25, -4⟩ : Digits).positional = "0.0025" := by cbv

example : (⟨1, 21⟩ : Digits).positional = "1000000000000000000000" := by cbv

end Samples

end InteriorPoint.Decimal
