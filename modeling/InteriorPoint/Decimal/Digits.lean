/-!
# Decimal/Digits — decimal digits of a double, in exact arithmetic

A finite double is `mantissa · 2 ^ exponent`, so every question about its decimal digits is one
about natural numbers. Two answers are computed here:

* `shortest` — the fewest digits that lie inside the interval of reals rounding to the double, and
  of the two candidates with that many digits the nearer one;
* `roundTo` — the nearest multiple of a power of ten, a half going to the even neighbour.
-/

namespace InteriorPoint.Decimal

/-- **What the bits of a double say.**  A finite one is `± mantissa · 2 ^ exponent`. -/
inductive Reading where
  | nan
  | infinite (negative : Bool)
  | finite (negative : Bool) (mantissa : Nat) (exponent : Int)

/-- The least exponent of a finite double. -/
def leastExponent : Int := -1074

/-- Splits the bits into sign, eleven exponent bits and fifty-two fraction bits. -/
def Reading.ofFloat (x : Float) : Reading :=
  let bits := x.toBits.toNat
  let negative := decide (bits / Nat.pow 2 63 = 1)
  let biased : Nat := bits / Nat.pow 2 52 % Nat.pow 2 11
  let fraction := bits % Nat.pow 2 52
  if biased = 2047 then
    if fraction = 0 then .infinite negative else .nan
  else if biased = 0 then .finite negative fraction leastExponent
  else .finite negative (Nat.pow 2 52 + fraction) (Int.ofNat biased - 1075)

/-- The decimal number `coefficient · 10 ^ exponent`. -/
structure Digits where
  coefficient : Nat
  exponent : Int
  deriving DecidableEq, Repr

/-- The digits of the coefficient, most significant first. -/
def Digits.text (d : Digits) : List Char := Nat.toDigits 10 d.coefficient

/-- How many digits the decimal number has before its point: `k` with `10 ^ (k - 1) ≤ d < 10 ^ k`.
-/
def Digits.order (d : Digits) : Int := d.exponent + d.text.length

/-- The same number with no trailing zero in the coefficient. -/
def Digits.strip (coefficient : Nat) (exponent : Int) : Digits :=
  if coefficient = 0 ∨ coefficient % 10 ≠ 0 then ⟨coefficient, exponent⟩
  else Digits.strip (coefficient / 10) (exponent + 1)
termination_by coefficient
decreasing_by omega

/-! ## Fractions -/

/-- A non-negative fraction. -/
structure Ratio where
  num : Nat
  den : Nat

/-- `m · 2 ^ q` as a fraction. -/
def Ratio.binary (m : Nat) (q : Int) : Ratio :=
  ⟨m * Nat.pow 2 q.toNat, Nat.pow 2 (-q).toNat⟩

/-- The fraction divided by `10 ^ k`. -/
def Ratio.inUnits (r : Ratio) (k : Int) : Ratio :=
  ⟨r.num * Nat.pow 10 (-k).toNat, r.den * Nat.pow 10 k.toNat⟩

/-- Number of decimal digits of a natural number. -/
def width (n : Nat) : Nat := (Nat.toDigits 10 n).length

/-- For a positive fraction, the `k` with `10 ^ (k - 1) ≤ r < 10 ^ k`: the widths of numerator and
denominator leave two candidates. -/
def Ratio.order (r : Ratio) : Int :=
  let k := (width r.num : Int) - width r.den
  let u := r.inUnits k
  if u.num < u.den then k else k + 1

/-- The nearest natural number, a half going to the even neighbour. -/
def Ratio.round (r : Ratio) : Nat :=
  let q := r.num / r.den
  let rest := 2 * (r.num % r.den)
  if rest < r.den then q
  else if r.den < rest then q + 1
  else if q % 2 = 0 then q else q + 1

/-! ## Rounding to a place -/

/-- `m · 2 ^ q` rounded to a multiple of `10 ^ k`. -/
def roundTo (m : Nat) (q k : Int) : Digits :=
  ⟨((Ratio.binary m q).inUnits k).round, k⟩

/-! ## Shortest digits -/

/-- **The reals that round to `m · 2 ^ q`**, in quarters of the spacing: from `low` to `high`, the
ends belonging to it iff `m` is even.  Below a power of two the neighbours are half as far. -/
structure Interval where
  low : Nat
  high : Nat
  closed : Bool

/-- The rounding interval of a positive double. -/
def Interval.around (m : Nat) (q : Int) : Interval where
  low := if m = Nat.pow 2 52 ∧ leastExponent < q then 4 * m - 1 else 4 * m - 2
  high := 4 * m + 2
  closed := m % 2 = 0

/-- Whether `c · 10 ^ k` lies in the interval whose quarters are `2 ^ (q - 2)`. -/
def Interval.holds (i : Interval) (q : Int) (c : Nat) (k : Int) : Bool :=
  let point := c * Nat.pow 10 k.toNat * Nat.pow 2 (2 - q).toNat
  let unit := Nat.pow 2 (q - 2).toNat * Nat.pow 10 (-k).toNat
  if i.closed then i.low * unit ≤ point && point ≤ i.high * unit
  else i.low * unit < point && point < i.high * unit

/-- The candidate on the grid of multiples of `10 ^ k`: of the two neighbours of `m · 2 ^ q` those
in the interval, of both the nearer one, and of two equally near ones the larger. -/
def candidate (m : Nat) (q k : Int) : Option Nat :=
  let i := Interval.around m q
  let r := (Ratio.binary m q).inUnits k
  let below := r.num / r.den
  let downIn := i.holds q below k
  let upIn := i.holds q (below + 1) k
  if upIn && (!downIn || decide (r.den ≤ 2 * (r.num % r.den))) then some (below + 1)
  else if downIn then some below
  else none

/-- **The fewest digits that read back as `m · 2 ^ q`**, for `m` positive.  Seventeen are always
enough. -/
def shortest (m : Nat) (q : Int) : Digits :=
  let order := (Ratio.binary m q).order
  let found := (List.range 17).findSome? fun (d : Nat) =>
    let k := order - (d + 1 : Nat)
    (candidate m q k).map fun c => Digits.strip c k
  found.getD (roundTo m q (order - 17))

end InteriorPoint.Decimal
