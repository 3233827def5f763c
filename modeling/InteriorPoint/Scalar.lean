/-!
# Scalar — the arithmetic every computation is written over

Each algorithm of the library is one definition over a type `α` with `Scalar α`.  The class carries
operations only and no law, so a definition means the same computation over doubles, where it runs,
and over an exact field, where it is reasoned about.  The instance for `Float` is the one that runs.

Derived here: `max` and `min` that pass over a NaN, absolute value, and integer powers by repeated
squaring.
-/

namespace InteriorPoint

/-- **Arithmetic on scalars.**  Comparisons are decidable relations; `==` is the arithmetic's own
equality, which need not be reflexive. -/
class Scalar (α : Type) extends Zero α, One α, Add α, Sub α, Mul α, Div α, Neg α, LT α, LE α,
    BEq α, OfScientific α where
  decidableLT : DecidableRel (LT.lt : α → α → Prop)
  decidableLE : DecidableRel (LE.le : α → α → Prop)
  /-- The scalar nearest to an integer. -/
  ofInt : Int → α
  sqrt : α → α
  exp : α → α
  /-- Natural logarithm. -/
  ln : α → α
  /-- Power with a scalar exponent. -/
  pow : α → α → α
  isFinite : α → Bool
  isNaN : α → Bool
  /-- What stands for an unbounded quantity. -/
  infinity : α
  /-- How many rounds a descent from `start` to `floor` can take if each round goes strictly down,
  to at most `ratio` times the value before it or to the floor itself. -/
  descentBound : (ratio start floor : α) → Nat

namespace Scalar

variable {α : Type} [Scalar α]

instance : DecidableRel (LT.lt : α → α → Prop) := Scalar.decidableLT

instance : DecidableRel (LE.le : α → α → Prop) := Scalar.decidableLE

/-- The larger of two scalars; of equal ones the second, and beside a NaN the other. -/
def max (a b : α) : α :=
  if isNaN a then b else if a ≤ b then b else a

/-- The smaller of two scalars; of equal ones the second, and beside a NaN the other. -/
def min (a b : α) : α :=
  if isNaN a then b else if b ≤ a then b else a

/-- Absolute value.  A scalar that is not above zero is taken from zero rather than negated, so
that both zeros of an arithmetic with signed zeros give the positive one. -/
def abs (a : α) : α :=
  if a ≤ 0 then 0 - a else a

/-- **The loop of repeated squaring**: the result is `acc` times `base` to the power `n`, taking the
binary digits of `n` from the lowest. -/
def squaring (base acc : α) (n : Nat) : α :=
  if n = 0 then acc
  else
    let acc := if n % 2 = 1 then acc * base else acc
    if n / 2 = 0 then acc else squaring (base * base) acc (n / 2)
termination_by n
decreasing_by omega

/-- Integer power: repeated squaring on the size of the exponent, and one reciprocal if it is
negative. -/
def powInt (base : α) (n : Int) : α :=
  let r := squaring base 1 n.natAbs
  if n < 0 then 1 / r else r

end Scalar

/-- **Doubles.**  A chain of doubles that goes strictly down has fewer than `2 ^ 64` members, so
that many rounds are enough for every descent. -/
instance : Scalar Float where
  zero := 0.0
  one := 1.0
  decidableLT := inferInstanceAs (DecidableRel (LT.lt : Float → Float → Prop))
  decidableLE := inferInstanceAs (DecidableRel (LE.le : Float → Float → Prop))
  ofInt := Float.ofInt
  sqrt := Float.sqrt
  exp := Float.exp
  ln := Float.log
  pow := Float.pow
  isFinite := Float.isFinite
  isNaN := Float.isNaN
  infinity := 1.0 / 0.0
  descentBound := fun _ _ _ => Nat.pow 2 64

end InteriorPoint
