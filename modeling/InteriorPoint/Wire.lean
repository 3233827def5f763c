import InteriorPoint.Decimal.Reader
import InteriorPoint.Options
import InteriorPoint.Record

/-!
# Wire — matrices, options and records as plain data

`Wire α` is data made of numbers, texts, lists and records with named fields. Matrices and options
are written as records and read back from records or from lists of their fields in order; a scalar
that is not finite is written as `null`, which no reader accepts as a scalar.
-/

namespace InteriorPoint

/-- **Plain data.** -/
inductive Wire (α : Type) where
  | null
  | bool (b : Bool)
  | integer (n : Int)
  | real (x : α)
  | text (s : String)
  | list (items : List (Wire α))
  | record (fields : List (String × Wire α))

namespace Wire

variable {α : Type} [Scalar α]

/-- The field of a record with a given name, if there is one.  A name that is given twice is
refused. -/
def field? (fields : List (String × Wire α)) (name : String) : Option (Option (Wire α)) :=
  match fields.filter fun p => p.1 == name with
  | [] => some none
  | [(_, w)] => some (some w)
  | _ => none

/-- The field of a record with a given name, which has to be there. -/
def required? (fields : List (String × Wire α)) (name : String) : Option (Wire α) :=
  (field? fields name).join

def ofNat (n : Nat) : Wire α := .integer n

/-- Reads a count: an integer that is not negative and below the bound. -/
def count? : Wire α → Option Nat
  | .integer n => if 0 ≤ n ∧ n < countBound then some n.toNat else none
  | _ => none

/-- A scalar; what is not finite has no number. -/
def ofScalar (x : α) : Wire α := if Scalar.isFinite x then .real x else .null

/-- Reads a scalar: any number. -/
def scalar? : Wire α → Option α
  | .integer n => some (Scalar.ofInt n)
  | .real x => some x
  | _ => none

/-- Reads a list of scalars. -/
def scalars? : Wire α → Option (Array α)
  | .list items => (items.mapM scalar?).map List.toArray
  | _ => none

end Wire

open Wire

variable {α : Type} [Scalar α]

/-! ## Matrices -/

/-- A matrix as data. -/
def Matrix.toWire (m : Matrix α) : Wire α :=
  .record [("rows", ofNat m.rows), ("cols", ofNat m.cols),
    ("data", .list (m.data.toList.map ofScalar))]

/-- A matrix as the list of its fields. -/
def Matrix.toWireList (m : Matrix α) : Wire α :=
  .list [ofNat m.rows, ofNat m.cols, .list (m.data.toList.map ofScalar)]

/-- A matrix from its three fields, if these can be read and fit. -/
def Matrix.ofFields? (rows cols data : Wire α) : Option (Except (Error α) (Matrix α)) := do
  return Matrix.ofData (← rows.count?) (← cols.count?) (← data.scalars?)

/-- **Reads a matrix**, from a record or from the list of its fields. -/
def Matrix.ofWire? : Wire α → Option (Except (Error α) (Matrix α))
  | .record fields => do
    Matrix.ofFields? (← required? fields "rows") (← required? fields "cols")
      (← required? fields "data")
  | .list [rows, cols, data] => Matrix.ofFields? rows cols data
  | _ => none

/-! ## Options -/

/-- The value of a setting as data. -/
def Amount.toWire : Amount α → Wire α
  | .real x => ofScalar x
  | .count n => ofNat n

/-- Reads the value of a setting. -/
def Setting.ofWire? (s : Setting) (w : Wire α) : Option (Amount α) :=
  if s.isCount then w.count?.map .count else w.scalar?.map .real

/-- Options as data. -/
def Options.toWire (o : Options α) : Wire α :=
  .record (Setting.all.map fun s => (s.name, (o.get s).toWire))

/-- Changes one setting to what the data says. -/
def Options.putWire? (o : Options α) (s : Setting) (w : Wire α) : Option (Options α) :=
  (s.ofWire? w).map (o.put s)

/-- **Reads options**, from a record or from a list of the settings in order. What is missing
keeps its default; other fields of a record do not count. -/
def Options.ofWire? : Wire α → Option (Options α)
  | .record fields =>
    Setting.all.foldlM (fun o s => do
      match ← field? fields s.name with
      | none => some o
      | some w => o.putWire? s w) Options.default
  | .list items =>
    if items.length ≤ Setting.all.length then
      (Setting.all.zip items).foldlM (fun o (s, w) => o.putWire? s w) Options.default
    else none
  | _ => none

/-! ## Records -/

/-- The name of a record's progress in data. -/
def Progress.name : Progress → String
  | .pending => "Pending"
  | .success => "Success"
  | .failed => "Failed"

/-- A record as data. -/
def Record.toWire (r : Record α) : Wire α :=
  .record [("x", r.x.toWire), ("primal_infeasibility", ofScalar r.primal),
    ("dual_infeasibility", ofScalar r.dual), ("status", .text r.progress.name),
    ("iteration", ofNat r.iteration), ("mu", ofScalar r.mu)]

/-! ## Numerals -/

/-- **The number that a numeral stands for.** One made of digits only, possibly with a minus sign,
is an integer if it has sixty-four bits and is not a negative zero; every other one is a scalar.
-/
def Wire.ofNumeral? (s : String) : Option (Wire Float) :=
  let (negative, cs) := Decimal.sign? s.toList
  let n := Decimal.value cs
  if !cs.isEmpty && cs.all Char.isDigit then
    if negative then
      if 0 < n ∧ n ≤ Nat.pow 2 63 then some (.integer (-n)) else (Decimal.read? s).map .real
    else if n < countBound then some (.integer n) else (Decimal.read? s).map .real
  else (Decimal.read? s).map .real

end InteriorPoint
