import InteriorPoint.Matrix.Basic

/-!
# Matrix/Text — matrices as text

One line per row, in brackets, entries with six places and an exponent.
-/

namespace InteriorPoint.Matrix

/-- The text of a matrix. -/
def text (m : Matrix Float) : String :=
  String.join (m.toRows.toList.map fun r =>
    "[" ++ ", ".intercalate (r.toList.map (Decimal.scientificFixed 6)) ++ "]\n")

end InteriorPoint.Matrix
