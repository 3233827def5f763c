import InteriorPoint.Decimal.Reader
import InteriorPoint.Solver

/-!
# Demo — a small program, solved and tabulated

    min  -1000 exp(-(x₀x₁ - 1.5)² - (x₁ - 1.5)²)
    s.t. x₀ - x₁² = 0
         -x₀⁴ + x₁ + 1 ≥ 0

The command takes the two coordinates of the starting point, or none for the default one, and
prints a line per record.
-/

namespace InteriorPoint.Demo

open Formula

def x₀ : Formula Float := .input 0

def x₁ : Formula Float := .input 1

def objective : Formula Float :=
  .mul
    (.exp (.sub (.neg (.powInt (.sub (.mul x₀ x₁) (const 1.5)) 2))
      (.powInt (.sub x₁ (const 1.5)) 2)))
    (const (-1000.0))

def equality : Formula Float := .sub x₀ (.powInt x₁ 2)

def inequality : Formula Float := .add (.add (.neg (.powInt x₀ 4)) x₁) (const 1.0)

/-- The program of the demonstration, started from a point. -/
def draft (start : Matrix Float) : Draft Float :=
  (((Draft.empty.withDualObjective objective.function).withConstraint
    (.ofDual .equality (.ofFunction equality.function))).withConstraint
      (.ofDual .inequality (.ofFunction inequality.function))).withInitialGuess start

/-- The starting point that the arguments give: two coordinates, or none. -/
def start? (args : List String) : Option (Matrix Float) :=
  match args.mapM Decimal.read? with
  | some [] => some (.column #[2.5, 2.5])
  | some [a, b] => some (.column #[a, b])
  | _ => none

/-- Cells of a line of the table, each in its column. -/
def line (cells : List String) : String :=
  " ".intercalate (List.zipWith Decimal.padLeft [5, 9, 14, 14, 12, 12] cells)

def header : String := line ["iter", "status", "x0", "x1", "primal inf", "dual inf"]

/-- The line for a record. -/
def row (r : Record Float) : String :=
  line ([toString r.iteration, r.progress.text] ++
    r.x.data.toList.map (Decimal.fixed 8) ++
    [Decimal.scientificFixed 3 r.primal, Decimal.scientificFixed 3 r.dual])

/-- The lines for a stream of records, and whether no error came up. -/
def rows (items : List (Except (Error Float) (Record Float))) : List String × Bool :=
  (items.filterMap fun item => item.toOption.map row, items.all (·.isOk))

/-- **The whole command**: the lines it prints and its exit code. -/
def run (args : List String) : List String × UInt8 :=
  match start? args with
  | none => ([], 1)
  | some start =>
    match (draft start).build with
    | .error _ => ([], 1)
    | .ok p =>
      match Solver.create p p.initialGuess Options.default with
      | .error _ => ([], 1)
      | .ok solver =>
        let (lines, ok) := rows (solver.drain.1.map Traced.result)
        (header :: lines, if ok then 0 else 1)

end InteriorPoint.Demo
