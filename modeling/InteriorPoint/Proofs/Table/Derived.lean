import Mathlib
import InteriorPoint.Proofs.Curvature
import InteriorPoint.Proofs.Jacobian
import InteriorPoint.Proofs.Table.Product

/-!
# Proofs/Table/Derived — solving, the damped update, derivatives and reading

These operations are put together from others, or use arrays of their own: one for elimination and
one for substitution, the inputs of a function that are set moving one by one, and the columns of
tangents that its passes find.  What a matrix is read from is read as a table first.
-/

namespace InteriorPoint.Table

variable {α : Type} [Scalar α]

/-! ## Linear systems -/

/-- Substitution in place, after the elimination. -/
theorem follows_substitute {n : ℕ} (e : Elimination α n) (b : Matrix α) :
    Follows Matrix.table (if b.cols = 1 ∧ b.rows = n then do
        let x ← within ((Buffer.numbers e.order).mapM (b.data[·]?))
        let x ← within ((Buffer.ofPacked e).forward x)
        let x ← within ((Buffer.ofPacked e).backward x)
        return column x
      else throw (.mismatch .solve (n, n) b.shape))
      (Factorization.solve ⟨n, e.order, some e⟩ b) := by
  refine follows_dite (q := b.cols = 1 ∧ b.rows = n) Iff.rfl fun hb => ?_
  rw [within_bind (Buffer.mapM_numbers e.order hb), within_bind (Buffer.forward_ofPacked e _),
    within_bind (Buffer.backward_ofPacked e _)]
  exact follows_table rfl

theorem follows_solve (a b : Matrix α) :
    Follows Matrix.table (solve a.table b.table) (solveLinearSystem a b) := by
  rw [solve, solveLinearSystem, Factorization.factorize]
  by_cases ha : a.cols = a.rows
  · rw [if_pos (show a.table.rows = a.table.cols from ha.symm), dif_pos ha, Matrix.rows_table,
      Matrix.data_table, within_bind (Buffer.Represents.columns_data ha)]
    rcases Factorization.eliminate a ha with e | ⟨k, e⟩
    · exact follows_substitute e b
    · exact follows_error _
  · rw [if_neg (show ¬a.table.rows = a.table.cols from Ne.symm ha), dif_neg ha]
    exact follows_error _

/-! ## The damped update -/

omit [Scalar α] in
/-- What is let through as a column. -/
theorem cols_of_requireColumn {op : Operation} {m : Matrix α} {u : Unit}
    (h : m.requireColumn op = .ok u) : m.cols = 1 := by
  by_contra hcols
  rw [Matrix.requireColumn, if_neg hcols] at h
  exact nomatch h

/-- Columns that have an inner product. -/
theorem shape_of_dot {a b : Matrix α} {d : α} (h : a.dot b = .ok d) : a.shape = b.shape := by
  obtain ⟨_, _, h⟩ := bind_eq_ok.mp h
  by_contra hshape
  rw [if_neg hshape] at h
  exact nomatch h

/-- Factors that have a product, and its shape. -/
theorem fits_of_multiply {a b c : Matrix α} (h : a.multiply b = .ok c) :
    a.cols = b.rows ∧ c.shape = (a.rows, b.cols) := by
  by_cases hfit : a.cols = b.rows
  · have hb : b.shape = (a.cols, b.cols) := congrArg (·, b.cols) hfit.symm
    exact ⟨hfit, Matrix.shape_of_multiply_eq_ok rfl hb h⟩
  · rw [Matrix.multiply, dif_neg hfit] at h
    cases h

/-- All pairs of entries of a column, in their places. -/
theorem exists_outer_coeff {v : Matrix α} {n : ℕ} (hv : v.shape = (n, 1)) (d : α) :
    ∃ m, Curvature.outer v d = .ok m ∧ m.shape = (n, n) ∧
      ∀ i < n, ∀ j < n, m.coeff i j = v.coeff i 0 * v.coeff j 0 / d := by
  obtain ⟨rfl, hcols⟩ := Matrix.shape_eq_iff.mp hv
  refine ⟨_, dif_pos hcols, rfl, fun i hi j hj => ?_⟩
  rw [Matrix.coeff_ofFn hi hj, Matrix.entry_eq_coeff, Matrix.entry_eq_coeff]

/-- Matrices of one shape joined, in all of their places. -/
theorem exists_zipWith?_coeff {op : Operation} {f : α → α → α} {a b : Matrix α} {rows cols : ℕ}
    (ha : a.shape = (rows, cols)) (hb : b.shape = (rows, cols)) :
    ∃ c, Matrix.zipWith? op f a b = .ok c ∧ c.shape = (rows, cols) ∧
      ∀ i < rows, ∀ j < cols, c.coeff i j = f (a.coeff i j) (b.coeff i j) := by
  refine ⟨_, Matrix.zipWith?_eq_ok (ha.trans hb.symm), ha, fun i hi j hj => ?_⟩
  obtain ⟨rfl, rfl⟩ := Matrix.shape_eq_iff.mp ha
  exact coeff_zipWith f _ _ hi hj

/-- **The corrected model**, entry by entry: what is computed with whole matrices is computed in
every place on its own. -/
theorem follows_correct {q qs r : Matrix α} {n : ℕ} (hq : q.shape = (n, n))
    (hqs : qs.shape = (n, 1)) (hr : r.shape = (n, 1)) (sqs sr : α) :
    Follows Matrix.table (within (fill n n fun i j => do
        return (← q.table.get i j) - (← qs.table.get i 0) * (← qs.table.get j 0) / sqs +
          (← r.table.get i 0) * (← r.table.get j 0) / sr))
      (do (← q.subtract (← Curvature.outer qs sqs)).add (← Curvature.outer r sr)) := by
  obtain ⟨down, hdown, hdowns, hdownEntry⟩ := exists_outer_coeff hqs sqs
  obtain ⟨lowered, hlowered, hlowereds, hloweredEntry⟩ : ∃ m, q.subtract down = .ok m ∧ _ :=
    exists_zipWith?_coeff hq hdowns
  obtain ⟨up, hup, hups, hupEntry⟩ := exists_outer_coeff hr sr
  obtain ⟨next, hnext, hnexts, hnextEntry⟩ : ∃ m, lowered.add up = .ok m ∧ _ :=
    exists_zipWith?_coeff hlowereds hups
  have hentry : ∀ i < n, ∀ j < n, (do
      return (← q.table.get i j) - (← qs.table.get i 0) * (← qs.table.get j 0) / sqs +
        (← r.table.get i 0) * (← r.table.get j 0) / sr) = some (next.coeff i j) := by
    intro i hi j hj
    rw [get_table hq hi hj, get_table hqs hi Nat.one_pos, get_table hqs hj Nat.one_pos,
      get_table hr hi Nat.one_pos, get_table hr hj Nat.one_pos, hnextEntry i hi j hj,
      hloweredEntry i hi j hj, hdownEntry i hi j hj, hupEntry i hi j hj]
    rfl
  rw [hdown, ok_bind, hlowered, ok_bind, hup, ok_bind, hnext, fill_eq hentry]
  exact follows_table (table_eq hnexts fun _ _ _ _ => rfl)

theorem follows_update (s y q : Matrix α) :
    Follows Matrix.table (update s.table y.table q.table) (Curvature.update s y q) := by
  refine (follows_requireColumn .curvature s).bind fun _ hs => ?_
  by_cases hy : y.shape = s.shape
  · rw [if_pos (show y.table.shape = s.table.shape from hy), if_neg (not_not.mpr hy)]
    refine (follows_multiply q s).bind fun qs hqs => (follows_dot s qs).bind fun sqs hsqs => ?_
    refine (follows_settled _).bind fun _ _ => (follows_dot s y).bind fun sy _ => ?_
    refine (follows_zipWith .add (· + ·) (y.scale _) (qs.scale _)).bind fun r hr => ?_
    refine (follows_dot s r).bind fun sr _ => (follows_settled _).bind fun _ _ => ?_
    have hss : s.shape = (s.rows, 1) := congrArg (s.rows, ·) (cols_of_requireColumn hs)
    have hqss : qs.shape = (s.rows, 1) := (shape_of_dot hsqs).symm.trans hss
    have hrs : r.shape = (s.rows, 1) := (Matrix.shape_of_zipWith?_eq_ok hr).trans (hy.trans hss)
    obtain ⟨hfit, hshape⟩ := fits_of_multiply hqs
    have hrows : q.rows = s.rows := (Prod.ext_iff.mp (hshape.symm.trans hqss)).1
    have hq : q.shape = (s.rows, s.rows) := Matrix.shape_eq_iff.mpr ⟨hrows, hfit⟩
    rw [Matrix.rows_table, hrows]
    exact follows_correct hq hqss hrs sqs sr
  · rw [if_neg (show ¬y.table.shape = s.table.shape from hy), if_pos hy]
    exact follows_error _

/-! ## Derivatives -/

omit [Scalar α] in
/-- **One input gets a speed**, and the others keep theirs. -/
theorem setSpeed_eq {inputs outputs : Array (Dual α)} {j : ℕ} {speed : α} (hj : j < inputs.size)
    (hsize : outputs.size = inputs.size) (h : ∀ (i : ℕ) (hi : i < inputs.size),
      outputs[i] = if i = j then ⟨inputs[i].re, speed⟩ else inputs[i]) :
    setSpeed inputs j speed = some outputs := by
  rw [setSpeed, Array.getElem?_eq_getElem hj]
  refine (dif_pos hj).trans (congrArg some (Array.ext ?_ fun i hi hi' => ?_))
  · rw [Array.size_set, hsize]
  · rw [h i (hsize ▸ hi'), Array.getElem_set]
    by_cases hij : j = i
    · subst hij
      rw [if_pos rfl]
    · rw [if_neg hij, if_neg (Ne.symm hij)]

/-- An input is set moving… -/
theorem setSpeed_resting {xs : Array α} {j : ℕ} (hj : j < xs.size) :
    setSpeed (DualMap.resting xs) j 1 = some (DualMap.seeded xs j) := by
  refine setSpeed_eq ?_ ?_ fun i hi => ?_
  · rwa [DualMap.resting, Array.size_map]
  · rw [DualMap.seeded, DualMap.resting, Array.size_mapIdx, Array.size_map]
  · simp only [DualMap.seeded, DualMap.resting, Array.getElem_mapIdx, Array.getElem_map]
    rfl

/-- …and brought to rest. -/
theorem setSpeed_seeded {xs : Array α} {j : ℕ} (hj : j < xs.size) :
    setSpeed (DualMap.seeded xs j) j 0 = some (DualMap.resting xs) := by
  refine setSpeed_eq ?_ ?_ fun i hi => ?_
  · rwa [DualMap.seeded, Array.size_mapIdx]
  · rw [DualMap.seeded, DualMap.resting, Array.size_mapIdx, Array.size_map]
  · simp only [DualMap.seeded, DualMap.resting, Array.getElem_mapIdx, Array.getElem_map]
    split <;> rfl

/-- The rows of a matrix, as arrays. -/
def lines (m : Matrix α) : Array (Array α) :=
  Array.ofFn fun i : Fin m.rows => Array.ofFn fun j : Fin m.cols => m.coeff i j

theorem getElem?_lines {m : Matrix α} {i : ℕ} (hi : i < m.rows) :
    (lines m)[i]? = some (Array.ofFn fun j : Fin m.cols => m.coeff i j) := by
  rw [lines, Array.getElem?_ofFn, dif_pos hi]

theorem coeff_row {xs : Array α} {j : ℕ} (hj : j < xs.size) :
    (Matrix.row xs).coeff 0 j = xs[j] := by
  rw [Matrix.coeff_of_lt (m := Matrix.row xs) Nat.one_pos hj]
  simp [Matrix.get, Matrix.row]

theorem ofFn_coeff_row (xs : Array α) :
    (Array.ofFn fun j : Fin xs.size => (Matrix.row xs).coeff 0 j) = xs :=
  Array.ext Array.size_ofFn fun _ _ hj => (Array.getElem_ofFn ..).trans (coeff_row hj)

theorem lines_row (xs : Array α) : lines (Matrix.row xs) = #[xs] :=
  Array.ofFn_succ.trans (congrArg #[].push (ofFn_coeff_row xs))

theorem lines_above {m : Matrix α} {xs : Array α} (h : m.cols = (Matrix.row xs).cols) :
    lines (m.above (Matrix.row xs) h) = (lines m).push xs := by
  have hlast : (Array.ofFn fun j : Fin m.cols => (Matrix.row xs).coeff 0 j) = xs := by
    rw [h]
    exact ofFn_coeff_row xs
  refine Array.ofFn_succ.trans (congrArg₂ Array.push ?_ ?_)
  · refine congrArg Array.ofFn (funext fun i => congrArg Array.ofFn (funext fun j => ?_))
    exact (Matrix.coeff_above ..).trans (if_pos i.isLt)
  · refine Eq.trans (congrArg Array.ofFn (funext fun j => ?_)) hlast
    refine (Matrix.coeff_above ..).trans ((if_neg (lt_irrefl m.rows)).trans ?_)
    exact congrArg (fun i => (Matrix.row xs).coeff i j) (Nat.sub_self m.rows)

/-- What is kept between passes: the inputs at rest, and the rows of tangents. -/
def kept (x acc : Matrix α) : Array (Dual α) × Array (Array α) :=
  (DualMap.resting x.data, lines acc)

/-- **The first pass.** -/
theorem follows_firstPass (f : DualMap α) {x : Matrix α} {j : ℕ} (hj : j < x.data.size) :
    Follows (kept x) (pass f x.rows (DualMap.resting x.data, #[]) j) (f.tangents x j) := by
  rw [pass, DualMap.tangents, within_bind (setSpeed_resting hj)]
  refine (follows_settled _).bind fun outputs _ => ?_
  have hkept : kept x (Matrix.row (outputs.map Dual.eps)) =
      (DualMap.resting x.data, #[].push (outputs.map Dual.eps)) :=
    congrArg (DualMap.resting x.data, ·) (lines_row _)
  simp only [id, within_bind (setSpeed_seeded hj)]
  exact hkept ▸ follows_ok (Matrix.row (outputs.map Dual.eps))

/-- **Every other pass** adds a row, and has to find as many results as the rows are long. -/
theorem follows_pass (f : DualMap α) {x acc : Matrix α} {j : ℕ} (hj : j < x.data.size)
    (hacc : 0 < acc.rows) :
    Follows (kept x) (pass f x.rows (kept x acc) j) (DualMap.placePass f x acc j) := by
  rw [pass, DualMap.placePass, DualMap.tangents, kept, within_bind (setSpeed_resting hj),
    bind_assoc]
  refine (follows_settled _).bind fun outputs _ => ?_
  have hnext : (Matrix.row (outputs.map Dual.eps)).cols = outputs.size := Array.size_map
  simp only [id, within_bind (setSpeed_seeded hj), getElem?_lines hacc, pure_bind, Array.size_ofFn]
  by_cases h : acc.cols = outputs.size
  · have hkept : kept x (acc.above (Matrix.row (outputs.map Dual.eps)) (h.trans hnext.symm)) =
        (DualMap.resting x.data, (lines acc).push (outputs.map Dual.eps)) :=
      congrArg (DualMap.resting x.data, ·) (lines_above _)
    rw [if_pos h, dif_pos (h.trans hnext.symm), ← hkept]
    exact follows_ok _
  · rw [if_neg h, dif_neg fun h' => h (h'.trans hnext), hnext]
    exact follows_error _

theorem rows_of_placePass {f : DualMap α} {x acc next : Matrix α} {j : ℕ}
    (h : DualMap.placePass f x acc j = .ok next) : next.rows = acc.rows + 1 := by
  obtain ⟨tangents, htangents, h⟩ := bind_eq_ok.mp h
  obtain ⟨outputs, _, htangents⟩ := bind_eq_ok.mp htangents
  obtain rfl := pure_eq_ok.mp htangents
  split at h
  · rw [← pure_eq_ok.mp h]
    rfl
  · cases h

/-- **The columns are read off** at the end. -/
theorem fill_lines {m : Matrix α} :
    fill m.cols m.rows (fun i j => do (← (lines m)[j]?)[i]?) = some m.transpose.table := by
  refine fill_table fun i j => ?_
  rw [getElem?_lines j.isLt]
  refine (Array.getElem?_ofFn ..).trans ((dif_pos i.isLt).trans (congrArg some ?_))
  exact Matrix.coeff_val m j i

/-- **The passes after the first one**: there are as many rows in the end as there are inputs. -/
theorem follows_passes (f : DualMap α) {x first : Matrix α} (hx : x.data.size = x.rows)
    (hfirst : 0 < first.rows) (js : List ℕ) (hcount : first.rows + js.length = x.rows)
    (hjs : ∀ j ∈ js, j < x.rows) :
    Follows (kept x) (js.foldlM (pass f x.rows) (kept x first))
        (js.foldlM (DualMap.placePass f x) first) ∧
      ∀ stacked, js.foldlM (DualMap.placePass f x) first = .ok stacked →
        0 < stacked.rows ∧ stacked.rows = x.rows := by
  refine And.imp_right (fun hend stacked h => (hend stacked h).imp_right And.left)
    (Follows.foldlM (P := fun js acc =>
      0 < acc.rows ∧ acc.rows + js.length = x.rows ∧ ∀ j ∈ js, j < x.rows)
      (fun j js acc hacc => ?_) ⟨hfirst, hcount, hjs⟩)
  obtain ⟨hpos, hcount, hmem⟩ := hacc
  obtain ⟨hj, hjs⟩ := List.forall_mem_cons.mp hmem
  refine ⟨follows_pass f (hx ▸ hj) hpos, fun next hnext => ?_⟩
  have hrows := rows_of_placePass hnext
  rw [List.length_cons] at hcount
  exact ⟨by omega, by omega, hjs⟩

theorem follows_jacobian (f : DualMap α) (x : Matrix α) :
    Follows Matrix.table (jacobian f x.table) (f.jacobian x) := by
  refine (follows_requireColumn .jacobian x).bind fun _ hx => ?_
  have hsize : x.data.size = x.rows := by
    rw [x.size_eq, cols_of_requireColumn hx, Nat.mul_one]
  rw [Matrix.rows_table]
  by_cases hrows : x.rows = 0
  · rw [if_pos hrows, hrows, List.range_zero]
    exact (follows_settled _).bind fun outputs _ => follows_table rfl
  · obtain ⟨n, hn⟩ := Nat.exists_eq_succ_of_ne_zero hrows
    have hrange : List.range x.rows = 0 :: (List.range n).map Nat.succ := by
      rw [hn, List.range_succ_eq_map]
    have hspan : span 0 x.rows = List.range x.rows := List.range_eq_range'.symm
    rw [if_neg hrows, hspan, hrange, List.foldlM_cons, bind_assoc]
    refine (follows_firstPass f (by omega)).bind fun first hfirst => ?_
    have hone : first.rows = 1 := by
      obtain ⟨outputs, _, h⟩ := bind_eq_ok.mp hfirst
      exact pure_eq_ok.mp h ▸ rfl
    obtain ⟨hfollows, hend⟩ := follows_passes f hsize (hone.symm ▸ Nat.one_pos)
      ((List.range n).map Nat.succ) (by simp [hone]; omega) (by simp; omega)
    refine hfollows.bind fun stacked hstacked => ?_
    obtain ⟨hpos, hstacked⟩ := hend stacked hstacked
    simp only [kept, within_bind (getElem?_lines hpos), Array.size_ofFn, ← hstacked, fill_lines]
    exact follows_table rfl

theorem follows_gradient (f : DualFunction α) (x : Matrix α) :
    Follows Matrix.table (gradient f x.table) (f.gradient x) := by
  refine (follows_jacobian (DualMap.ofFunction f) x).bind fun j _ => ?_
  rw [transpose_table]
  exact follows_table rfl

/-! ## Data -/

/-- The matrix with the parts of a table, if they fit. -/
def checked (t : Table α) : Except (Error α) (Matrix α) := Matrix.ofData t.rows t.cols t.data

theorem ofFields?_matrix (rows cols data : Wire α) :
    Matrix.ofFields? rows cols data = (ofFields? rows cols data).map checked := by
  rw [Matrix.ofFields?, ofFields?]
  rcases rows.count? with _ | rows
  · rfl
  rcases cols.count? with _ | cols
  · rfl
  rcases data.scalars? with _ | data
  · rfl
  · rfl

/-- **A matrix is read as a table is**, and is then checked. -/
theorem ofWire?_matrix : ∀ w : Wire α, Matrix.ofWire? w = (ofWire? w).map checked
  | .record fields => by
    rw [Matrix.ofWire?, ofWire?]
    rcases Wire.required? fields "rows" with _ | rows
    · rfl
    rcases Wire.required? fields "cols" with _ | cols
    · rfl
    rcases Wire.required? fields "data" with _ | data
    · rfl
    · exact ofFields?_matrix rows cols data
  | .list [rows, cols, data] => ofFields?_matrix rows cols data
  | .list [] | .list [_] | .list [_, _] | .list (_ :: _ :: _ :: _ :: _) => rfl
  | .null | .bool _ | .integer _ | .real _ | .text _ => rfl

end InteriorPoint.Table
