import Mathlib
import InteriorPoint.Proofs.Elimination.Triangles

/-!
# Proofs/Elimination/Buffer — elimination within one array

`Buffer` is a linear solver that keeps one array of entries, row after row, and the row order as
numbers.  It eliminates in place, entry by entry, and whatever it reads, writes or exchanges it
looks up first: an index out of range ends the computation with `none`.

An array that holds the entries of a square (`flat`) is read and written at the places of the
square, so every loop is followed by what it leaves in the square (`foldlM_simulates`,
`foldlM_done`).  In this way elimination in place is elimination by rows, and no index is out of
range.

* `Represents.factorize`, `Represents.solve` — a buffer that represents a factorization answers as
  that does, and represents the next one afterwards.
-/

namespace InteriorPoint

/-! ## Loops that can fail -/

section Loops

variable {σ τ : Type} {n : ℕ} {f : σ → ℕ → Option σ} {l : List (Fin n)}

/-- **A loop that follows another one**, which cannot fail. -/
theorem foldlM_simulates {g : τ → Fin n → τ} (view : τ → σ)
    (h : ∀ t, ∀ x ∈ l, f (view t) x = some (view (g t x))) (t : τ) :
    (l.map Fin.val).foldlM f (view t) = some (view (l.foldl g t)) := by
  induction l generalizing t with
  | nil => rfl
  | cons x l ih =>
    have hl : ∀ t, ∀ y ∈ l, f (view t) y = some (view (g t y)) :=
      fun t y hy => h t y (List.mem_cons_of_mem x hy)
    rw [List.map_cons, List.foldlM_cons, h t x List.mem_cons_self, List.foldl_cons]
    exact ih hl (g t x)

/-- **A loop whose state is known after each of its indices.** -/
theorem foldlM_done (state : List (Fin n) → σ) (hl : l.Nodup)
    (h : ∀ done, ∀ x ∈ l, x ∉ done → f (state done) x = some (state (done ++ [x]))) :
    (l.map Fin.val).foldlM f (state []) = some (state l) := by
  suffices hgo : ∀ done, (∀ x ∈ l, x ∉ done) →
      (l.map Fin.val).foldlM f (state done) = some (state (done ++ l)) from hgo [] (by simp)
  induction l with
  | nil => simp
  | cons x l ih =>
    intro done hdone
    obtain ⟨hx, hl⟩ := List.nodup_cons.mp hl
    have hfresh : ∀ y ∈ l, y ∉ done ++ [x] := by
      intro y hy
      have hne : y ≠ x := fun h => hx (h ▸ hy)
      simp [hdone y (List.mem_cons_of_mem x hy), hne]
    rw [List.map_cons, List.foldlM_cons, h done x List.mem_cons_self (hdone x List.mem_cons_self)]
    refine (ih hl (fun d y hy => h d y (List.mem_cons_of_mem x hy)) (done ++ [x]) hfresh).trans ?_
    rw [List.append_assoc, List.singleton_append]

/-- The numbers from `lo` up to `hi`. -/
def span (lo hi : ℕ) : List ℕ := List.range' lo (hi - lo)

theorem mem_span {lo hi i : ℕ} : i ∈ span lo hi ↔ lo ≤ i ∧ i < hi := by
  rw [span, List.mem_range'_1]
  omega

/-- Numbers in range are found in their order among all of them. -/
theorem span_eq_filter {lo hi : ℕ} {p : Fin n → Bool}
    (h : ∀ i, (lo ≤ i ∧ i < hi) ↔ ∃ hi : i < n, p ⟨i, hi⟩ = true) :
    span lo hi = ((List.finRange n).filter p).map Fin.val := by
  refine List.Pairwise.eq_of_mem_iff List.pairwise_lt_range' ?_ fun i => ?_
  · exact ((List.pairwise_lt_finRange n).filter p).map Fin.val fun _ _ hlt => hlt
  · rw [mem_span, h, List.mem_map]
    constructor
    · rintro ⟨hi, hp⟩
      exact ⟨⟨i, hi⟩, List.mem_filter.mpr ⟨List.mem_finRange _, hp⟩, rfl⟩
    · rintro ⟨j, hj, rfl⟩
      exact ⟨j.isLt, (List.mem_filter.mp hj).2⟩

theorem span_zero (n : ℕ) : span 0 n = (List.finRange n).map Fin.val := by
  rw [span, Nat.sub_zero, ← List.range_eq_range']
  exact List.map_coe_finRange_eq_range.symm

/-- The rows below row `k`, as numbers. -/
theorem span_below (k : Fin n) : span (k + 1) n = (Elimination.below k).map Fin.val := by
  refine span_eq_filter fun i => ?_
  simp only [decide_eq_true_eq, Fin.lt_def, exists_prop]
  omega

/-- The rows above row `k`, as numbers. -/
theorem span_above (k : Fin n) :
    span 0 k = ((List.finRange n).filter (· < k)).map Fin.val := by
  refine span_eq_filter fun i => ?_
  simp only [decide_eq_true_eq, Fin.lt_def, exists_prop]
  omega

end Loops

/-! ## A linear solver that keeps one array -/

/-- **What a linear solver stores**: the entries of the last square matrix, as far as it was
eliminated, the row order, and whether elimination went through. -/
structure Buffer (α : Type) where
  lu : Array α
  perm : Array ℕ
  n : ℕ
  factorized : Bool

namespace Buffer

section Definitions

variable {α : Type}

/-- Before any matrix was given. -/
def empty : Buffer α := ⟨#[], #[], 0, false⟩

/-- Writes into an array, if the index is in range. -/
def write {β : Type} (a : Array β) (i : ℕ) (v : β) : Option (Array β) :=
  if h : i < a.size then some (a.set i v h) else none

/-- Exchanges two members of an array, if both indices are in range. -/
def exchange {β : Type} (a : Array β) (i j : ℕ) : Option (Array β) :=
  if h : i < a.size ∧ j < a.size then some (a.swap i j h.1 h.2) else none

/-- Exchanges rows `k` and `p` entry by entry. -/
def exchangeRows (n k p : ℕ) (lu : Array α) : Option (Array α) :=
  (span 0 n).foldlM (fun lu j => exchange lu (k * n + j) (p * n + j)) lu

variable [Scalar α]

/-- The row with the largest entry in column `k` from row `k` down, and the size of that entry. -/
def scan (n : ℕ) (lu : Array α) (k : ℕ) : Option (ℕ × α) := do
  let first ← lu[k * n + k]?
  (span (k + 1) n).foldlM (fun best i => do
    let size := Scalar.abs (← lu[i * n + k]?)
    return if best.2 < size then (i, size) else best) (k, Scalar.abs first)

/-- Subtracts a multiple of row `k` from row `i`, to the right of column `k`. -/
def subtractRow (n k i : ℕ) (mult : α) (lu : Array α) : Option (Array α) :=
  (span (k + 1) n).foldlM (fun lu j => do
    let old ← lu[i * n + j]?
    let top ← lu[k * n + j]?
    write lu (i * n + j) (old - mult * top)) lu

/-- Leaves the multiplier of row `i` in column `k`, and subtracts the multiple of row `k`. -/
def reduceRow (n k : ℕ) (pivot : α) (lu : Array α) (i : ℕ) : Option (Array α) := do
  let mult := (← lu[i * n + k]?) / pivot
  subtractRow n k i mult (← write lu (i * n + k) mult)

/-- Exchanges rows `k` and `p` in both arrays, if they are different. -/
def raise (n k p : ℕ) (lu : Array α) (perm : Array ℕ) : Option (Array α × Array ℕ) :=
  if p = k then some (lu, perm)
  else return (← exchangeRows n k p lu, ← exchange perm k p)

/-- **Eliminates in column `k`**; the result is empty if there is no pivot. -/
def column (n : ℕ) (lu : Array α) (perm : Array ℕ) (k : ℕ) :
    Option (Option (Array α × Array ℕ)) := do
  let (p, size) ← scan n lu k
  if size == 0 then return none
  let (lu, perm) ← raise n k p lu perm
  let pivot ← lu[k * n + k]?
  let lu ← (span (k + 1) n).foldlM (reduceRow n k pivot) lu
  return some (lu, perm)

/-- Eliminates in one column after the other.  A column without a pivot is given back with what is
in the arrays. -/
def columns (n : ℕ) (lu : Array α) (perm : Array ℕ) :
    List ℕ → Option (Array α × Array ℕ × Option ℕ)
  | [] => some (lu, perm, none)
  | k :: ks => do
    match ← column n lu perm k with
    | none => return (lu, perm, some k)
    | some (lu, perm) => columns n lu perm ks

/-- **Factorizes a matrix** in place. -/
def factorize (s : Buffer α) (a : Matrix α) : Option (Buffer α × Except (Error α) Unit) :=
  if a.rows ≠ a.cols then
    some (s, .error (.mismatch .factorize a.shape (a.rows, a.rows)))
  else do
    match ← columns a.rows a.data (span 0 a.rows).toArray (span 0 a.rows) with
    | (lu, perm, none) => return (⟨lu, perm, a.rows, true⟩, .ok ())
    | (lu, perm, some k) => return (⟨lu, perm, a.rows, false⟩, .error (.singular k))

/-- Subtracts from `start` the products of row `i` and `x` at the given places. -/
def subtract (s : Buffer α) (x : Array α) (i : ℕ) (start : α) (places : List ℕ) : Option α :=
  places.foldlM (fun sum j => do return sum - (← s.lu[i * s.n + j]?) * (← x[j]?)) start

/-- Solves with the unit lower triangle, from the first row down. -/
def forward (s : Buffer α) (x : Array α) : Option (Array α) :=
  (span 0 s.n).foldlM (fun x i => do
    let sum ← s.subtract x i (← x[i]?) (span 0 i)
    write x i sum) x

/-- Solves with the upper triangle, from the last row up. -/
def backward (s : Buffer α) (x : Array α) : Option (Array α) :=
  (span 0 s.n).reverse.foldlM (fun x i => do
    let sum ← s.subtract x i (← x[i]?) (span (i + 1) s.n)
    write x i (sum / (← s.lu[i * s.n + i]?))) x

/-- **Solves with what is stored.** -/
def solve (s : Buffer α) (b : Matrix α) : Option (Except (Error α) (Matrix α)) :=
  if !s.factorized then some (.error (.mismatch .solve (0, 0) b.shape))
  else if !b.isColumn || b.rows ≠ s.n then some (.error (.mismatch .solve (s.n, s.n) b.shape))
  else do
    let x ← s.perm.mapM (b.data[·]?)
    let x ← s.forward x
    let x ← s.backward x
    return .ok (Matrix.column x)

end Definitions

/-! ## An array that holds a square -/

section Flat

variable {α : Type} {n : ℕ} {f : Fin n → Fin n → α}

/-- The entries of a square, row after row. -/
def flat (f : Fin n → Fin n → α) : Array α := (Matrix.ofFn n n f).data

theorem size_flat (f : Fin n → Fin n → α) : (flat f).size = n * n := (Matrix.ofFn n n f).size_eq

theorem place_lt_size (f : Fin n → Fin n → α) (i j : Fin n) : i * n + j < (flat f).size :=
  size_flat f ▸ Matrix.place_lt i.isLt j.isLt

/-- Two entries are in one place only if they are the same one. -/
theorem place_inj {i k j l : Fin n} : i.val * n + j = k * n + l ↔ i = k ∧ j = l := by
  have hdiv : ∀ i j : Fin n, (i.val * n + j) / n = i := by
    intro i j
    rw [Nat.add_comm, Nat.add_mul_div_right _ _ j.pos, Nat.div_eq_of_lt j.isLt, Nat.zero_add]
  constructor
  · intro h
    have hrow : i.val = k := (hdiv i j).symm.trans ((congrArg (· / n) h).trans (hdiv k l))
    exact ⟨Fin.ext hrow, Fin.ext (Nat.add_left_cancel (hrow ▸ h))⟩
  · rintro ⟨rfl, rfl⟩
    rfl

/-- **Reading an entry.** -/
theorem getElem?_flat (f : Fin n → Fin n → α) (i j : Fin n) :
    (flat f)[i * n + j]? = some (f i j) := by
  rw [Array.getElem?_eq_getElem (place_lt_size f i j)]
  exact congrArg some (Matrix.get_ofFn n n f i j)

/-- **An array is known by its entries.** -/
theorem eq_flat {a : Array α} (hsize : a.size = n * n)
    (h : ∀ i j : Fin n, a[i * n + j]? = some (f i j)) : a = flat f := by
  have heq : (⟨n, n, a, hsize⟩ : Matrix α) = Matrix.ofFn n n f := by
    refine Matrix.ext rfl rfl fun i j => Option.some.inj ?_
    refine Eq.trans ?_ ((h i j).trans (congrArg some (Matrix.get_ofFn n n f i j).symm))
    exact (Array.getElem?_eq_getElem _).symm
  exact congrArg Matrix.data heq

/-- **Writing an entry.** -/
theorem write_flat (f : Fin n → Fin n → α) (i j : Fin n) (v : α) :
    write (flat f) (i * n + j) v =
      some (flat (Function.update f i (Function.update (f i) j v))) := by
  rw [write, dif_pos (place_lt_size f i j)]
  refine congrArg some (eq_flat ((Array.size_set _).trans (size_flat f)) fun k l => ?_)
  rw [Array.getElem?_set, getElem?_flat]
  by_cases h : i = k ∧ j = l
  · obtain ⟨rfl, rfl⟩ := h
    simp
  · rw [if_neg fun hplace => h (place_inj.mp hplace)]
    by_cases hi : k = i
    · subst hi
      have hj : l ≠ j := fun hl => h ⟨rfl, hl.symm⟩
      simp [hj]
    · simp [hi]

/-- **Exchanging two entries of a column.** -/
theorem exchange_flat (f : Fin n → Fin n → α) (k p j : Fin n) :
    exchange (flat f) (k * n + j) (p * n + j) =
      some (flat fun i l => if l = j then f (Equiv.swap k p i) l else f i l) := by
  rw [exchange, dif_pos ⟨place_lt_size f k j, place_lt_size f p j⟩]
  refine congrArg some (eq_flat (Array.size_swap.trans (size_flat f)) fun i l => ?_)
  have hk := getElem?_flat f k j
  have hp := getElem?_flat f p j
  rw [Array.getElem?_eq_getElem (place_lt_size f _ _)] at hk hp
  rw [Array.getElem?_swap, hk, hp, getElem?_flat]
  simp only [place_inj, Equiv.swap_apply_def]
  by_cases hl : l = j
  · subst hl
    by_cases hik : i = k
    · subst hik
      by_cases hip : p = i <;> simp [hip]
    · by_cases hip : p = i
      · subst hip
        simp [hik]
      · simp [hik, hip, Ne.symm hik, Ne.symm hip]
  · simp [hl, Ne.symm hl]

end Flat

/-! ## Elimination in place -/

section InPlace

variable {α : Type} {n : ℕ}

/-- **Rows are exchanged** entry by entry. -/
theorem exchangeRows_flat (f : Fin n → Fin n → α) (k p : Fin n) :
    exchangeRows n k p (flat f) = some (flat fun i => f (Equiv.swap k p i)) := by
  -- the columns that are done are exchanged, the others are not
  let state (done : List (Fin n)) : Array α :=
    flat fun i l => if l ∈ done then f (Equiv.swap k p i) l else f i l
  have hstart : state [] = flat f := by simp [state]
  have hend : state (List.finRange n) = flat fun i => f (Equiv.swap k p i) := by simp [state]
  rw [exchangeRows, span_zero, ← hstart, ← hend]
  refine foldlM_done state (List.nodup_finRange n) fun done j _ hj => ?_
  rw [exchange_flat]
  refine congrArg (some ∘ flat) (funext₂ fun i l => ?_)
  by_cases hl : l = j
  · subst hl
    simp [hj]
  · simp [hl]

variable [Scalar α]

/-- **The row with the largest entry** is found in place. -/
theorem scan_flat (e : Elimination α n) (k : Fin n) :
    scan n (flat e.entry) k =
      some ((e.pivotRow k).val, Scalar.abs (e.entry (e.pivotRow k) k)) := by
  rw [scan, getElem?_flat, span_below]
  refine foldlM_simulates (fun best : Fin n => (best.val, Scalar.abs (e.entry best k))) ?_ k
  intro best i _
  rw [getElem?_flat]
  simp only [Option.bind_eq_bind, Option.bind_some]
  split <;> rfl

/-- **A multiple of a row is subtracted** in place. -/
theorem subtractRow_flat (f : Fin n → Fin n → α) {k i : Fin n} (hi : k < i) (mult : α) :
    subtractRow n k i mult (flat f) = some (flat (Function.update f i fun j =>
      if k < j then f i j - mult * f k j else f i j)) := by
  let rest (done : List (Fin n)) : Fin n → α := fun j =>
    if j ∈ done then f i j - mult * f k j else f i j
  have hstart : Function.update f i (rest []) = f := by simp [rest]
  have hend : (fun j => if k < j then f i j - mult * f k j else f i j) =
      rest (Elimination.below k) := by simp [rest, Elimination.mem_below]
  rw [subtractRow, span_below, hend]
  nth_rewrite 1 [← hstart]
  refine foldlM_done (fun done => flat (Function.update f i (rest done)))
    ((List.nodup_finRange n).filter _) fun done j hj hdone => ?_
  have hold : rest done j = f i j := if_neg hdone
  rw [getElem?_flat, getElem?_flat, Function.update_self, Function.update_of_ne hi.ne, hold]
  refine (write_flat ..).trans (congrArg (some ∘ flat) ?_)
  rw [Function.update_idem, Function.update_self]
  refine congrArg (Function.update f i) (funext fun l => ?_)
  by_cases hl : l = j
  · subst hl
    simp [rest]
  · simp [rest, hl]

/-- What is left of a row after elimination in column `k` with the row `top`. -/
def reduced (k : Fin n) (top row : Fin n → α) : Fin n → α := fun j =>
  if j < k then row j else if j = k then row k / top k else row j - row k / top k * top j

/-- **A row is reduced** in place. -/
theorem reduceRow_flat (f : Fin n → Fin n → α) {k i : Fin n} (hi : k < i) :
    reduceRow n k (f k k) (flat f) i =
      some (flat (Function.update f i (reduced k (f k) (f i)))) := by
  rw [reduceRow, getElem?_flat]
  refine (congrArg (· >>= subtractRow n k i _) (write_flat ..)).trans ?_
  refine (subtractRow_flat _ hi _).trans (congrArg (some ∘ flat) ?_)
  rw [Function.update_idem, Function.update_self, Function.update_of_ne hi.ne]
  refine congrArg (Function.update f i) (funext fun j => ?_)
  rcases lt_trichotomy j k with hj | rfl | hj
  · simp [reduced, hj, hj.ne, hj.not_gt]
  · simp [reduced]
  · simp [reduced, hj, hj.ne', hj.not_gt]

/-- **A column is cleared** in place. -/
theorem clear_flat (f : Fin n → Fin n → α) (k : Fin n) :
    (span (k + 1) n).foldlM (reduceRow n k (f k k)) (flat f) =
      some (flat fun i => if k < i then reduced k (f k) (f i) else f i) := by
  let part (done : List (Fin n)) : Fin n → Fin n → α := fun i =>
    if k < i ∧ i ∈ done then reduced k (f k) (f i) else f i
  have hstart : part [] = f := by simp [part]
  have hend : part (Elimination.below k) =
      fun i => if k < i then reduced k (f k) (f i) else f i := by
    simp [part, Elimination.mem_below]
  rw [span_below, ← hend]
  nth_rewrite 2 [← hstart]
  refine foldlM_done (flat ∘ part) ((List.nodup_finRange n).filter _) fun done i hi hdone => ?_
  have htop : part done k = f k := if_neg fun h => h.1.false
  have hrow : part done i = f i := if_neg fun h => hdone h.2
  have hreduce := reduceRow_flat (part done) (Elimination.mem_below.mp hi)
  rw [htop, hrow] at hreduce
  refine hreduce.trans (congrArg (some ∘ flat) (funext fun l => ?_))
  by_cases hl : l = i
  · subst hl
    simp [part, Elimination.mem_below.mp hi]
  · simp [part, hl]

/-- The row order as numbers. -/
def numbers (order : Vector (Fin n) n) : Array ℕ := order.toArray.map Fin.val

theorem size_numbers (order : Vector (Fin n) n) : (numbers order).size = n := by simp [numbers]

theorem numbers_id (n : ℕ) : numbers (Vector.ofFn (id : Fin n → Fin n)) = (span 0 n).toArray := by
  rw [span_zero, numbers, Vector.toArray_ofFn, Array.map_ofFn, List.finRange, List.map_ofFn,
    List.toArray_ofFn]
  rfl

theorem exchange_numbers (order : Vector (Fin n) n) (k p : Fin n) :
    exchange (numbers order) k p = some (numbers (order.swap k p k.isLt p.isLt)) := by
  have hk : k < (numbers order).size := (size_numbers order).symm ▸ k.isLt
  have hp : p < (numbers order).size := (size_numbers order).symm ▸ p.isLt
  rw [exchange, dif_pos ⟨hk, hp⟩]
  refine congrArg some (Array.ext (by simp [numbers]) fun i hi hi' => ?_)
  simp only [numbers, Array.getElem_swap, Array.getElem_map, Vector.toArray_swap]
  split_ifs <;> rfl

omit [Scalar α] in
theorem raise_flat (e : Elimination α n) (k p : Fin n) :
    raise n k p (flat e.entry) (numbers e.order) =
      some (flat (e.swap k p).entry, numbers (e.swap k p).order) := by
  have hentry : (e.swap k p).entry = fun i => e.entry (Equiv.swap k p i) :=
    funext₂ fun i j => Elimination.entry_swap e k p i j
  rw [raise]
  by_cases hp : p.val = k
  · obtain rfl : p = k := Fin.ext hp
    have horder : (e.swap p p).order = e.order := by
      refine Vector.ext fun i hi => (Elimination.order_swap e p p ⟨i, hi⟩).trans ?_
      rw [Equiv.swap_self]
      rfl
    rw [if_pos rfl, hentry, horder, Equiv.swap_self]
    rfl
  · rw [if_neg hp, exchangeRows_flat, exchange_numbers, hentry]
    rfl

theorem entry_clear (e : Elimination α n) (k : Fin n) : (e.clear k).entry =
    fun i => if k < i then reduced k (e.entry k) (e.entry i) else e.entry i := by
  funext i j
  by_cases hi : k < i
  · simp [Elimination.entry, Elimination.clear, Elimination.reduce, reduced, hi]
  · simp [Elimination.entry, Elimination.clear, hi]

/-- **One column** in place. -/
theorem column_flat (e : Elimination α n) (k : Fin n) :
    column n (flat e.entry) (numbers e.order) k =
      some ((e.step k).map fun e' => (flat e'.entry, numbers e'.order)) := by
  rw [column, scan_flat, Elimination.step]
  by_cases hzero : (Scalar.abs (e.entry (e.pivotRow k) k) == 0) = true
  · rw [if_pos hzero]
    exact if_pos hzero
  · rw [if_neg hzero]
    refine (if_neg hzero).trans ?_
    rw [raise_flat]
    simp only [Option.bind_eq_bind, Option.bind_some, getElem?_flat, clear_flat]
    rw [← entry_clear]
    rfl

/-- What elimination leaves in the arrays, and the column in which it stopped. -/
def stored : Elimination.Outcome α n → Array α × Array ℕ × Option ℕ
  | .packed e => (flat e.entry, numbers e.order, none)
  | .singular k e => (flat e.entry, numbers e.order, some k)

/-- **Elimination in place is elimination by rows.** -/
theorem columns_flat (e : Elimination α n) (ks : List (Fin n)) :
    columns n (flat e.entry) (numbers e.order) (ks.map Fin.val) = some (stored (e.run ks)) := by
  induction ks generalizing e with
  | nil => rfl
  | cons k ks ih =>
    rw [List.map_cons, columns, column_flat, Elimination.run]
    rcases e.step k with _ | e'
    · rfl
    · exact ih e'

/-! ## Substitution in place -/

omit [Scalar α] in
theorem read_toArray (x : Vector α n) (i : Fin n) : x.toArray[i.val]? = some (x.get i) := by
  rw [Vector.getElem?_toArray, Vector.getElem?_eq_getElem i.isLt]
  rfl

omit [Scalar α] in
theorem write_toArray (x : Vector α n) (i : Fin n) (v : α) :
    write x.toArray i v = some (x.set i v i.isLt).toArray :=
  dif_pos (x.size_toArray.symm ▸ i.isLt)

/-- The buffer that holds packed triangles. -/
def ofPacked (e : Elimination α n) : Buffer α := ⟨flat e.entry, numbers e.order, n, true⟩

/-- **Products are subtracted** in place. -/
theorem subtract_ofPacked (e : Elimination α n) (x : Vector α n) (i : Fin n) (start : α)
    (places : List (Fin n)) :
    subtract (ofPacked e) x.toArray i start (places.map Fin.val) =
      some (Elimination.subtractProducts (e.rows.get i) x start places) := by
  refine foldlM_simulates id (fun sum j _ => ?_) start
  rw [ofPacked, getElem?_flat, read_toArray]
  rfl

theorem forward_ofPacked (e : Elimination α n) (x : Vector α n) :
    forward (ofPacked e) x.toArray = some (e.forward x).toArray := by
  change (span 0 n).foldlM _ x.toArray = _
  rw [span_zero]
  refine foldlM_simulates Vector.toArray (fun x i _ => ?_) x
  rw [read_toArray, span_above]
  simp only [Option.bind_eq_bind, Option.bind_some, subtract_ofPacked, write_toArray]

theorem backward_ofPacked (e : Elimination α n) (x : Vector α n) :
    backward (ofPacked e) x.toArray = some (e.backward x).toArray := by
  have hpivot : ∀ i : Fin n, (ofPacked e).lu[i * (ofPacked e).n + i]? = some (e.entry i i) :=
    fun i => getElem?_flat e.entry i i
  change (span 0 n).reverse.foldlM _ x.toArray = _
  rw [span_zero, ← List.map_reverse]
  refine foldlM_simulates Vector.toArray (fun x i _ => ?_) x
  have hbelow : span (i + 1) (ofPacked e).n = (Elimination.below i).map Fin.val := span_below i
  rw [read_toArray, hbelow, hpivot]
  simp only [Option.bind_eq_bind, Option.bind_some, subtract_ofPacked, write_toArray]

omit [Scalar α] in
/-- The right side is read in the row order. -/
theorem mapM_numbers (order : Vector (Fin n) n) {b : Matrix α} (hb : b.cols = 1 ∧ b.rows = n) :
    (numbers order).mapM (b.data[·]?) =
      some (order.map (Vector.ofFn fun i => b.entry hb.1 (i.cast hb.2.symm)).get).toArray := by
  have hread : (fun p : ℕ => b.data[p]?) ∘ Fin.val =
      fun i : Fin n => pure ((Vector.ofFn fun i => b.entry hb.1 (i.cast hb.2.symm)).get i) := by
    funext i
    have hi : i < b.data.size := by
      rw [b.size_eq, hb.1, hb.2, Nat.mul_one]
      exact i.isLt
    refine (Array.getElem?_eq_getElem hi).trans (congrArg some ?_)
    simp [Matrix.entry, Matrix.get, hb.1]
  rw [numbers, Array.mapM_map, hread, Array.mapM_pure]
  rfl

/-- **A system is solved** in place. -/
theorem solve_ofPacked (e : Elimination α n) (b : Matrix α) :
    (ofPacked e).solve b = some (Factorization.solve ⟨n, e.order, some e⟩ b) := by
  by_cases hb : b.cols = 1 ∧ b.rows = n
  · have hfit : ¬(!b.isColumn || b.rows ≠ n) = true := by simp [Matrix.isColumn, hb]
    have hsolve : Factorization.solve ⟨n, e.order, some e⟩ b = .ok (Matrix.column
      (e.substitute (Vector.ofFn fun i => b.entry hb.1 (i.cast hb.2.symm))).toArray) := dif_pos hb
    refine ((if_neg nofun).trans (if_neg hfit)).trans ?_
    change ((numbers e.order).mapM (b.data[·]?) >>= _) = _
    rw [mapM_numbers e.order hb, hsolve]
    simp only [Option.bind_eq_bind, Option.bind_some, forward_ofPacked, backward_ofPacked]
    rfl
  · have hfit : (!b.isColumn || b.rows ≠ n) = true := by
      simpa [Matrix.isColumn, imp_iff_not_or] using hb
    have hsolve : Factorization.solve ⟨n, e.order, some e⟩ b =
        .error (.mismatch .solve (n, n) b.shape) := dif_neg hb
    rw [hsolve]
    exact (if_neg nofun).trans (if_pos hfit)

end InPlace

/-! ## Factorizations in memory -/

/-- **A buffer represents a factorization**: its row order is there, and its triangles are if it has
any.  Otherwise the array of entries is not looked at, and may hold anything. -/
inductive Represents {α : Type} : Buffer α → Factorization α → Prop where
  | vacant {n : ℕ} (lu : Array α) (order : Vector (Fin n) n) :
      Represents ⟨lu, numbers order, n, false⟩ ⟨n, order, none⟩
  | packed {n : ℕ} (e : Elimination α n) : Represents (.ofPacked e) ⟨n, e.order, some e⟩

namespace Represents

variable {α : Type} {s : Buffer α} {f : Factorization α}

theorem empty : Represents (Buffer.empty : Buffer α) .empty := by
  have hvacant := vacant (#[] : Array α) #v[]
  rwa [numbers, Array.map_empty] at hvacant

theorem permutation (h : Represents s f) : s.perm.toList = f.permutation := by
  rcases h with ⟨lu, order⟩ | e
  · exact Array.toList_map
  · exact Array.toList_map

/-- The array of a square matrix. -/
theorem data_eq_flat {a : Matrix α} (ha : a.cols = a.rows) :
    a.data = flat fun i j : Fin a.rows => a.get i (j.cast ha.symm) := by
  refine eq_flat (by rw [a.size_eq, ha]) fun i j => ?_
  have hplace : i * a.rows + j = i * a.cols + (j.cast ha.symm).val :=
    congrArg (i * · + j.val) ha.symm
  rw [hplace]
  exact Array.getElem?_eq_getElem _

variable [Scalar α]

/-- **Elimination in the array of a square matrix.** -/
theorem columns_data {a : Matrix α} (ha : a.cols = a.rows) :
    columns a.rows a.data (span 0 a.rows).toArray (span 0 a.rows) =
      some (stored (Factorization.eliminate a ha)) := by
  have hdata : a.data = flat (Elimination.start (Vector.ofFn fun i =>
      Vector.ofFn fun j : Fin a.rows => a.get i (j.cast ha.symm))).entry := by
    rw [data_eq_flat ha]
    refine congrArg flat (funext₂ fun i j => ?_)
    simp [Elimination.entry, Elimination.start]
  rw [Factorization.eliminate, ← columns_flat, ← hdata, ← span_zero]
  exact congrArg (columns a.rows a.data · _) (numbers_id a.rows).symm

/-- **The next factorization** is found in place, with the same report. -/
theorem factorize (h : Represents s f) (a : Matrix α) :
    ∃ s', s.factorize a = some (s', (f.factorize a).2) ∧ Represents s' (f.factorize a).1 := by
  by_cases ha : a.cols = a.rows
  · rw [Factorization.factorize, dif_pos ha, Buffer.factorize, if_neg (not_not.mpr ha.symm),
      columns_data ha]
    rcases Factorization.eliminate a ha with e | ⟨k, e⟩
    · exact ⟨_, rfl, .packed e⟩
    · exact ⟨_, rfl, .vacant _ e.order⟩
  · rw [Factorization.factorize, dif_neg ha, Buffer.factorize, if_pos (Ne.symm ha)]
    exact ⟨s, rfl, h⟩

theorem solve (h : Represents s f) (b : Matrix α) : s.solve b = some (f.solve b) := by
  rcases h with ⟨lu, order⟩ | e
  · rfl
  · exact solve_ofPacked e b

end Represents

end Buffer

end InteriorPoint
