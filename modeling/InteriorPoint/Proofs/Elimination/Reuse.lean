import Mathlib
import InteriorPoint.Proofs.Elimination.Buffer

/-!
# Proofs/Elimination/Reuse — a linear solver that is used again and again

A square matrix replaces whatever a linear solver kept, and nothing else changes it
(`after_eq`).  So after any calls it keeps what the last square matrix alone would have left
(`history_eq`), whether elimination of that one went through or stopped halfway; and the row order
is a permutation wherever it stopped, as every column only exchanges two rows (`perm_order_run`).

* `history_keeps_last` — what a linear solver answers after any calls; the same calls on a buffer
  never use an index out of range.
-/

namespace InteriorPoint

/-! ## The row order -/

namespace Elimination

variable {α : Type} {n : ℕ} [Scalar α] {e e' : Elimination α n} {k : Fin n}

theorem perm_order_step (h : e.step k = some e') : e'.order.toList.Perm e.order.toList := by
  rw [step] at h
  split at h
  · cases h
  · obtain rfl := Option.some.inj h
    exact Array.perm_iff_toList_perm.mp (Array.swap_perm ..)

/-- **Elimination exchanges rows**, however far it comes. -/
theorem perm_order_run (e : Elimination α n) (ks : List (Fin n)) :
    (e.run ks).order.toList.Perm e.order.toList := by
  induction ks generalizing e with
  | nil => exact .refl _
  | cons k ks ih =>
    rw [run]
    split
    · exact .refl _
    · rename_i e' hstep
      exact (ih e').trans (perm_order_step hstep)

end Elimination

namespace Factorization

variable {α : Type}

/-! ## Calls -/

/-- What can be asked of a linear solver. -/
inductive Call (α : Type) where
  | factorize (a : Matrix α)
  | solve (b : Matrix α)

/-- The square matrix that a call gives, if it gives one. -/
def Call.square? : Call α → Option (Matrix α)
  | factorize a => if a.cols = a.rows then some a else none
  | solve _ => none

/-- **The last square matrix** that was given. -/
def lastSquare (calls : List (Call α)) : Option (Matrix α) :=
  (calls.filterMap Call.square?).getLast?

theorem lastSquare_concat (calls : List (Call α)) (c : Call α) :
    lastSquare (calls ++ [c]) = c.square?.or (lastSquare calls) := by
  rw [lastSquare, List.filterMap_append, List.getLast?_append, lastSquare]
  rcases hc : c.square? with _ | a
  · simp [hc]
  · simp [hc]

theorem cols_eq_rows_of_lastSquare {calls : List (Call α)} {a : Matrix α}
    (h : lastSquare calls = some a) : a.cols = a.rows := by
  obtain ⟨c, _, hc⟩ := List.mem_filterMap.mp (List.mem_of_getLast? h)
  rcases c with a' | b
  · rw [Call.square?] at hc
    split at hc
    · rename_i ha
      exact Option.some.inj hc ▸ ha
    · exact nomatch hc
  · exact nomatch hc

variable [Scalar α]

/-- What a call leaves. -/
def after (f : Factorization α) : Call α → Factorization α
  | .factorize a => (f.factorize a).1
  | .solve _ => f

/-- What is kept after calls on a new linear solver. -/
def history (calls : List (Call α)) : Factorization α := calls.foldl after empty

/-- A square matrix is factorized as if nothing had been kept. -/
theorem factorize_eq_empty {a : Matrix α} (ha : a.cols = a.rows) (f : Factorization α) :
    f.factorize a = empty.factorize a := by
  rw [factorize, factorize, dif_pos ha, dif_pos ha]

/-- **Only a square matrix replaces what is kept.** -/
theorem after_eq (f : Factorization α) (c : Call α) :
    f.after c = c.square?.elim f fun a => (empty.factorize a).1 := by
  rcases c with a | b
  · by_cases ha : a.cols = a.rows
    · rw [after, Call.square?, if_pos ha, factorize_eq_empty ha]
      rfl
    · rw [after, Call.square?, if_neg ha, factorize, dif_neg ha]
      rfl
  · rfl

/-- **The last square matrix decides what is kept.** -/
theorem history_eq (calls : List (Call α)) :
    history calls = (lastSquare calls).elim empty fun a => (empty.factorize a).1 := by
  -- by induction on the calls, the last one taken off
  induction calls using List.reverseRecOn with
  | nil => rfl
  | append_singleton calls c ih =>
    rw [history, List.foldl_concat, after_eq, ← history, ih, lastSquare_concat]
    rcases c.square? with _ | a
    · rfl
    · rfl

/-! ## After a square matrix -/

/-- **The row order is a permutation**, also of a matrix that is found singular. -/
theorem perm_permutation {a : Matrix α} (ha : a.cols = a.rows) :
    (empty.factorize a).1.permutation.Perm (List.range a.rows) := by
  have horder : (eliminate a ha).order.toList.Perm (List.finRange a.rows) := by
    refine (Elimination.perm_order_run _ _).trans (.of_eq ?_)
    exact Vector.toList_ofFn
  have hnumbers := horder.map Fin.val
  rw [List.map_coe_finRange_eq_range] at hnumbers
  rw [factorize, dif_pos ha]
  rcases heliminate : eliminate a ha with e | ⟨k, e⟩
  · rwa [heliminate] at hnumbers
  · rwa [heliminate] at hnumbers

/-- **What is solved next**, by the report on the matrix. -/
theorem solve_of_square {a : Matrix α} (ha : a.cols = a.rows) :
    ((∀ f : Factorization α, (f.factorize a).2 = .ok ()) ∧
      ∀ b, (empty.factorize a).1.solve b = solveLinearSystem a b) ∨
    ∃ k, (∀ f : Factorization α, (f.factorize a).2 = .error (.singular k)) ∧
      ∀ b, (empty.factorize a).1.solve b = .error (.mismatch .solve (0, 0) b.shape) := by
  simp only [factorize_eq_empty ha, solveLinearSystem]
  rw [factorize, dif_pos ha]
  rcases eliminate a ha with e | ⟨k, e⟩
  · exact .inl ⟨fun _ => rfl, fun _ => rfl⟩
  · exact .inr ⟨k, fun _ => rfl, fun _ => rfl⟩

end Factorization

/-! ## The same calls on a buffer -/

namespace Buffer

variable {α : Type} [Scalar α]

/-- What a call leaves in a buffer, unless an index is out of range. -/
def after (s : Buffer α) : Factorization.Call α → Option (Buffer α)
  | .factorize a => (s.factorize a).map Prod.fst
  | .solve b => (s.solve b).map fun _ => s

/-- What is stored after calls on a new buffer. -/
def history (calls : List (Factorization.Call α)) : Option (Buffer α) :=
  calls.foldlM after empty

variable {s : Buffer α} {f : Factorization α}

theorem Represents.after (h : Represents s f) (c : Factorization.Call α) :
    ∃ s', s.after c = some s' ∧ Represents s' (f.after c) := by
  rcases c with a | b
  · obtain ⟨s', hs', hrepresents⟩ := h.factorize a
    exact ⟨s', congrArg (Option.map Prod.fst) hs', hrepresents⟩
  · exact ⟨s, congrArg (Option.map fun _ => s) (h.solve b), h⟩

/-- **A buffer follows any calls.** -/
theorem Represents.history (h : Represents s f) (calls : List (Factorization.Call α)) :
    ∃ s', calls.foldlM Buffer.after s = some s' ∧
      Represents s' (calls.foldl Factorization.after f) := by
  induction calls generalizing s f with
  | nil => exact ⟨s, rfl, h⟩
  | cons c calls ih =>
    obtain ⟨s', hs', hafter⟩ := h.after c
    rw [List.foldlM_cons, hs']
    exact ih hafter

/-- Calls that give no square matrix leave a buffer as it is. -/
theorem Represents.after_eq_self (h : Represents s f) {c : Factorization.Call α}
    (hc : c.square? = none) : s.after c = some s := by
  rcases c with a | b
  · have ha : a.cols ≠ a.rows := fun ha => nomatch (if_pos ha).symm.trans hc
    exact congrArg (Option.map Prod.fst) (if_pos ha.symm)
  · exact congrArg (Option.map fun _ => s) (h.solve b)

end Buffer

/-! ## Every history -/

namespace Factorization

variable {α : Type} [Scalar α]

/-- **A linear solver never mixes matrices**, in any arithmetic.  After any calls on a new one, a
buffer was used in range and holds the same row order, reports on any matrix as the linear solver
does, solves as it does, and like it stays as it is unless a square matrix is given.  If none was
given yet, the row order is empty and nothing can be solved.  Otherwise the row order is a
permutation of the rows of the last one, and what is solved is what this matrix alone would solve;
if it was reported singular, nothing can be solved. -/
theorem history_keeps_last (calls : List (Call α)) :
    (∃ s, Buffer.history calls = some s ∧ s.perm.toList = (history calls).permutation ∧
      (∀ a, ∃ s', s.factorize a = some (s', ((history calls).factorize a).2)) ∧
      (∀ b, s.solve b = some ((history calls).solve b)) ∧
      ∀ c : Call α, c.square? = none → s.after c = some s) ∧
    (∀ c : Call α, c.square? = none → (history calls).after c = history calls) ∧
    match lastSquare calls with
    | none => (history calls).permutation = [] ∧
        ∀ b, (history calls).solve b = .error (.mismatch .solve (0, 0) b.shape)
    | some m => (history calls).permutation.Perm (List.range m.rows) ∧
        (((∀ f : Factorization α, (f.factorize m).2 = .ok ()) ∧
            ∀ b, (history calls).solve b = solveLinearSystem m b) ∨
          ∃ k, (∀ f : Factorization α, (f.factorize m).2 = .error (.singular k)) ∧
            ∀ b, (history calls).solve b = .error (.mismatch .solve (0, 0) b.shape)) := by
  refine ⟨?_, fun c hc => ?_, ?_⟩
  · obtain ⟨s, hs, hrepresents⟩ := Buffer.Represents.empty.history calls
    refine ⟨s, hs, hrepresents.permutation, fun a => ?_, hrepresents.solve,
      fun c => hrepresents.after_eq_self⟩
    obtain ⟨s', hs', _⟩ := hrepresents.factorize a
    exact ⟨s', hs'⟩
  · rw [after_eq, hc]
    rfl
  · rw [history_eq]
    rcases hlast : lastSquare calls with _ | m
    · exact ⟨rfl, fun _ => rfl⟩
    · have hm := cols_eq_rows_of_lastSquare hlast
      exact ⟨perm_permutation hm, solve_of_square hm⟩

/-- The second row is twice the first one. -/
def doubledRow : Matrix Float := ⟨2, 2, #[1, 2, 2, 4], rfl⟩

/-- A matrix that can be solved with, and after it one that cannot. -/
def regularThenSingular : List (Call Float) :=
  [.factorize ⟨2, 2, #[1, 0, 0, 1], rfl⟩, .solve (.column #[1, 2]), .factorize doubledRow]

/-- Elimination stops after an exchange of rows: the row order is that of the second matrix, and the
triangles of the first one are not used any more. -/
theorem history_keeps_last_regularThenSingular :
    (history regularThenSingular).permutation = [1, 0] ∧
    (history regularThenSingular).permutation.Perm (List.range 2) ∧
    ∀ b, (history regularThenSingular).solve b = .error (.mismatch .solve (0, 0) b.shape) := by
  have hlast : lastSquare regularThenSingular = some doubledRow := rfl
  have hreport : ((empty.factorize doubledRow).2.toBool) = false := by decide +kernel
  obtain ⟨_, _, hmatch⟩ := history_keeps_last regularThenSingular
  rw [hlast] at hmatch
  obtain ⟨hperm, ⟨hok, _⟩ | ⟨_, _, hsolve⟩⟩ := hmatch
  · rw [hok empty] at hreport
    exact nomatch hreport
  · exact ⟨by decide +kernel, hperm, hsolve⟩

end Factorization

end InteriorPoint
