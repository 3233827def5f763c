import Mathlib
import InteriorPoint.Proofs.Options
import InteriorPoint.Proofs.Table.Derived

/-!
# Proofs/Wire — what is written as data is read back

Data travels as a text, and `Wire.arrives` is what comes out of it: all data is as it was, except
that a scalar may come back as any number.  Reading undoes writing if the number of every finite
scalar is read as that scalar (`Wire.ReadsFinite`); a scalar that is not finite is written as
`null`, and no reader takes that for a number.

A matrix is read as a table is, and is then checked: nothing that does not fit is let through, as
long as the entries of its shape can be counted.  Where they cannot, a machine that checks its
products stops, and one that does not lets through whatever fits modulo the bound
(`Wire.vast_let_through`).

Options are read setting by setting, starting from the defaults; each setting ends with what was
given for it, or else with its default (`Options.putAll?_eq_some`).

* `Wire.reads_back` — matrices and options that are written and read back, in all of their forms.
-/

namespace InteriorPoint

/-! ## Texts -/

namespace Wire

variable {α : Type}

mutual

/-- **What is read of a text**, if the text of a scalar is read as `number` says. -/
def arrives (number : α → Wire α) : Wire α → Wire α
  | .null => .null
  | .bool b => .bool b
  | .integer n => .integer n
  | .real x => number x
  | .text s => .text s
  | .list items => .list (arriveItems number items)
  | .record fields => .record (arriveFields number fields)

def arriveItems (number : α → Wire α) : List (Wire α) → List (Wire α)
  | [] => []
  | w :: items => arrives number w :: arriveItems number items

def arriveFields (number : α → Wire α) : List (String × Wire α) → List (String × Wire α)
  | [] => []
  | (name, w) :: fields => (name, arrives number w) :: arriveFields number fields

end

theorem arriveItems_map {β : Type} (number : α → Wire α) (f : β → Wire α) (l : List β) :
    arriveItems number (l.map f) = l.map fun b => (f b).arrives number := by
  induction l with
  | nil => rfl
  | cons b l ih => rw [List.map_cons, List.map_cons, arriveItems, ih]

theorem arriveFields_map {β : Type} (number : α → Wire α) (name : β → String) (f : β → Wire α)
    (l : List β) : arriveFields number (l.map fun b => (name b, f b)) =
      l.map fun b => (name b, (f b).arrives number) := by
  induction l with
  | nil => rfl
  | cons b l ih => rw [List.map_cons, List.map_cons, arriveFields, ih]

variable [Scalar α] {number : α → Wire α}

omit [Scalar α] in
theorem arrives_ofNat (n : ℕ) : (ofNat n).arrives number = ofNat n := rfl

/-- **Every finite scalar is read back from its text.** -/
def ReadsFinite (number : α → Wire α) : Prop :=
  ∀ x, Scalar.isFinite x = true → (number x).scalar? = some x

omit [Scalar α] in
/-- A count is read back. -/
theorem count?_ofNat {n : ℕ} (hn : n < countBound) : (ofNat n : Wire α).count? = some n := by
  have hbound : (0 : ℤ) ≤ n ∧ (n : ℤ) < countBound := ⟨Int.natCast_nonneg n, Int.ofNat_lt.mpr hn⟩
  rw [ofNat, count?, if_pos hbound, Int.toNat_natCast]

/-- A scalar is read back if it is finite, and refused otherwise. -/
theorem scalar?_arrives (h : ReadsFinite number) (x : α) :
    ((ofScalar x).arrives number).scalar? = if Scalar.isFinite x then some x else none := by
  rw [ofScalar]
  by_cases hx : Scalar.isFinite x = true
  · rw [if_pos hx, if_pos hx]
    exact h x hx
  · rw [if_neg hx, if_neg hx]
    rfl

/-- Members that are all let through. -/
theorem mapM_guard {β : Type} (p : β → Bool) (l : List β) :
    l.mapM (fun b => if p b then some b else none) = if l.all p then some l else none := by
  induction l with
  | nil => rfl
  | cons b l ih =>
    rw [List.mapM_cons, ih, List.all_cons]
    cases p b <;> cases l.all p <;> rfl

/-- **Entries are read back** if all of them are finite, and refused otherwise. -/
theorem scalars?_arrives (h : ReadsFinite number) (xs : Array α) :
    ((Wire.list (xs.toList.map ofScalar)).arrives number).scalars? =
      if xs.all Scalar.isFinite then some xs else none := by
  rw [arrives, arriveItems_map, scalars?, List.mapM_map]
  have hread : (scalar? ∘ fun x => (ofScalar x).arrives number) =
      fun x : α => if Scalar.isFinite x then some x else none := funext (scalar?_arrives h)
  rw [hread, mapM_guard, Array.all_toList]
  split <;> rfl

end Wire

/-! ## Matrices -/

namespace Matrix

variable {α : Type} [Scalar α] {number : α → Wire α}

omit [Scalar α] in
/-- The parts of a matrix that can be counted make it again. -/
theorem ofData_self {m : Matrix α} (hsize : m.data.size < countBound) :
    ofData m.rows m.cols m.data = .ok m :=
  (if_pos (m.size_eq ▸ hsize)).trans (dif_pos m.size_eq)

/-- **A matrix is read back from its fields** if it is finite, and refused otherwise. -/
theorem ofFields?_arrives (h : Wire.ReadsFinite number) {m : Matrix α} (hrows : m.rows < countBound)
    (hcols : m.cols < countBound) (hsize : m.data.size < countBound) :
    ofFields? (.ofNat m.rows) (.ofNat m.cols)
        ((Wire.list (m.data.toList.map Wire.ofScalar)).arrives number) =
      if m.isFinite then some (.ok m) else none := by
  rw [ofFields?, Wire.count?_ofNat hrows, Wire.count?_ofNat hcols, Wire.scalars?_arrives h,
    isFinite]
  split
  · exact congrArg some (ofData_self hsize)
  · rfl

/-- The fields of a record are found by their names. -/
theorem ofWire?_record (rows cols data : Wire α) :
    ofWire? (.record [("rows", rows), ("cols", cols), ("data", data)]) =
      ofFields? rows cols data := by
  simp only [ofWire?, Wire.required?, Wire.field?]
  rfl

theorem ofWire?_toWire (h : Wire.ReadsFinite number) {m : Matrix α} (hrows : m.rows < countBound)
    (hcols : m.cols < countBound) (hsize : m.data.size < countBound) :
    ofWire? (m.toWire.arrives number) = if m.isFinite then some (.ok m) else none := by
  simp only [toWire, Wire.arrives, Wire.arriveFields, ofWire?_record]
  exact ofFields?_arrives h hrows hcols hsize

theorem ofWire?_toWireList (h : Wire.ReadsFinite number) {m : Matrix α}
    (hrows : m.rows < countBound) (hcols : m.cols < countBound) (hsize : m.data.size < countBound) :
    ofWire? (m.toWireList.arrives number) = if m.isFinite then some (.ok m) else none := by
  rw [← ofFields?_arrives h hrows hcols hsize]
  rfl

omit [Scalar α] in
theorem checked_eq_ok {t : Table α} {m : Matrix α} :
    t.checked = .ok m ↔
      t.rows * t.cols < countBound ∧ t.rows * t.cols = t.data.size ∧ m.table = t := by
  rw [Table.checked, ofData]
  constructor
  · intro h
    split at h
    · rename_i hcount
      split at h
      · rename_i hsize
        obtain rfl := Except.ok.inj h
        exact ⟨hcount, hsize.symm, rfl⟩
      · cases h
    · cases h
  · rintro ⟨hcount, _, rfl⟩
    exact (if_pos hcount).trans (dif_pos m.size_eq)

omit [Scalar α] in
theorem checked_eq_uncountable {t : Table α} {rows cols : ℕ} :
    t.checked = .error (.uncountable rows cols) ↔
      t.shape = (rows, cols) ∧ countBound ≤ rows * cols := by
  rw [Table.checked, ofData, Table.shape]
  constructor
  · intro h
    split at h
    · split at h
      · cases h
      · cases h
    · rename_i hcount
      cases h
      exact ⟨rfl, not_lt.mp hcount⟩
  · rintro ⟨hshape, hcount⟩
    obtain ⟨rfl, rfl⟩ := Prod.ext_iff.mp hshape
    exact if_neg hcount.not_gt

/-- **Only fields that fit are let through**, and all that do if their entries can be counted. -/
theorem ofWire?_eq_ok {w : Wire α} {m : Matrix α} :
    ofWire? w = some (.ok m) ↔ ∃ t, Table.ofWire? w = some t ∧
      t.rows * t.cols < countBound ∧ t.rows * t.cols = t.data.size ∧ m.table = t := by
  rw [Table.ofWire?_matrix, Option.map_eq_some_iff]
  exact exists_congr fun t => and_congr_right fun _ => checked_eq_ok

/-- …and if they cannot, that is the answer. -/
theorem ofWire?_eq_uncountable {w : Wire α} {rows cols : ℕ} :
    ofWire? w = some (.error (.uncountable rows cols)) ↔
      ∃ t, Table.ofWire? w = some t ∧ t.shape = (rows, cols) ∧ countBound ≤ rows * cols := by
  rw [Table.ofWire?_matrix, Option.map_eq_some_iff]
  exact exists_congr fun t => and_congr_right fun _ => checked_eq_uncountable

/-- **A machine that lets its numbers overflow** lets through the same matrices, and what cannot be
counted but fits modulo the bound. -/
theorem ofWireWrapping?_eq_some {w : Wire α} {t : Table α} :
    Table.ofWireWrapping? w = some t ↔ (∃ m, ofWire? w = some (.ok m) ∧ m.table = t) ∨
      Table.ofWire? w = some t ∧ countBound ≤ t.rows * t.cols ∧
        t.data.size = t.rows * t.cols % countBound := by
  rw [Table.ofWireWrapping?, Option.filter_eq_some_iff, decide_eq_true_iff]
  by_cases hcount : t.rows * t.cols < countBound
  · rw [Nat.mod_eq_of_lt hcount, or_iff_left fun h => hcount.not_ge h.2.1]
    constructor
    · rintro ⟨ht, hsize⟩
      exact ⟨⟨t.rows, t.cols, t.data, hsize⟩,
        ofWire?_eq_ok.mpr ⟨t, ht, hcount, hsize.symm, rfl⟩, rfl⟩
    · rintro ⟨m, hm, rfl⟩
      obtain ⟨t, ht, _, _, rfl⟩ := ofWire?_eq_ok.mp hm
      exact ⟨ht, m.size_eq⟩
  · rw [or_iff_right, and_iff_right (not_lt.mp hcount)]
    rintro ⟨m, hm, rfl⟩
    obtain ⟨t, _, hlt, _, rfl⟩ := ofWire?_eq_ok.mp hm
    exact hcount hlt

end Matrix

/-! ## Options -/

namespace Options

variable {α : Type} [Scalar α] {number : α → Wire α} {o o₀ : Options α}

/-- **What a setting of `o` is, by what is given for it**: the value that is read, or what it is in
`o₀`. -/
def Reads (o₀ o : Options α) (s : Setting) : Option (Wire α) → Prop
  | none => o.get s = o₀.get s
  | some w => s.ofWire? w = some (o.get s)

/-- A value that is read for a setting fits it. -/
theorem fits_of_ofWire? {s : Setting} {w : Wire α} {a : Amount α} (h : s.ofWire? w = some a) :
    Fits s a := by
  rw [Setting.ofWire?] at h
  split at h
  · rename_i hs
    obtain ⟨n, _, rfl⟩ := Option.map_eq_some_iff.mp h
    exact hs
  · rename_i hs
    obtain ⟨x, _, rfl⟩ := Option.map_eq_some_iff.mp h
    exact (Bool.not_eq_true _).mp hs

/-- One setting after the other, each with what is given for it. -/
def putAll? (o : Options α) (ps : List (Setting × Wire α)) : Option (Options α) :=
  ps.foldlM (fun o p => o.putWire? p.1 p.2) o

theorem putAll?_cons (o : Options α) (s : Setting) (w : Wire α) (ps : List (Setting × Wire α)) :
    o.putAll? ((s, w) :: ps) = (s.ofWire? w).bind fun a => (o.put s a).putAll? ps := by
  rw [putAll?, List.foldlM_cons, putWire?]
  rcases s.ofWire? w with _ | a
  · rfl
  · rfl

/-- A value that was read stays, as nothing else is given for its setting. -/
theorem reads_put {s₁ : Setting} {w₁ : Wire α} {a : Amount α} {ps : List (Setting × Wire α)}
    (ha : s₁.ofWire? w₁ = some a) (hs₁ : s₁ ∉ ps.map Prod.fst) (s : Setting) :
    Reads (o₀.put s₁ a) o s (ps.lookup s) ↔ Reads o₀ o s (((s₁, w₁) :: ps).lookup s) := by
  have hget := get_put (o := o₀) (fits_of_ofWire? ha) s
  by_cases hs : s = s₁
  · subst hs
    have hnone : ps.lookup s = none := by
      refine List.lookup_eq_none_iff.mpr fun p hp => bne_iff_ne.mpr fun hp' => hs₁ ?_
      exact hp' ▸ List.mem_map_of_mem hp
    rw [hnone, List.lookup_cons_self, Reads, Reads, ha, hget, if_pos rfl, Option.some.injEq,
      eq_comm]
  · rw [List.lookup_cons, beq_false_of_ne hs]
    rcases ps.lookup s with _ | w
    · rw [Reads, Reads, hget, if_neg hs]
    · exact Iff.rfl

/-- **What is read for several settings**, none of them given twice. -/
theorem putAll?_eq_some {ps : List (Setting × Wire α)} (hps : (ps.map Prod.fst).Nodup) :
    o₀.putAll? ps = some o ↔ ∀ s, Reads o₀ o s (ps.lookup s) := by
  induction ps generalizing o₀ with
  | nil => exact ⟨fun h s => Option.some.inj h ▸ rfl, fun h => congrArg some (ext_get h).symm⟩
  | cons p ps ih =>
    obtain ⟨s₁, w₁⟩ := p
    obtain ⟨hs₁, hps⟩ := List.nodup_cons.mp hps
    rw [putAll?_cons]
    rcases ha : s₁.ofWire? w₁ with _ | a
    · -- what cannot be read is no setting's value, so neither side holds
      refine iff_of_false nofun fun h => ?_
      have hs₁ := h s₁
      rw [List.lookup_cons_self, Reads, ha] at hs₁
      cases hs₁
    · exact (ih hps).trans (forall_congr' (reads_put ha hs₁))

omit [Scalar α] in
theorem mem_iff_lookup {ps : List (Setting × Wire α)} (hps : (ps.map Prod.fst).Nodup) {s : Setting}
    {w : Wire α} : (s, w) ∈ ps ↔ ps.lookup s = some w := by
  constructor
  · intro hmem
    obtain ⟨before, after, rfl⟩ := List.append_of_mem hmem
    refine List.lookup_eq_some_iff.mpr ⟨before, after, rfl, fun p hp => bne_iff_ne.mpr ?_⟩
    rw [List.map_append, List.nodup_append] at hps
    exact (hps.2.2 p.1 (List.mem_map_of_mem hp) s List.mem_cons_self).symm
  · intro hlookup
    obtain ⟨before, after, rfl, _⟩ := List.lookup_eq_some_iff.mp hlookup
    exact List.mem_append_right before List.mem_cons_self

/-- Options are read if everything that is given can be read. -/
theorem exists_putAll? {ps : List (Setting × Wire α)} (hps : (ps.map Prod.fst).Nodup) :
    (∃ o, o₀.putAll? ps = some o) ↔
      ∀ (s : Setting) w, ps.lookup s = some w → ∃ a, s.ofWire? w = some a := by
  simp only [← mem_iff_lookup hps]
  -- said of the members, this holds of settings given twice as well
  clear hps
  induction ps generalizing o₀ with
  | nil => exact iff_of_true ⟨o₀, rfl⟩ fun s w hmem => absurd hmem List.not_mem_nil
  | cons p ps ih =>
    obtain ⟨s₁, w₁⟩ := p
    rw [putAll?_cons]
    constructor
    · rintro ⟨o, ho⟩ s w hmem
      obtain ⟨a, ha, ho⟩ := Option.bind_eq_some_iff.mp ho
      obtain heq | hmem := List.mem_cons.mp hmem
      · obtain ⟨rfl, rfl⟩ := Prod.ext_iff.mp heq
        exact ⟨a, ha⟩
      · exact ih.mp ⟨o, ho⟩ s w hmem
    · intro h
      obtain ⟨a, ha⟩ := h s₁ w₁ List.mem_cons_self
      rw [ha]
      exact ih.mpr fun s w hmem => h s w (List.mem_cons_of_mem _ hmem)

/-! ### Records -/

/-- The settings for which something is given, in order. -/
def givenBy (given : Setting → Option (Wire α)) (l : List Setting) : List (Setting × Wire α) :=
  l.filterMap fun s => (given s).map (s, ·)

omit [Scalar α] in
theorem lookup_givenBy (given : Setting → Option (Wire α)) (l : List Setting) (s : Setting) :
    (givenBy given l).lookup s = if s ∈ l then given s else none := by
  induction l with
  | nil => rfl
  | cons s₁ l ih =>
    rw [givenBy] at ih
    rw [givenBy, List.filterMap_cons]
    by_cases hs : s = s₁
    · subst hs
      rcases hgiven : given s with _ | w
      · rw [hgiven, ite_self] at ih
        rw [ite_self]
        exact ih
      · rw [if_pos List.mem_cons_self]
        exact List.lookup_cons_self
    · rw [if_congr (List.mem_cons.trans (or_iff_right hs)) rfl rfl, ← ih]
      rcases given s₁ with _ | w
      · rfl
      · exact List.lookup_cons.trans (by rw [beq_false_of_ne hs])

omit [Scalar α] in
theorem nodup_givenBy (given : Setting → Option (Wire α)) {l : List Setting} (hl : l.Nodup) :
    ((givenBy given l).map Prod.fst).Nodup := by
  rw [givenBy, List.map_filterMap]
  refine hl.filterMap fun s s' t ht ht' => ?_
  simp only [Option.map_map, Option.mem_def, Option.map_eq_some_iff] at ht ht'
  obtain ⟨⟨_, _, rfl⟩, _, _, h⟩ := And.intro ht ht'
  exact h.symm

/-- The settings of a record are read in order, if none of them is given twice. -/
theorem ofWire?_record {fields : List (String × Wire α)} {given : Setting → Option (Wire α)}
    (hgiven : ∀ s : Setting, Wire.field? fields s.name = some (given s)) :
    ofWire? (.record fields) = default.putAll? (givenBy given Setting.all) := by
  rw [ofWire?, putAll?, givenBy, List.foldlM_filterMap]
  refine congrArg (fun f => Setting.all.foldlM f default) (funext₂ fun o s => ?_)
  rw [hgiven s]
  rcases given s with _ | w
  · rfl
  · rfl

/-- A record that gives a setting twice is refused. -/
theorem ofWire?_record_eq_none {fields : List (String × Wire α)} {s : Setting}
    (hs : Wire.field? fields s.name = none) : ofWire? (.record fields) = none := by
  obtain ⟨before, after, hall⟩ := List.append_of_mem (mem_all s)
  rw [ofWire?, hall, List.foldlM_append]
  refine Option.bind_eq_none_iff.mpr fun _ _ => ?_
  rw [List.foldlM_cons, hs]
  rfl

/-- Those of a list too. -/
theorem ofWire?_list (items : List (Wire α)) :
    ofWire? (.list items) =
      if items.length ≤ Setting.all.length then default.putAll? (Setting.all.zip items) else none :=
  rfl

theorem lookup_zip {β : Type} {l : List Setting} {items : List β} {s : Setting} (hs : s ∈ l) :
    (l.zip items).lookup s = items[l.idxOf s]? := by
  induction l generalizing items with
  | nil => exact absurd hs List.not_mem_nil
  | cons s₁ l ih =>
    rcases items with _ | ⟨w, items⟩
    · rfl
    · rw [List.zip_cons_cons, List.lookup_cons, List.idxOf_cons]
      by_cases hs₁ : s = s₁
      · subst hs₁
        rw [beq_self_eq_true]
        rfl
      · rw [beq_false_of_ne hs₁, beq_false_of_ne (Ne.symm hs₁)]
        exact ih ((List.mem_cons.mp hs).resolve_left hs₁)

theorem fst_zip_sublist {β : Type} : ∀ (l : List Setting) (items : List β),
    ((l.zip items).map Prod.fst).Sublist l
  | [], _ => List.Sublist.refl []
  | s :: l, [] => List.nil_sublist (s :: l)
  | s :: l, _ :: items => (fst_zip_sublist l items).cons_cons s

theorem nodup_all : Setting.all.Nodup := by decide

/-- What is read of a record, and when anything is, is seen from what it gives for each setting. -/
theorem exists_given_or (fields : List (String × Wire α)) :
    (∃ given : Setting → Option (Wire α), ∀ s, Wire.field? fields s.name = some (given s)) ∨
      ofWire? (.record fields) = none ∧ ∃ s : Setting, Wire.field? fields s.name = none := by
  by_cases hall : ∀ s : Setting, ∃ given, Wire.field? fields s.name = some given
  · exact .inl (Classical.axiomOfChoice hall)
  · obtain ⟨s, hs⟩ := not_forall.mp hall
    have hnone := Option.eq_none_iff_forall_ne_some.mpr (not_exists.mp hs)
    exact .inr ⟨ofWire?_record_eq_none hnone, s, hnone⟩

section Answers

variable {F : Option (Options α) → Prop} {Q : Setting → Option (Wire α) → Prop}

/-- **What is decided setting by setting for several settings is for a record**, where every setting
is given what its field says, and none has two fields. -/
theorem ofWire?_record_iff (hnone : ¬F none)
    (hF : ∀ ps, (ps.map Prod.fst).Nodup → (F (default.putAll? ps) ↔ ∀ s, Q s (ps.lookup s)))
    {fields : List (String × Wire α)} :
    F (ofWire? (.record fields)) ↔
      ∀ s : Setting, ∃ given, Wire.field? fields s.name = some given ∧ Q s given := by
  obtain ⟨given, hgiven⟩ | ⟨hrefused, s, hs⟩ := exists_given_or fields
  · rw [ofWire?_record hgiven, hF _ (nodup_givenBy _ nodup_all)]
    refine forall_congr' fun s => ?_
    rw [lookup_givenBy, if_pos (mem_all s), hgiven]
    simp only [Option.some.injEq, exists_eq_left']
  · rw [hrefused]
    refine iff_of_false hnone fun h => ?_
    obtain ⟨_, hgiven, _⟩ := h s
    cases hs.symm.trans hgiven

/-- …and for a list, where the settings for which it is long enough are given what it says. -/
theorem ofWire?_list_iff (hnone : ¬F none)
    (hF : ∀ ps, (ps.map Prod.fst).Nodup → (F (default.putAll? ps) ↔ ∀ s, Q s (ps.lookup s)))
    {items : List (Wire α)} :
    F (ofWire? (.list items)) ↔
      items.length ≤ Setting.all.length ∧ ∀ s, Q s items[Setting.all.idxOf s]? := by
  rw [ofWire?_list]
  by_cases hlength : items.length ≤ Setting.all.length
  · rw [if_pos hlength, hF _ (nodup_all.sublist (fst_zip_sublist _ items))]
    refine Iff.trans (forall_congr' fun s => ?_) (and_iff_right hlength).symm
    rw [lookup_zip (mem_all s)]
  · rw [if_neg hlength]
    exact iff_of_false hnone fun h => hlength h.1

end Answers

/-- **What is read of a record**: every setting that has a field is as the field says, every other
one has its default, and none has two fields. -/
theorem ofWire?_record_eq_some {fields : List (String × Wire α)} :
    ofWire? (.record fields) = some o ↔
      ∀ s : Setting, ∃ given, Wire.field? fields s.name = some given ∧ Reads default o s given :=
  ofWire?_record_iff (F := (· = some o)) nofun fun _ => putAll?_eq_some

/-- A record is refused only for a field that cannot be read, and for one that is given twice. -/
theorem exists_ofWire?_record {fields : List (String × Wire α)} :
    (∃ o, ofWire? (.record fields) = some o) ↔
      ∀ s : Setting, ∃ given, Wire.field? fields s.name = some given ∧
        ∀ w, given = some w → ∃ a, s.ofWire? w = some a :=
  ofWire?_record_iff (F := fun read => ∃ o, read = some o) (by rintro ⟨o, ⟨⟩⟩)
    fun _ => exists_putAll?

/-- **What is read of a list**: the settings for which it is long enough are as it says. -/
theorem ofWire?_list_eq_some {items : List (Wire α)} :
    ofWire? (.list items) = some o ↔ items.length ≤ Setting.all.length ∧
      ∀ s, Reads default o s items[Setting.all.idxOf s]? :=
  ofWire?_list_iff (F := (· = some o)) nofun fun _ => putAll?_eq_some

theorem exists_ofWire?_list {items : List (Wire α)} :
    (∃ o, ofWire? (.list items) = some o) ↔ items.length ≤ Setting.all.length ∧
      ∀ (s : Setting) w, items[Setting.all.idxOf s]? = some w → ∃ a, s.ofWire? w = some a :=
  ofWire?_list_iff (F := fun read => ∃ o, read = some o)
    (Q := fun s given => ∀ w, given = some w → ∃ a, s.ofWire? w = some a) (by rintro ⟨o, ⟨⟩⟩)
    fun _ => exists_putAll?

end Options

/-! ### Written options -/

/-- **A value that can be written**: a finite scalar, or a count of sixty-four bits. -/
def Amount.Writable {α : Type} [Scalar α] : Amount α → Prop
  | .real x => Scalar.isFinite x = true
  | .count n => n < countBound

instance {α : Type} [Scalar α] : ∀ a : Amount α, Decidable a.Writable
  | .real x => inferInstanceAs (Decidable (Scalar.isFinite x = true))
  | .count n => inferInstanceAs (Decidable (n < countBound))

namespace Options

variable {α : Type} [Scalar α] {number : α → Wire α} {o : Options α}

omit [Scalar α] in
/-- The value of a setting fits it. -/
theorem fits_get (o : Options α) (s : Setting) : Fits s (o.get s) := by
  cases s <;> rfl

/-- **A value that fits its setting is read back.** -/
theorem ofWire?_arrives (h : Wire.ReadsFinite number) {s : Setting} : ∀ {a : Amount α},
    Fits s a → a.Writable → s.ofWire? (a.toWire.arrives number) = some a
  | .real x, hs, hx => by
    have hreal : ¬s.isCount = true := (Bool.not_eq_true _).mpr hs
    have hscalar := (Wire.scalar?_arrives h x).trans (if_pos hx)
    rw [Setting.ofWire?, if_neg hreal, Amount.toWire, hscalar, Option.map_some]
  | .count n, hs, hn => by
    have hcount : s.isCount = true := hs
    rw [Setting.ofWire?, if_pos hcount, Amount.toWire, Wire.arrives_ofNat, Wire.count?_ofNat hn,
      Option.map_some]

theorem name_injective : Function.Injective Setting.name := by
  intro s s' h
  cases s <;> cases s' <;> first | rfl | exact absurd h (by decide)

omit [Scalar α] in
/-- The fields of some settings, found by name. -/
theorem field?_map_name (w : Setting → Wire α) {l : List Setting} (hl : l.Nodup) (s : Setting) :
    Wire.field? (l.map fun s => (s.name, w s)) s.name =
      some (if s ∈ l then some (w s) else none) := by
  have hname : ((fun p : String × Wire α => p.1 == s.name) ∘ fun s => (s.name, w s)) =
      fun s' => s' == s :=
    funext fun s' => decide_eq_decide.mpr name_injective.eq_iff
  rw [Wire.field?, List.filter_map, hname, List.filter_beq, hl.count]
  by_cases hs : s ∈ l
  · rw [if_pos hs, if_pos hs]
    rfl
  · rw [if_neg hs, if_neg hs]
    rfl

omit [Scalar α] in
/-- The values of the first settings, found in their places. -/
theorem getElem?_map_take (w : Setting → Wire α) (n : ℕ) (s : Setting) :
    ((Setting.all.take n).map w)[Setting.all.idxOf s]? =
      if s ∈ Setting.all.take n then some (w s) else none := by
  rw [List.getElem?_map, List.getElem?_take, List.getElem?_idxOf (mem_all s),
    if_congr (List.mem_take_iff_idxOf_lt (mem_all s)).symm rfl rfl]
  split <;> rfl

/-- **The defaults with some settings replaced.** -/
theorem get_of_reads {o' : Options α} {l : List Setting} {w : Setting → Wire α} {s : Setting}
    (hw : s.ofWire? (w s) = some (o.get s))
    (h : Reads default o' s (if s ∈ l then some (w s) else none)) :
    o'.get s = if s ∈ l then o.get s else default.get s := by
  split at h
  · rename_i hs
    rw [if_pos hs]
    exact Option.some.inj (h.symm.trans hw)
  · rename_i hs
    rw [if_neg hs]
    exact h

/-- **A record with some of the fields.** -/
theorem ofWire?_some_fields {w : Setting → Wire α} (hw : ∀ s, s.ofWire? (w s) = some (o.get s))
    {l : List Setting} (hl : l.Nodup) :
    ∃ o', ofWire? (.record (l.map fun s => (s.name, w s))) = some o' ∧
      ∀ s, o'.get s = if s ∈ l then o.get s else default.get s := by
  have hfield := field?_map_name w hl
  obtain ⟨o', ho'⟩ : ∃ o', ofWire? (.record (l.map fun s => (s.name, w s))) = some o' := by
    refine exists_ofWire?_record.mpr fun s => ⟨_, hfield s, fun w' hw' => ⟨o.get s, ?_⟩⟩
    split at hw'
    · exact Option.some.inj hw' ▸ hw s
    · cases hw'
  refine ⟨o', ho', fun s => get_of_reads (hw s) ?_⟩
  obtain ⟨given, hgiven, hreads⟩ := ofWire?_record_eq_some.mp ho' s
  exact Option.some.inj (hgiven.symm.trans (hfield s)) ▸ hreads

/-- **A list with the first of the fields.** -/
theorem ofWire?_first_fields {w : Setting → Wire α} (hw : ∀ s, s.ofWire? (w s) = some (o.get s))
    (n : ℕ) : ∃ o', ofWire? (.list ((Setting.all.take n).map w)) = some o' ∧
      ∀ s, o'.get s = if s ∈ Setting.all.take n then o.get s else default.get s := by
  obtain ⟨o', ho'⟩ : ∃ o', ofWire? (.list ((Setting.all.take n).map w)) = some o' := by
    refine exists_ofWire?_list.mpr ⟨?_, fun s w' hw' => ⟨o.get s, ?_⟩⟩
    · rw [List.length_map]
      exact List.length_take_le' n _
    · rw [getElem?_map_take] at hw'
      split at hw'
      · exact Option.some.inj hw' ▸ hw s
      · cases hw'
  refine ⟨o', ho', fun s => get_of_reads (hw s) ?_⟩
  exact getElem?_map_take w n s ▸ (ofWire?_list_eq_some.mp ho').2 s

end Options

/-! ## Everything that is written -/

/-- **What is written is read back**, if the text of every finite scalar is.  A matrix comes back
from its record and from the list of its fields, unless it has an entry that is not finite: then it
is refused.  Whatever the data, a matrix is only made of fields that fit, and of all that do, if the
entries of its shape can be counted.  If they cannot, reading stops there; a machine that lets its
numbers overflow lets through what fits modulo the bound, and otherwise the same matrices.

Options come back from their record, and a record with some of the fields, in any order, or a list
of the first ones gives the defaults with these replaced.  In general a record or list is read as
the options that have what is given for each setting, and the default where nothing is given; it is
refused only for what is given twice or cannot be read, or for its length. -/
theorem Wire.reads_back {α : Type} [Scalar α] (number : α → Wire α) (h : Wire.ReadsFinite number) :
    (∀ m : Matrix α, m.rows < countBound → m.cols < countBound → m.data.size < countBound →
      ∀ w ∈ [m.toWire, m.toWireList],
        Matrix.ofWire? (w.arrives number) = if m.isFinite then some (.ok m) else none) ∧
    (∀ (w : Wire α) (m : Matrix α), Matrix.ofWire? w = some (.ok m) ↔
      ∃ t, Table.ofWire? w = some t ∧ t.rows * t.cols < countBound ∧
        t.rows * t.cols = t.data.size ∧ m.table = t) ∧
    (∀ (w : Wire α) rows cols, Matrix.ofWire? w = some (.error (.uncountable rows cols)) ↔
      ∃ t, Table.ofWire? w = some t ∧ t.shape = (rows, cols) ∧ countBound ≤ rows * cols) ∧
    (∀ (w : Wire α) t, Table.ofWireWrapping? w = some t ↔
      (∃ m, Matrix.ofWire? w = some (.ok m) ∧ m.table = t) ∨
        Table.ofWire? w = some t ∧ countBound ≤ t.rows * t.cols ∧
          t.data.size = t.rows * t.cols % countBound) ∧
    (∀ o : Options α, (∀ s, (o.get s).Writable) →
      Options.ofWire? (o.toWire.arrives number) = some o ∧
      (∀ l : List Setting, l.Nodup → ∃ o',
        Options.ofWire? ((record (l.map fun s => (s.name, (o.get s).toWire))).arrives number) =
          some o' ∧ ∀ s, o'.get s = if s ∈ l then o.get s else Options.default.get s) ∧
      ∀ n, ∃ o', Options.ofWire?
          ((list ((Setting.all.take n).map fun s => (o.get s).toWire)).arrives number) = some o' ∧
        ∀ s, o'.get s = if s ∈ Setting.all.take n then o.get s else Options.default.get s) ∧
    (∀ fields : List (String × Wire α),
      (∀ o, Options.ofWire? (.record fields) = some o ↔
        ∀ s : Setting, ∃ given, field? fields s.name = some given ∧
          Options.default.Reads o s given) ∧
      ((∃ o, Options.ofWire? (.record fields) = some o) ↔
        ∀ s : Setting, ∃ given, field? fields s.name = some given ∧
          ∀ w, given = some w → ∃ a, s.ofWire? w = some a)) ∧
    ∀ items : List (Wire α),
      (∀ o, Options.ofWire? (.list items) = some o ↔ items.length ≤ Setting.all.length ∧
        ∀ s, Options.default.Reads o s items[Setting.all.idxOf s]?) ∧
      ((∃ o, Options.ofWire? (.list items) = some o) ↔ items.length ≤ Setting.all.length ∧
        ∀ (s : Setting) w, items[Setting.all.idxOf s]? = some w → ∃ a, s.ofWire? w = some a) := by
  refine ⟨fun m hrows hcols hsize w hw => ?_, fun w m => Matrix.ofWire?_eq_ok,
    fun w rows cols => Matrix.ofWire?_eq_uncountable, fun w t => Matrix.ofWireWrapping?_eq_some,
    fun o ho => ?_,
    fun fields => ⟨fun o => Options.ofWire?_record_eq_some, Options.exists_ofWire?_record⟩,
    fun items => ⟨fun o => Options.ofWire?_list_eq_some, Options.exists_ofWire?_list⟩⟩
  · rw [List.mem_pair] at hw
    obtain rfl | rfl := hw
    · exact Matrix.ofWire?_toWire h hrows hcols hsize
    · exact Matrix.ofWire?_toWireList h hrows hcols hsize
  · have hread : ∀ s : Setting, s.ofWire? ((o.get s).toWire.arrives number) = some (o.get s) :=
      fun s => Options.ofWire?_arrives h (o.fits_get s) (ho s)
    have hsome : ∀ l : List Setting, l.Nodup → ∃ o',
        Options.ofWire? ((record (l.map fun s => (s.name, (o.get s).toWire))).arrives number) =
          some o' ∧ ∀ s, o'.get s = if s ∈ l then o.get s else Options.default.get s := by
      intro l hl
      rw [arrives, arriveFields_map]
      exact Options.ofWire?_some_fields hread hl
    refine ⟨?_, hsome, fun n => ?_⟩
    · obtain ⟨o', ho', hget⟩ := hsome Setting.all Options.nodup_all
      refine ho'.trans (congrArg some (Options.ext_get fun s => ?_))
      rw [hget, if_pos (Options.mem_all s)]
    · rw [arrives, arriveItems_map]
      exact Options.ofWire?_first_fields hread n

/-- A negative zero and the least positive double. -/
def delicate : Matrix Float := ⟨1, 2, #[-0, 5e-324], rfl⟩

/-- An entry that is not finite. -/
def unbounded : Matrix Float := ⟨1, 1, #[Scalar.infinity], rfl⟩

/-- Fewer steps and a larger tolerance. -/
def hurried : Options Float := { Options.default with maxIterations := 50, globalTolerance := 1e-6 }

/-- Doubles come back from their texts as doubles.  Both entries of the delicate matrix are read
back, a matrix without rows keeps its width, and an infinite entry is refused.  Of a record of two
settings these two are read, and the others keep their defaults. -/
theorem Wire.reads_back_doubles : Wire.ReadsFinite (.real : Float → Wire Float) ∧
    Matrix.ofWire? (delicate.toWire.arrives .real) = some (.ok delicate) ∧
    Matrix.ofWire? ((Matrix.noRows 3 : Matrix Float).toWireList.arrives .real) =
      some (.ok (.noRows 3)) ∧
    Matrix.ofWire? (unbounded.toWire.arrives .real) = none ∧
    (∀ s, (hurried.get s).Writable) ∧
    Options.ofWire? (hurried.toWire.arrives .real) = some hurried ∧
    ∃ o, Options.ofWire? ((record ([Setting.globalTolerance, .maxIterations].map fun s =>
        (s.name, (hurried.get s).toWire))).arrives .real) = some o ∧
      o.get .maxIterations = .count 50 ∧ o.get .gammaTheta = Options.default.get .gammaTheta := by
  have hreads : Wire.ReadsFinite (.real : Float → Wire Float) := fun _ _ => rfl
  obtain ⟨hmatrix, _, _, _, hoptions, _⟩ := Wire.reads_back .real hreads
  have hfinite : delicate.isFinite = true := by decide +kernel
  have hempty : (Matrix.noRows 3 : Matrix Float).isFinite = true := by decide +kernel
  have hinfinite : ¬unbounded.isFinite = true := by decide +kernel
  have hwritable : ∀ s, (hurried.get s).Writable := by
    intro s
    cases s <;> decide +kernel
  obtain ⟨hall, hsome, _⟩ := hoptions hurried hwritable
  obtain ⟨o, ho, hget⟩ := hsome [.globalTolerance, .maxIterations] (by decide)
  refine ⟨hreads, ?_, ?_, ?_, hwritable, hall, o, ho, ?_, ?_⟩
  · rw [hmatrix delicate (by decide) (by decide) (by decide) _ List.mem_cons_self, if_pos hfinite]
  · rw [hmatrix (.noRows 3) (by decide) (by decide) (by decide) _
      (List.mem_cons_of_mem _ List.mem_cons_self), if_pos hempty]
  · rw [hmatrix unbounded (by decide) (by decide) (by decide) _ List.mem_cons_self,
      if_neg hinfinite]
  · exact (hget .maxIterations).trans (if_pos (by decide))
  · exact (hget .gammaTheta).trans (if_neg (by decide))

/-- A shape with `2 ^ 64` entries, and none of them. -/
def vast : Wire Float :=
  .record [("rows", .integer 4294967296), ("cols", .integer 4294967296), ("data", .list [])]

/-- **It is not refused for that**: a machine that checks its products cannot count the entries, and
one that does not counts none of them and lets the shape through. -/
theorem Wire.vast_let_through :
    Matrix.ofWire? vast = some (.error (.uncountable 4294967296 4294967296)) ∧
    ∃ t, Table.ofWireWrapping? vast = some t ∧ t.rows * t.cols ≠ t.data.size := by
  have hread : Table.ofWire? vast = some ⟨4294967296, 4294967296, #[]⟩ := rfl
  refine ⟨Matrix.ofWire?_eq_uncountable.mpr ⟨_, hread, rfl, by decide⟩, _,
    Matrix.ofWireWrapping?_eq_some.mpr (.inr ⟨hread, by decide, by decide⟩), by decide⟩

end InteriorPoint
