import Mathlib
import InteriorPoint.Traced

/-!
# Proofs/Sequence — when a sequence of fallible steps succeeds, and with what it fails

A sequence succeeds exactly if each of its steps does, with the values that the steps hand on
(`bind_eq_ok`, `mapM_eq_ok`), and it fails as the first of its steps that does (`bind_eq_error`,
`exists_of_mapM_eq_error`, `failure?_mapM`).  Every statement about a computation that may fail is
taken apart with these.
-/

namespace InteriorPoint

variable {ε α β γ : Type}

/-- **A sequence succeeds if both of its parts do.** -/
theorem bind_eq_ok {x : Except ε β} {f : β → Except ε γ} {c : γ} :
    (x >>= f) = .ok c ↔ ∃ b, x = .ok b ∧ f b = .ok c := by
  cases x with
  | error err => exact ⟨nofun, fun ⟨_, h, _⟩ => nomatch h⟩
  | ok b => exact ⟨fun h => ⟨b, rfl, h⟩, fun ⟨_, h, hf⟩ => by cases h; exact hf⟩

/-- The same for the sequence that `Traced.result_bind` speaks of. -/
theorem except_bind_eq_ok {x : Except ε β} {f : β → Except ε γ} {c : γ} :
    x.bind f = .ok c ↔ ∃ b, x = .ok b ∧ f b = .ok c := bind_eq_ok

theorem pure_eq_ok {b c : β} : (pure b : Except ε β) = .ok c ↔ b = c :=
  ⟨fun h => Except.ok.inj h, fun h => congrArg _ h⟩

theorem ok_bind (b : β) (f : β → Except ε γ) : (.ok b >>= f : Except ε γ) = f b := rfl

theorem error_bind (err : ε) (f : β → Except ε γ) : (.error err >>= f : Except ε γ) = .error err :=
  rfl

/-- A result with a property that can be evaluated. -/
theorem exists_of_test {x : Except ε β} {test : β → Bool} (h : x.toOption.any test = true) :
    ∃ b, x = .ok b ∧ test b = true := by
  cases x with
  | error err => cases h
  | ok b => exact ⟨b, rfl, h⟩

/-- **A sequence depends on its second part** only through what that makes of the result of the
first. -/
theorem bind_congr_ok {x : Except ε β} {f g : β → Except ε γ} (h : ∀ b, x = .ok b → f b = g b) :
    (x >>= f) = (x >>= g) := by
  cases x with
  | error err => rfl
  | ok b => exact h b rfl

/-- **Every step of a list succeeds**, and the results stand in the order of the steps. -/
theorem mapM_eq_ok {f : β → Except ε γ} : ∀ {bs : List β} {cs : List γ},
    bs.mapM f = .ok cs ↔ List.Forall₂ (fun b c => f b = .ok c) bs cs
  | [], cs => by
    rw [List.mapM_nil, pure_eq_ok, List.forall₂_nil_left_iff, eq_comm]
  | b :: bs, cs => by
    rw [List.mapM_cons, bind_eq_ok, List.forall₂_cons_left_iff]
    refine exists_congr fun c => ?_
    rw [bind_eq_ok]
    refine ⟨fun ⟨hc, cs', hcs, h⟩ => ⟨cs', hc, mapM_eq_ok.mp hcs, (pure_eq_ok.mp h).symm⟩,
      fun ⟨cs', hc, hcs, h⟩ => ⟨hc, cs', mapM_eq_ok.mpr hcs, pure_eq_ok.mpr h.symm⟩⟩

/-- A result of a list of steps is the result of one of them. -/
theorem exists_of_mem_mapM {f : β → Except ε γ} {bs : List β} {cs : List γ}
    (h : bs.mapM f = .ok cs) {c : γ} (hc : c ∈ cs) : ∃ b ∈ bs, f b = .ok c := by
  have hall := mapM_eq_ok.mp h
  clear h
  induction hall with
  | nil => exact absurd hc List.not_mem_nil
  | @cons b c' bs cs hb _ ih =>
    obtain rfl | hc := List.mem_cons.mp hc
    · exact ⟨b, List.mem_cons_self, hb⟩
    · obtain ⟨b', hmem, hb'⟩ := ih hc
      exact ⟨b', List.mem_cons_of_mem b hmem, hb'⟩

/-- **A sequence fails if one of its parts does**, the second one on what the first one gives. -/
theorem bind_eq_error {x : Except ε β} {f : β → Except ε γ} {err : ε} :
    (x >>= f) = .error err ↔ x = .error err ∨ ∃ b, x = .ok b ∧ f b = .error err := by
  cases x with
  | error e =>
    refine ⟨fun h => .inl (congrArg _ (Except.error.inj h)), ?_⟩
    rintro (h | ⟨_, h, _⟩)
    · exact congrArg _ (Except.error.inj h)
    · exact nomatch h
  | ok b =>
    refine ⟨fun h => .inr ⟨b, rfl, h⟩, ?_⟩
    rintro (h | ⟨_, ⟨⟩, h⟩)
    · exact nomatch h
    · exact h

/-- The same for the sequence that `Traced.result_bind` speaks of. -/
theorem except_bind_eq_error {x : Except ε β} {f : β → Except ε γ} {err : ε} :
    x.bind f = .error err ↔ x = .error err ∨ ∃ b, x = .ok b ∧ f b = .error err := bind_eq_error

theorem pure_ne_error {b : β} {err : ε} : (pure b : Except ε β) ≠ .error err := nofun

/-- **A list of steps fails as one of them does.** -/
theorem exists_of_mapM_eq_error {f : β → Except ε γ} {err : ε} :
    ∀ {bs : List β}, bs.mapM f = .error err → ∃ b ∈ bs, f b = .error err
  | [], h => absurd h pure_ne_error
  | b :: bs, h => by
    rw [List.mapM_cons, bind_eq_error] at h
    obtain hb | ⟨c, _, h⟩ := h
    · exact ⟨b, List.mem_cons_self, hb⟩
    · obtain hbs | ⟨_, _, hpure⟩ := bind_eq_error.mp h
      · obtain ⟨b', hmem, hb'⟩ := exists_of_mapM_eq_error hbs
        exact ⟨b', List.mem_cons_of_mem b hmem, hb'⟩
      · exact absurd hpure pure_ne_error

/-- Checks that all succeed. -/
theorem forM_eq_ok {f : β → Except ε PUnit} : ∀ {bs : List β}, (∀ b ∈ bs, f b = .ok ⟨⟩) →
    bs.forM f = .ok ⟨⟩
  | [], _ => rfl
  | b :: bs, h => by
    obtain ⟨hb, hbs⟩ := List.forall_mem_cons.mp h
    rw [List.forM, hb]
    exact forM_eq_ok hbs

/-- …and only those. -/
theorem eq_ok_of_forM {f : β → Except ε Unit} : ∀ {bs : List β}, bs.forM f = .ok () →
    ∀ b ∈ bs, f b = .ok ()
  | [], _ => fun _ hb => absurd hb List.not_mem_nil
  | b :: bs, h => by
    obtain ⟨_, hb, hbs⟩ := bind_eq_ok.mp h
    exact List.forall_mem_cons.mpr ⟨hb, eq_ok_of_forM hbs⟩

/-- Lists that are related through two equal readings read the same. -/
theorem map_eq_of_forall₂ {f : β → γ} {g : α → γ} {bs : List β} {as : List α}
    (h : List.Forall₂ (fun b a => f b = g a) bs as) : bs.map f = as.map g := by
  rw [← List.forall₂_eq_eq_eq, List.forall₂_map_left_iff, List.forall₂_map_right_iff]
  exact h

/-- The results of steps, cut where the steps are cut. -/
theorem exists_of_forall₂_append {R : β → γ → Prop} {b : β} {after : List β} :
    ∀ {before : List β} {cs : List γ}, List.Forall₂ R (before ++ b :: after) cs →
      ∃ front c back, cs = front ++ c :: back ∧ List.Forall₂ R before front ∧ R b c
  | [], cs, h => by
    obtain ⟨c, back, hc, _, rfl⟩ := List.forall₂_cons_left_iff.mp h
    exact ⟨[], c, back, rfl, .nil, hc⟩
  | b' :: before, cs, h => by
    obtain ⟨c', cs, hc', hcs, rfl⟩ := List.forall₂_cons_left_iff.mp h
    obtain ⟨front, c, back, rfl, hfront, hc⟩ := exists_of_forall₂_append hcs
    exact ⟨c' :: front, c, back, rfl, .cons hc' hfront, hc⟩

/-! ## The first failure -/

/-- The error of a computation that fails. -/
def failure? : Except ε β → Option ε
  | .ok _ => none
  | .error err => some err

theorem failure?_eq_some {x : Except ε β} {err : ε} : failure? x = some err ↔ x = .error err := by
  cases x <;> simp [failure?]

theorem failure?_eq_none {x : Except ε β} : failure? x = none ↔ ∃ b, x = .ok b := by
  cases x <;> simp [failure?]

/-- A sequence fails as its first part does, or as its second part would after any result of the
first. -/
theorem failure?_bind {x : Except ε β} {f : β → Except ε γ} {o : Option ε}
    (h : ∀ b, x = .ok b → failure? (f b) = o) : failure? (x >>= f) = (failure? x).or o := by
  cases x with
  | error err => rfl
  | ok b => exact h b rfl

/-- **A list of steps fails as the first of them that does.** -/
theorem failure?_mapM (f : β → Except ε γ) (bs : List β) :
    failure? (bs.mapM f) = bs.findSome? fun b => failure? (f b) := by
  induction bs with
  | nil => rfl
  | cons b bs ih =>
    have htail : ∀ c, f b = .ok c →
        failure? (bs.mapM f >>= fun cs => pure (c :: cs)) =
          bs.findSome? fun b => failure? (f b) := by
      intro c _
      rw [failure?_bind (o := none) fun _ _ => rfl, ih, Option.or_none]
    rw [List.mapM_cons, failure?_bind htail, List.findSome?_cons]
    cases f b <;> rfl

/-- …and so does a list of checks. -/
theorem failure?_forM (f : β → Except ε Unit) (bs : List β) :
    failure? (bs.forM f) = bs.findSome? fun b => failure? (f b) := by
  induction bs with
  | nil => rfl
  | cons b bs ih =>
    rw [List.forM, failure?_bind fun _ _ => ih, List.findSome?_cons]
    cases f b <;> rfl

/-! ## Sequences that report -/

/-- A sequence that reports depends on its second part only through what that makes of the result of
the first. -/
theorem Traced.bind_congr_ok {t : Traced α β} {f g : β → Traced α γ}
    (h : ∀ b, t.result = .ok b → f b = g b) : (t >>= f) = (t >>= g) := by
  change bind t f = bind t g
  unfold Traced.bind
  rcases hresult : t.result with err | b
  · rfl
  · simp only [h b hresult]

/-- A step that reports nothing has the result it had before. -/
@[simp] theorem Traced.result_liftM (r : Except (Error α) β) :
    (liftM r : Traced α β).result = r := rfl

end InteriorPoint
