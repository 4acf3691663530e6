import PlayerPaths.Proofs.Computation

/-!
# Outcomes of computations

A computation *meets* a condition on errors and a condition on values when it ends in an error with
the one or in a value with the other. What a sequence of steps meets follows step by step
(`meets_bind`), so a function is described once, for its errors and its values together.
-/

namespace PlayerPaths

variable {ε α β : Type} {E : ε → Prop} {P Q : α → Prop} {R : β → Prop}

/-- A computation ends in an error with a property or in a value with one. -/
def Meets (E : ε → Prop) (Q : α → Prop) : Except ε α → Prop
  | .ok a => Q a
  | .error e => E e

@[simp] theorem meets_ok {a : α} : Meets E Q (.ok a) ↔ Q a := Iff.rfl

@[simp] theorem meets_error {e : ε} : Meets E Q (.error e) ↔ E e := Iff.rfl

@[simp] theorem meets_pure {a : α} : Meets E Q (pure a : Except ε α) ↔ Q a := Iff.rfl

@[simp] theorem meets_throw {e : ε} : Meets E Q (throw e : Except ε α) ↔ E e := Iff.rfl

theorem meets_bind {x : Except ε α} {f : α → Except ε β} :
    Meets E R (x >>= f) ↔ Meets E (fun a => Meets E R (f a)) x := by
  cases x <;> rfl

namespace Meets

theorem imp {x : Except ε α} (h : Meets E P x) (himp : ∀ a, P a → Q a) : Meets E Q x := by
  cases x with
  | error e => exact h
  | ok a => exact himp a h

/-- More errors may be met than there are. -/
theorem weaken {E' : ε → Prop} {x : Except ε α} (h : Meets E Q x) (himp : ∀ e, E e → E' e) :
    Meets E' Q x := by
  cases x with
  | error e => exact himp e h
  | ok a => exact h

theorem bind {x : Except ε α} {f : α → Except ε β} (hx : Meets E Q x)
    (hf : ∀ a, Q a → Meets E R (f a)) : Meets E R (x >>= f) :=
  meets_bind.mpr (hx.imp hf)

/-- A step that fails is not followed by others. -/
theorem throw_bind {e : ε} {f : α → Except ε β} (he : E e) : Meets E R (throw e >>= f) := he

/-- A check that ends a computation, and what comes behind it. -/
theorem guard {p : Prop} [Decidable p] {e : ε} {f : α → Except ε β} {y : Except ε β}
    (he : p → E e) (hy : ¬ p → Meets E R y) :
    Meets E R (if p then throw e >>= f else y) := by
  by_cases h : p
  · rw [if_pos h]
    exact he h
  · rw [if_neg h]
    exact hy h

theorem pure {a : α} (h : Q a) : Meets E Q (Pure.pure a : Except ε α) := h

theorem throw {e : ε} (h : E e) : Meets E Q (MonadExceptOf.throw e : Except ε α) := h

theorem value {x : Except ε α} (h : Meets E Q x) {a : α} (hx : x = .ok a) : Q a := by
  rwa [hx] at h

theorem error {x : Except ε α} (h : Meets E Q x) {e : ε} (hx : x = .error e) : E e := by
  rwa [hx] at h

/-- What is known about the value of a computation that meets something. -/
theorem and_value {x : Except ε α} (h : Meets E P x) (hx : ∀ a, x = .ok a → Q a) : Meets E Q x := by
  cases x with
  | error e => exact h
  | ok a => exact hx a rfl

/-- A step whose value is named for the steps behind it. -/
theorem eq_ok {x : Except ε α} (h : Meets E P x) : Meets E (fun a => x = .ok a) x :=
  h.and_value fun _ ha => ha

/-! ## Lists -/

/-- The value of a computation as the only one of a list. -/
theorem singleton {x : Except ε α} (h : Meets E Q x) :
    Meets E (fun as => ∀ a ∈ as, Q a) (do return [← x]) :=
  h.bind fun _ ha => pure (List.forall_mem_singleton.mpr ha)

theorem mapM {f : α → Except ε β} {l : List α} (h : ∀ a ∈ l, Meets E R (f a)) :
    Meets E (fun bs => ∀ b ∈ bs, R b) (l.mapM f) := by
  induction l with
  | nil => exact pure (by simp)
  | cons a l ih =>
      obtain ⟨ha, hl⟩ := List.forall_mem_cons.mp h
      rw [List.mapM_cons]
      refine ha.bind fun b hb => (ih hl).bind fun bs hbs => pure ?_
      exact List.forall_mem_cons.mpr ⟨hb, hbs⟩

theorem forM {f : α → Except ε Unit} {l : List α} (h : ∀ a ∈ l, Meets E (fun _ => True) (f a)) :
    Meets E (fun _ => True) (l.forM f) := by
  induction l with
  | nil => exact pure trivial
  | cons a l ih =>
      obtain ⟨ha, hl⟩ := List.forall_mem_cons.mp h
      exact ha.bind fun _ _ => ih hl

theorem filterM {p : α → Except ε Bool} {l : List α}
    (h : ∀ a ∈ l, Meets E (fun _ => True) (p a)) :
    Meets E (fun kept => ∀ a ∈ kept, a ∈ l) (l.filterM p) := by
  have hloop : ∀ (l acc : List α), (∀ a ∈ l, Meets E (fun _ => True) (p a)) →
      Meets E (fun _ => True) (l.filterAuxM p acc) := by
    intro l
    induction l with
    | nil => exact fun acc _ => pure trivial
    | cons a l ih =>
        intro acc h
        obtain ⟨ha, hl⟩ := List.forall_mem_cons.mp h
        exact ha.bind fun _ _ => ih _ hl
  have hall : Meets E (fun _ => True) (l.filterM p) :=
    (hloop l [] h).bind fun _ _ => pure trivial
  exact hall.and_value fun kept hkept a ha => (filterM_eq_ok hkept).1.subset ha

theorem findM? {p : α → Except ε Bool} {l : List α}
    (h : ∀ a ∈ l, Meets E (fun _ => True) (p a)) :
    Meets E (fun found => ∀ a ∈ found, a ∈ l) (l.findM? p) := by
  induction l with
  | nil => exact pure (by simp)
  | cons a l ih =>
      obtain ⟨ha, hl⟩ := List.forall_mem_cons.mp h
      refine ha.bind fun t _ => ?_
      cases t with
      | true => exact pure (by simp)
      | false => exact (ih hl).imp fun found hfound b hb => List.mem_cons_of_mem a (hfound b hb)

theorem foldlM {f : β → α → Except ε β} {l : List α} {b : β} (hb : R b)
    (h : ∀ b, R b → ∀ a ∈ l, Meets E R (f b a)) : Meets E R (l.foldlM f b) := by
  induction l generalizing b with
  | nil => exact pure hb
  | cons a l ih =>
      rw [List.foldlM_cons]
      refine (h b hb a List.mem_cons_self).bind fun c hc => ?_
      exact ih hc fun b hb a ha => h b hb a (List.mem_cons_of_mem _ ha)

end Meets

end PlayerPaths
