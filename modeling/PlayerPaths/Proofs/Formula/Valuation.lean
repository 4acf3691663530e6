import PlayerPaths.Proofs.Formula.Construction
import PlayerPaths.Proofs.Formula.NormalForm

/-!
# Formulas under values of their variables

A formula is true of values of the sorts of its variables (`Formula.IsTrue`), and formulas are
satisfiable when one choice of values makes all of them true. A formula that is built takes a value
that its parts determine (`Formula.Takes`).
-/

namespace PlayerPaths

open Formula

variable {σ : Assignment}

/-- A formula is true of values of the sorts of its variables. -/
def Formula.IsTrue (e : Formula) (σ : Assignment) : Prop :=
  Assigns σ e.occurrences ∧ e.eval σ = .ok (.bool true)

/-- Some values make all of the formulas true. -/
def Satisfiable (es : List Formula) : Prop := ∃ σ : Assignment, ∀ e ∈ es, e.IsTrue σ

/-- One number for all variables makes formulas true. -/
theorem satisfiable_of_number {es : List Formula} (x : Float)
    (hsorts : ∀ e ∈ es, ∀ p ∈ e.occurrences, p.2 = .real)
    (htrue : ∀ e ∈ es, e.eval (fun _ => some (.lit (.real x))) = .ok (.bool true)) :
    Satisfiable es := by
  refine ⟨fun _ => some (.lit (.real x)), fun e he => ⟨fun name s hvar => ?_, htrue e he⟩⟩
  obtain rfl : s = .real := hsorts e he _ hvar
  exact ⟨_, rfl, rfl, rfl, inRange_lit.mpr rfl⟩

theorem Formula.IsTrue.simplify {e e' : Formula} (h : e.IsTrue σ) (hs : e.HasSort .bool)
    (he : e.simplify = .ok e') : e'.IsTrue σ :=
  ⟨fun name t ht => h.1 name t (occurrences_simplify hs he ht), simplify_refines hs he h.2⟩

/-- A well-sorted formula has a value under values of the sorts of its variables. -/
structure Formula.Takes (e : Formula) (σ : Assignment) (v : Formula) : Prop where
  wellSorted : e.WellSorted
  assigns : Assigns σ e.occurrences
  eval : e.eval σ = .ok v

namespace Formula.Takes

variable {a b v w : Formula}

theorem isTrue (h : a.Takes σ (.bool true)) : a.IsTrue σ := ⟨h.assigns, h.eval⟩

theorem hasSort_bool {c : Bool} (h : a.Takes σ (.bool c)) : a.HasSort .bool := by
  obtain ⟨s, hs⟩ := h.wellSorted
  obtain ⟨-, hv⟩ := eval_hasSort hs h.assigns h.eval
  obtain rfl : Literal.sort (.bool c) = s := hasSort_lit.mp hv
  exact hs

theorem var {name : String} {s : SmtSort} (hσ : σ name = some v) (hv : v.IsValue s) :
    (Formula.var name s).Takes σ v where
  wellSorted := ⟨s, hasSort_var.mpr rfl⟩
  assigns n t h := by
    obtain ⟨rfl, rfl⟩ : n = name ∧ t = s := by simpa [mem_occurrences] using h
    exact ⟨v, hσ, hv⟩
  eval := eval_var_eq_ok.mpr hσ

theorem lit (l : Literal) : (Formula.lit l).Takes σ (.lit l) where
  wellSorted := wellSorted_lit l
  assigns := by simp [Assigns, mem_occurrences]
  eval := rfl

theorem assigns_unary {f : UnaryFunction} (ha : a.Takes σ v) :
    Assigns σ (Formula.unary f a).occurrences := by
  intro name s h
  refine ha.assigns name s (mem_occurrences.mpr ?_)
  simpa using mem_occurrences.mp h

theorem assigns_binary {f : BinaryFunction} (ha : a.Takes σ v) (hb : b.Takes σ w) :
    Assigns σ (Formula.binary f a b).occurrences := by
  intro name s h
  rcases mem_parts_binary.mp (mem_occurrences.mp h) with heq | hvar | hvar
  · cases heq
  · exact ha.assigns name s (mem_occurrences.mpr hvar)
  · exact hb.assigns name s (mem_occurrences.mpr hvar)

/-! ## Built formulas -/

theorem build_compareArith (ha : a.Takes σ v) (hb : b.Takes σ w) {x y : Float}
    (hx : v.number? = some x) (hy : w.number? = some y) {op : ArithComparison} :
    Yields (·.Takes σ (.bool (op.holds x y))) (Build.compareArith op a b) := by
  intro e he
  have hs := Build.compareArith_hasSort ha.wellSorted hb.wellSorted he
  obtain ⟨-, rfl⟩ := Build.compareArith_eq_ok.mp he
  refine ⟨hs.wellSorted, ha.assigns_binary hb, eval_binary_eq_ok.mpr ⟨v, w, ha.eval, hb.eval, ?_⟩⟩
  exact apply_compareArith_eq_ok.mpr ⟨x, y, hx, hy, rfl⟩

theorem build_eq (ha : a.Takes σ v) (hb : b.Takes σ w) :
    Yields (·.Takes σ (.bool (v = w))) (Build.eq a b) := by
  intro e he
  have hs := Build.eq_hasSort ha.wellSorted hb.wellSorted he
  obtain ⟨-, rfl⟩ := Build.eq_eq_ok.mp he
  exact ⟨hs.wellSorted, ha.assigns_binary hb, eval_eq_eq_ok.mpr ⟨v, w, ha.eval, hb.eval, rfl⟩⟩

theorem build_not {c : Bool} (ha : a.Takes σ (.bool c)) :
    Yields (·.Takes σ (.bool !c)) (Build.not a) := by
  intro e he
  have hs := Build.not_hasSort ha.wellSorted he
  obtain ⟨-, rfl⟩ := Build.not_eq_ok.mp he
  exact ⟨hs.wellSorted, ha.assigns_unary, eval_not_eq_ok.mpr ⟨c, ha.eval, rfl⟩⟩

theorem build_and {es : List Formula} {cs : List Bool}
    (h : List.Forall₂ (fun e c => e.Takes σ (.bool c)) es cs) :
    Yields (·.Takes σ (.bool (cs.all (· = true)))) (Build.and es) := by
  intro e he
  have hmem : ∀ a ∈ es, ∃ c, a.Takes σ (.bool c) := fun a ha => by
    obtain ⟨c, -, hc⟩ := forall₂_exists_of_mem_left h ha
    exact ⟨c, hc⟩
  obtain ⟨-, rfl⟩ := Build.and_eq_ok.mp he
  refine ⟨⟨.bool, hasSort_and.mpr ⟨rfl, fun a ha => ?_⟩⟩, fun name s hvar => ?_,
    (eval_junction_eq_ok (.inl rfl)).mpr ⟨_, rfl, fun a ha => ?_, ?_⟩⟩
  · obtain ⟨c, hc⟩ := hmem a ha
    exact hc.hasSort_bool
  · rcases mem_parts_nary.mp (mem_occurrences.mp hvar) with heq | ⟨a, ha, hvar⟩
    · cases heq
    · obtain ⟨c, hc⟩ := hmem a ha
      exact hc.assigns name s (mem_occurrences.mpr hvar)
  · obtain ⟨c, hc⟩ := hmem a ha
    exact ⟨c, hc.eval⟩
  · have hall := all_truths (h.imp fun _ _ hc => hc.eval) true
    simpa [neutral] using hall

/-- A field of the default value of a record is the default value of its sort. -/
theorem build_get {s : SmtSort} {field : String} (ha : a.Takes σ s.zero) (hs : a.sort = .ok s) :
    Yields (fun e => ∃ t, e.sort = .ok t ∧ e.Takes σ t.zero) (Build.get a field) := by
  have hzeros : ∀ (fields : List (String × SmtSort)) (i : Nat),
      (SmtSort.zeros fields)[i]? = fields[i]?.map fun f => f.2.zero := by
    intro fields
    induction fields with
    | nil => simp [SmtSort.zeros]
    | cons f fields ih =>
        intro i
        cases i with
        | zero => rfl
        | succ i => exact ih i
  intro e he
  have hsorted := Build.get_wellSorted ha.wellSorted he
  obtain ⟨r, i, hr, hi, rfl⟩ := Build.get_eq_ok.mp he
  obtain rfl : s = r.sort := Except.ok.inj (hs.symm.trans hr)
  obtain ⟨hlt, -⟩ := List.findIdx?_eq_some_iff_getElem.mp hi
  have hfield : r.fields[i]? = some r.fields[i] := List.getElem?_eq_getElem hlt
  refine ⟨r.fields[i].2, by simp [Formula.sort, Record.fieldSort?, hfield], hsorted,
    ha.assigns_unary, eval_unary_eq_ok.mpr ⟨_, ha.eval, ?_⟩⟩
  have hvalue : (SmtSort.zeros r.fields)[i]? = some r.fields[i].2.zero := by
    rw [hzeros, hfield]
    rfl
  simp only [Record.sort, SmtSort.zero, UnaryFunction.apply, hvalue]
  rfl

end Formula.Takes

end PlayerPaths
