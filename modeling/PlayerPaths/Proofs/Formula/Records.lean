import Mathlib.Data.List.Nodup
import PlayerPaths.Proofs.Formula.Construction
import PlayerPaths.Proofs.Formula.Values

/-!
# Fields of records

A record with one field replaced has the new value in this field, and in every other field the value
from before: `Build.get_set_self` and `Build.get_set_of_ne`. Evaluation is strict, so a field of the
new record has a value only if all of its fields have one. The field of the new record *agrees* with
what it should be (`Formula.Agrees`): it never has another value, and it has the same value wherever
the old record and the new value have one.
-/

namespace PlayerPaths

/-! ## Reading a field -/

namespace Build

variable {a b : Formula} {r : Record} {field : String}

theorem get_found {i : Nat} (ha : requireRecord a = .ok r) (hi : r.fieldIndex? field = some i) :
    Build.get a field = .ok (.unary (.get r i) a) := by
  simp [Build.get, ha, hi]

/-- Why there is no such field depends on the record only. -/
theorem get_missing (ha : requireRecord a = .ok r) (hb : requireRecord b = .ok r)
    (hi : r.fieldIndex? field = none) : Build.get a field = Build.get b field := by
  simp only [Build.get, ha, hb, bind, Except.bind, hi]

theorem get_failure {e : Error} (ha : requireRecord a = .error e) :
    Build.get a field = .error e := by
  rw [Build.get, ha]
  rfl

end Build

namespace Formula

variable {D D' : Assignment → Prop} {a b c : Formula} {σ : Assignment}

/-! ## Agreement -/

/-- A formula that is equal to another one under some assignments, and has no other value under all
others. -/
structure Agrees (D : Assignment → Prop) (a b : Formula) : Prop where
  sort : a.sort = b.sort
  refines : a.Refines b
  eval : ∀ σ, D σ → a.eval σ = b.eval σ

theorem Agrees.refl (a : Formula) : a.Agrees D a := ⟨rfl, .refl a, fun _ _ => rfl⟩

theorem Agrees.trans (hab : a.Agrees D b) (hbc : b.Agrees D c) : a.Agrees D c :=
  ⟨hab.sort.trans hbc.sort, hab.refines.trans hbc.refines,
    fun σ hσ => (hab.eval σ hσ).trans (hbc.eval σ hσ)⟩

theorem Agrees.mono (h : a.Agrees D' b) (hD : ∀ σ, D σ → D' σ) : a.Agrees D b :=
  ⟨h.sort, h.refines, fun σ hσ => h.eval σ (hD σ hσ)⟩

/-- The fields of records that agree do so, too. -/
theorem Agrees.get (h : a.Agrees D b) (r : Record) (i : Nat) :
    (Formula.unary (.get r i) a).Agrees D (.unary (.get r i) b) := by
  refine ⟨rfl, h.refines.unary, fun σ hσ => ?_⟩
  rw [Formula.eval, Formula.eval, h.eval σ hσ]

/-- Two computations end in formulas that agree, or in the same error. -/
def OutcomesAgree (D : Assignment → Prop) : Result Formula → Result Formula → Prop
  | .ok a, .ok b => a.Agrees D b
  | .error e, .error e' => e = e'
  | _, _ => False

theorem OutcomesAgree.refl (x : Result Formula) : OutcomesAgree D x x := by
  cases x with
  | ok a => exact Agrees.refl a
  | error e => exact rfl

theorem OutcomesAgree.trans {x y z : Result Formula} (hxy : OutcomesAgree D x y)
    (hyz : OutcomesAgree D y z) : OutcomesAgree D x z := by
  cases x <;> cases y <;> cases z <;> first
    | exact hxy.elim
    | exact hyz.elim
    | exact Eq.trans hxy hyz
    | exact Agrees.trans hxy hyz

theorem OutcomesAgree.mono {x y : Result Formula} (h : OutcomesAgree D' x y)
    (hD : ∀ σ, D σ → D' σ) : OutcomesAgree D x y := by
  cases x <;> cases y <;> first | exact h | exact Agrees.mono h hD

theorem OutcomesAgree.exists_eval_eq {x : Result Formula} (h : OutcomesAgree D x (.ok b)) :
    ∃ a, x = .ok a ∧ ∀ σ, D σ → a.eval σ = b.eval σ := by
  cases x with
  | ok a => exact ⟨a, rfl, Agrees.eval h⟩
  | error e => exact h.elim

/-- Which field is read, or why there is none, is a matter of the sort. -/
theorem Agrees.build_get (h : a.Agrees D b) (field : String) :
    OutcomesAgree D (Build.get a field) (Build.get b field) := by
  have hrecord : Build.requireRecord a = Build.requireRecord b := by
    unfold Build.requireRecord
    rw [h.sort]
  cases hb : Build.requireRecord b with
  | error e =>
      rw [Build.get_failure (hrecord.trans hb), Build.get_failure hb]
      exact rfl
  | ok r =>
      cases hi : r.fieldIndex? field with
      | none =>
          rw [Build.get_missing (hrecord.trans hb) hb hi]
          exact .refl _
      | some i =>
          rw [Build.get_found (hrecord.trans hb) hi, Build.get_found hb hi]
          exact h.get r i

theorem OutcomesAgree.build_get {x y : Result Formula} (h : OutcomesAgree D x y) (field : String) :
    OutcomesAgree D (do Build.get (← x) field) (do Build.get (← y) field) := by
  cases x with
  | ok a =>
      cases y with
      | ok b => exact Agrees.build_get h field
      | error e => exact h.elim
  | error e =>
      cases y with
      | ok b => exact h.elim
      | error e' => exact h

/-! ## Strictness -/

/-- Under an assignment, the value of a formula is a constant of a sort. -/
def HasValue (σ : Assignment) (s : SmtSort) (e : Formula) : Prop :=
  ∃ v, e.eval σ = .ok v ∧ v.isConstant = true ∧ v.HasSort s

/-- A field of a record has a value if and only if all fields have one. -/
theorem eval_get_make_eq_ok {r r' : Record} {i : Nat} {es : List Formula} {v : Formula} :
    (Formula.unary (.get r i) (.nary (.make r') es)).eval σ = .ok v ↔
      (∀ e ∈ es, ∃ x, e.eval σ = .ok x) ∧ ∃ e, es[i]? = some e ∧ e.eval σ = .ok v := by
  have happly : ∀ vs : List Formula, (UnaryFunction.get r i).apply (.nary (.make r') vs) = .ok v ↔
      vs[i]? = some v := by
    intro vs
    simp only [UnaryFunction.apply]
    cases vs[i]? <;> simp
  rw [eval_unary_eq_ok]
  constructor
  · rintro ⟨x, hx, hfield⟩
    obtain ⟨vs, hvs, rfl⟩ := eval_make_eq_ok.mp hx
    rw [happly] at hfield
    refine ⟨fun e he => ?_, ?_⟩
    · obtain ⟨x, -, hx⟩ := forall₂_exists_of_mem_left hvs he
      exact ⟨x, hx⟩
    · obtain ⟨hlt, rfl⟩ := List.getElem?_eq_some_iff.mp hfield
      have hlt' : i < es.length := by rwa [hvs.length_eq]
      refine ⟨es[i], List.getElem?_eq_getElem hlt', ?_⟩
      exact (List.forall₂_iff_get.mp hvs).2 i hlt' hlt
  · rintro ⟨hall, e, he, hv⟩
    obtain ⟨vs, hvs⟩ := exists_mapM_ok hall
    have hvs := mapM_eq_ok.mp hvs
    refine ⟨.nary (.make r') vs, eval_make_eq_ok.mpr ⟨vs, hvs, rfl⟩, (happly vs).mpr ?_⟩
    obtain ⟨hlt, rfl⟩ := List.getElem?_eq_some_iff.mp he
    have hlt' : i < vs.length := by rwa [← hvs.length_eq]
    have hx : es[i].eval σ = .ok vs[i] := (List.forall₂_iff_get.mp hvs).2 i hlt hlt'
    rw [List.getElem?_eq_getElem hlt', Except.ok.inj (hx.symm.trans hv)]

/-- The field of a record agrees with the formula in it, where all fields have values. -/
theorem agrees_get_make {r : Record} {i : Nat} {es : List Formula}
    (hi : es[i]? = some a) (hsort : a.sort = .ok ((r.fieldSort? i).getD .bool))
    (hall : ∀ σ, D σ → ∀ e ∈ es, ∃ x, e.eval σ = .ok x) :
    (Formula.unary (.get r i) (.nary (.make r) es)).Agrees D a := by
  refine ⟨hsort.symm, fun σ v hv => ?_, fun σ hσ => ?_⟩
  · obtain ⟨-, e, he, hv⟩ := eval_get_make_eq_ok.mp hv
    obtain rfl : a = e := Option.some.inj (hi.symm.trans he)
    exact hv
  · obtain ⟨x, hx⟩ := hall σ hσ a (List.mem_of_getElem? hi)
    rw [hx]
    exact eval_get_make_eq_ok.mpr ⟨hall σ hσ, a, hi, hx⟩

end Formula

open Formula

namespace Record

variable {r : Record} {i j : Nat} {f : String} {s : SmtSort} {e u : Formula} {σ : Assignment}

/-- No two fields have the same name. -/
def Distinct (r : Record) : Prop := (r.fields.map Prod.fst).Nodup

theorem Distinct.eq_iff (h : r.Distinct) (hi : i < r.fields.length) (hj : j < r.fields.length) :
    r.fields[i].1 = r.fields[j].1 ↔ i = j := by
  have hi' : i < (r.fields.map Prod.fst).length := by simpa using hi
  have hj' : j < (r.fields.map Prod.fst).length := by simpa using hj
  have hnames : (r.fields.map Prod.fst)[i] = (r.fields.map Prod.fst)[j] ↔ i = j :=
    List.Nodup.getElem_inj_iff h
  simpa using hnames

theorem Distinct.fieldIndex? (h : r.Distinct) (hi : r.fields[i]? = some (f, s)) :
    r.fieldIndex? f = some i := by
  obtain ⟨hlt, hfield⟩ := List.getElem?_eq_some_iff.mp hi
  refine List.findIdx?_eq_some_iff_getElem.mpr ⟨hlt, by simp [hfield], fun j hj => ?_⟩
  have hne := (h.eq_iff (Nat.lt_trans hj hlt) hlt).not.mpr (Nat.ne_of_lt hj)
  simpa [hfield] using hne

/-- The fields of a record, with the one at a position replaced. -/
def replace (r : Record) (e : Formula) (i : Nat) (value : Formula) : List Formula :=
  (List.range r.fields.length).map fun j => if j = i then value else .unary (.get r j) e

theorem length_replace : (r.replace e i u).length = r.fields.length := by simp [replace]

theorem getElem?_replace (hj : j < r.fields.length) :
    (r.replace e i u)[j]? = some (if j = i then u else .unary (.get r j) e) := by
  simp [replace, hj]

end Record

/-- The fields of a value are values. -/
theorem Formula.HasValue.get {r : Record} {i : Nat} {f : String} {s : SmtSort} {e : Formula}
    {σ : Assignment} (h : e.HasValue σ r.sort) (hi : r.fields[i]? = some (f, s)) :
    (Formula.unary (.get r i) e).HasValue σ s := by
  obtain ⟨v, hv, hc, hs⟩ := h
  obtain ⟨vs, rfl, hconstant, hfields⟩ := constant_record hc hs
  obtain ⟨hlt, hfield⟩ := List.getElem?_eq_some_iff.mp hi
  have hlt' : i < vs.length := by rwa [hfields.length_eq]
  refine ⟨vs[i], eval_unary_eq_ok.mpr ⟨_, hv, ?_⟩, hconstant _ (List.getElem_mem hlt'), ?_⟩
  · simp [UnaryFunction.apply, hlt']
  · have hs := (List.forall₂_iff_get.mp hfields).2 i hlt' hlt
    simpa [hfield] using hs

namespace Build

variable {D : Assignment → Prop} {r : Record} {i : Nat} {f g : String} {s t : SmtSort}
  {e u : Formula} {σ : Assignment}

theorem get_ok (he : e.sort = .ok r.sort) (hr : r.Distinct) (hi : r.fields[i]? = some (f, s)) :
    Build.get e f = .ok (.unary (.get r i) e) :=
  get_eq_ok.mpr ⟨r, i, he, hr.fieldIndex? hi, rfl⟩

theorem sort_get (hi : r.fields[i]? = some (f, s)) : (Formula.unary (.get r i) e).sort = .ok s := by
  simp [Formula.sort, Record.fieldSort?, hi]

theorem make_ok {es : List Formula} (h : List.Forall₂ (fun e f => e.sort = .ok f.2) es r.fields) :
    Build.make r es = .ok (.nary (.make r) es) := by
  unfold Build.make
  rw [if_neg (not_not.mpr h.length_eq), bind_eq_ok]
  refine ⟨(), forM_eq_ok.mpr ?_, rfl⟩
  rintro ⟨e, name, s⟩ hmem
  have hs : e.sort = .ok s := List.forall₂_zip h hmem
  simp [hs]

/-- Replacing a field of a record succeeds with a value of the sort of the field. -/
theorem set_ok (he : e.sort = .ok r.sort) (hr : r.Distinct) (hi : r.fields[i]? = some (f, s))
    (hu : u.sort = .ok s) : Build.set e f u = .ok (.nary (.make r) (r.replace e i u)) := by
  obtain ⟨hlt, hfield⟩ := List.getElem?_eq_some_iff.mp hi
  have hget : ∀ j (hj : j < (r.replace e i u).length),
      (r.replace e i u)[j] = if j = i then u else .unary (.get r j) e := by
    intro j hj
    simp [Record.replace]
  unfold Build.set
  rw [bind_eq_ok]
  refine ⟨r, requireRecord_eq_ok.mpr he, bind_eq_ok.mpr ⟨r.replace e i u, ?_, ?_⟩⟩
  · refine mapM_eq_ok.mpr (List.forall₂_iff_get.mpr ⟨Record.length_replace.symm, ?_⟩)
    intro j hj hj'
    show (if r.fields[j].1 == f then pure u else Build.get e r.fields[j].1) =
      .ok (r.replace e i u)[j]
    have hname : r.fields[j].1 = f ↔ j = i := by
      rw [← hr.eq_iff hj hlt, hfield]
    by_cases h : j = i
    · rw [if_pos (by simpa using hname.mpr h), hget, if_pos h]
      rfl
    · rw [if_neg (by simpa using hname.not.mpr h), hget, if_neg h]
      exact get_ok he hr (List.getElem?_eq_getElem hj)
  · refine make_ok (List.forall₂_iff_get.mpr ⟨Record.length_replace, fun j hj hj' => ?_⟩)
    show (r.replace e i u)[j].sort = .ok r.fields[j].2
    rw [hget]
    by_cases h : j = i
    · subst h
      simp [hu, hfield]
    · rw [if_neg h]
      exact sort_get (List.getElem?_eq_getElem hj')

/-- The fields of the new record have values when the old one and the new field do. -/
theorem exists_eval_replace (he : e.HasValue σ r.sort) (hu : ∃ x, u.eval σ = .ok x) :
    ∀ c ∈ r.replace e i u, ∃ x, c.eval σ = .ok x := by
  intro c hc
  obtain ⟨j, hj, rfl⟩ := List.mem_map.mp hc
  by_cases h : j = i
  · rwa [if_pos h]
  · rw [if_neg h]
    obtain ⟨x, hx, -⟩ := he.get (List.getElem?_eq_getElem (List.mem_range.mp hj))
    exact ⟨x, hx⟩

theorem exists_eval_set (he : e.HasValue σ r.sort) (hu : ∃ x, u.eval σ = .ok x) :
    ∃ x, (Formula.nary (.make r) (r.replace e i u)).eval σ = .ok x := by
  obtain ⟨vs, hvs⟩ := exists_mapM_ok (exists_eval_replace (i := i) he hu)
  exact ⟨.nary (.make r) vs, eval_make_eq_ok.mpr ⟨vs, mapM_eq_ok.mp hvs, rfl⟩⟩

/-- **The field that was replaced has the new value.** -/
theorem get_set_self (hr : r.Distinct) (hi : r.fields[i]? = some (f, s)) (hu : u.sort = .ok s)
    (hD : ∀ σ, D σ → e.HasValue σ r.sort ∧ ∃ x, u.eval σ = .ok x) :
    OutcomesAgree D (Build.get (.nary (.make r) (r.replace e i u)) f) (.ok u) := by
  obtain ⟨hlt, -⟩ := List.getElem?_eq_some_iff.mp hi
  have hfield : (r.replace e i u)[i]? = some u := by
    rw [Record.getElem?_replace hlt, if_pos rfl]
  rw [get_ok rfl hr hi]
  refine agrees_get_make hfield ?_ ?_
  · rw [hu, Record.fieldSort?, hi]
    rfl
  · intro σ hσ
    exact exists_eval_replace (hD σ hσ).1 (hD σ hσ).2

/-- **The other fields are as before.** -/
theorem get_set_of_ne (he : e.sort = .ok r.sort) (hi : r.fields[i]? = some (f, s))
    (hD : ∀ σ, D σ → e.HasValue σ r.sort ∧ ∃ x, u.eval σ = .ok x) (hne : f ≠ g) :
    OutcomesAgree D (Build.get (.nary (.make r) (r.replace e i u)) g) (Build.get e g) := by
  have hnew : requireRecord (.nary (.make r) (r.replace e i u)) = .ok r :=
    requireRecord_eq_ok.mpr rfl
  have hold : requireRecord e = .ok r := requireRecord_eq_ok.mpr he
  cases hj : r.fieldIndex? g with
  | none =>
      rw [get_missing hnew hold hj]
      exact .refl _
  | some j =>
      obtain ⟨hlt, hname, -⟩ := List.findIdx?_eq_some_iff_getElem.mp hj
      have hji : j ≠ i := by
        rintro rfl
        rw [List.getElem?_eq_getElem hlt, Option.some.injEq] at hi
        exact hne (by simpa [hi] using hname)
      have hfield : (r.replace e i u)[j]? = some (.unary (.get r j) e) := by
        rw [Record.getElem?_replace hlt, if_neg hji]
      rw [get_found hnew hj, get_found hold hj]
      refine agrees_get_make hfield rfl fun σ hσ => ?_
      exact exists_eval_replace (hD σ hσ).1 (hD σ hσ).2

end Build

end PlayerPaths
