import PlayerPaths.Proofs.Formula.Construction
import PlayerPaths.Proofs.Solve.Composition
import PlayerPaths.Proofs.Solve.Cubes
import PlayerPaths.Proofs.Solve.Plans

/-!
# Queries

What the solver works on: conjunctions over known variables, in range and in normal form
(`Searchable`), which are queries when they are truth values (`Query`). The simplified conjunction
of the assertions is one (`searchable_of_assertions`, `query_of_assertions`), and so are the
literals of its cubes (`Searchable.literals`, `Query.literals`), which are therefore left alone when
they are simplified again.
-/

namespace PlayerPaths

open Formula

/-- A well-sorted formula, or a conjunction of such formulas: an assertion may have any sort. -/
def Formula.Conjoined (e : Formula) : Prop := e.Every fun p => p.WellSorted ∨ ∃ es, p = .and es

theorem Formula.WellSorted.conjoined {e : Formula} (h : e.WellSorted) : e.Conjoined := by
  obtain ⟨s, hs⟩ := h
  exact fun p hp => .inl (hs.part hp)

/-- The arithmetic in a formula is arithmetic in another one. -/
def Formula.ArithmeticOf (l e : Formula) : Prop :=
  ∀ op x y, .binary (.arith op) x y ∈ l.parts → .binary (.arith op) x y ∈ e.parts

theorem Formula.ArithmeticOf.part {e l p : Formula} (h : l.ArithmeticOf e) (hp : p ∈ l.parts) :
    p.ArithmeticOf e :=
  fun op x y hmem => h op x y (mem_parts_trans hmem hp)

/-- What is no truth value is its own normal form and its only literal. -/
theorem Formula.nnf_of_ne_bool {e : Formula} {s : SmtSort} (hs : e.HasSort s) (hne : s ≠ .bool)
    (hr : e.InRange) : e.nnf false = .ok e ∧ e.literals = [e] := by
  cases e with
  | var name t => exact ⟨rfl, rfl⟩
  | lit v =>
      cases v with
      | bool b => exact absurd (hasSort_lit.mp hs).symm hne
      | _ => exact ⟨rfl, rfl⟩
  | unary f a =>
      cases f with
      | not => exact absurd (hasSort_not.mp hs).1 hne
      | _ => exact ⟨rfl, rfl⟩
  | binary f a b => exact ⟨rfl, rfl⟩
  | ite c a b =>
      have ha := (sort_sized (hasSort_ite.mp hs).2.1 (InRange.sized (every_ite.mp hr).2.2.1)).1
      have hbool : s.isBool = false := by cases s <;> first | rfl | exact absurd rfl hne
      exact ⟨by simp [nnf, ha, hbool], rfl⟩
  | nary f es =>
      cases f with
      | make r => exact ⟨rfl, rfl⟩
      | and => exact absurd (hasSort_and.mp hs).1 hne
      | or => exact absurd (hasSort_or.mp hs).1 hne

/-- A normal conjunction over some variables whose leaves can be written where they are read. -/
structure Searchable (vars : List (String × SmtSort)) (e : Formula) : Prop where
  conjoined : e.Conjoined
  inRange : e.InRange
  normal : e.Normal
  occurs : ∀ name s, .var name s ∈ e.parts → (name, s) ∈ vars
  mirrored : ∀ l ∈ e.leaves, l.Mirrored

namespace Searchable

variable {vars : List (String × SmtSort)}

/-- A part of a searchable formula, with its leaves among those of the formula. -/
theorem operand {e a : Formula} (h : Searchable vars e) (hp : a ∈ e.parts)
    (hl : ∀ l ∈ a.leaves, l ∈ e.leaves) : Searchable vars a where
  conjoined := h.conjoined.part hp
  inRange := h.inRange.part hp
  normal := h.normal.part hp
  occurs name s hv := h.occurs name s (mem_parts_trans hv hp)
  mirrored l hmem := h.mirrored l (hl l hmem)

theorem member {f : NaryFunction} {es : List Formula} (h : Searchable vars (.nary f es))
    {e : Formula} (he : e ∈ es) : Searchable vars e := by
  refine h.operand (mem_parts_operand he) fun l hl => ?_
  rw [leaves, leavesAll_eq]
  exact List.mem_flatMap.mpr ⟨e, he, hl⟩

/-- The leaves of a searchable formula can be written where they are read. -/
theorem leafOf {e l : Formula} (h : Searchable vars e) (hl : l ∈ e.leaves) :
    ∃ t, LeafOf vars l t ∧ t.inRange = true := by
  obtain ⟨hp, hleaf⟩ := mem_leaves hl
  rcases h.conjoined l hp with ⟨t, ht⟩ | ⟨es, rfl⟩
  · exact ⟨t, ⟨hleaf, ht, fun name s hv => h.occurs name s (mem_parts_trans hv hp),
      h.mirrored l hl⟩, sort_inRange ht (h.inRange.part hp)⟩
  · cases hleaf

/-- The constants of a searchable formula are values. -/
theorem constant_isValue {e c : Formula} (h : Searchable vars e) (hc : c ∈ e.constants) :
    ∃ t, c.IsValue t := by
  obtain ⟨hp, hconst⟩ := mem_constants hc
  rcases h.conjoined c hp with ⟨t, ht⟩ | ⟨es, rfl⟩
  · exact ⟨t, hconst, ht, h.inRange.part hp⟩
  · cases hconst

theorem constantsAll_isValue {es : List Formula} (h : ∀ e ∈ es, Searchable vars e) :
    ∀ c ∈ setOf (constantsAll es), ∃ t, c.IsValue t := by
  intro c hc
  rw [mem_setOf, constantsAll_eq] at hc
  obtain ⟨e, he, hc⟩ := List.mem_flatMap.mp hc
  exact (h e he).constant_isValue hc

/-- A searchable formula is left alone when it is simplified. -/
theorem simplifyAll_eq {es : List Formula} (h : ∀ e ∈ es, Searchable vars e) :
    simplifyAll es = .ok es := by
  rw [Formula.simplifyAll_eq, mapM_eq_ok, List.forall₂_same]
  exact fun e he => (h e he).normal.simplify_eq

end Searchable

/-- A normal truth value over some variables whose leaves can be written where they are read. -/
structure Query (vars : List (String × SmtSort)) (e : Formula) : Prop where
  hasSort : e.HasSort .bool
  inRange : e.InRange
  normal : e.Normal
  occurs : ∀ name s, .var name s ∈ e.parts → (name, s) ∈ vars
  mirrored : ∀ l ∈ e.leaves, l.Mirrored

namespace Query

variable {vars : List (String × SmtSort)}

theorem searchable {e : Formula} (h : Query vars e) : Searchable vars e where
  conjoined := h.hasSort.wellSorted.conjoined
  inRange := h.inRange
  normal := h.normal
  occurs := h.occurs
  mirrored := h.mirrored

/-- A truth value inside a query, with its leaves among those of the query. -/
theorem operand {e a : Formula} (h : Query vars e) (hs : a.HasSort .bool) (hp : a ∈ e.parts)
    (hl : ∀ l ∈ a.leaves, l ∈ e.leaves) : Query vars a where
  hasSort := hs
  inRange := h.inRange.part hp
  normal := h.normal.part hp
  occurs name s hv := h.occurs name s (mem_parts_trans hv hp)
  mirrored l hmem := h.mirrored l (hl l hmem)

theorem not {e : Formula} (h : Query vars (.not e)) : Query vars e :=
  h.operand (hasSort_not.mp h.hasSort).2 (by simp) (by simp [leaves, isLeaf])

theorem member {f : NaryFunction} {es : List Formula} (hf : f = .and ∨ f = .or)
    (h : Query vars (.nary f es)) {e : Formula} (he : e ∈ es) : Query vars e := by
  refine h.operand (((hasSort_junction hf).mp h.hasSort).2 e he) ?_ fun l hl => ?_
  · exact mem_parts_operand he
  · rw [leaves, leavesAll_eq]
    exact List.mem_flatMap.mpr ⟨e, he, hl⟩

theorem ite {c a b : Formula} (h : Query vars (.ite c a b)) :
    Query vars c ∧ Query vars a ∧ Query vars b := by
  obtain ⟨hc, ha, hb⟩ := hasSort_ite.mp h.hasSort
  refine ⟨h.operand hc (by simp) ?_, h.operand ha (by simp) ?_, h.operand hb (by simp) ?_⟩
  all_goals
    intro l hl
    simp [leaves, hl]

/-- The contrary of a comparison is settled when the comparison is: if it could be computed, so
could the comparison. -/
theorem settled_contrary {f g : BinaryFunction} {a b : Formula} (hf : f ≠ .eq) (hg : g ≠ .eq)
    (hvalue : a.isConstant = true → b.isConstant = true → ∃ v, f.apply a b = .ok (.bool v))
    (h : Settled (.binary f a b)) : Settled (.binary g a b) := by
  have hconst : (a.isConstant && b.isConstant) = false := by
    by_contra hc
    rw [Bool.not_eq_false, Bool.and_eq_true] at hc
    obtain ⟨v, hv⟩ := hvalue hc.1 hc.2
    simp [Settled, simplifyBinary, foldOr, hc.1, hc.2, hv] at h
  simp [Settled, simplifyBinary, foldOr, hconst]

theorem compareBits_value {c : BitComparison} {a b : Formula}
    (h : (Formula.binary (.compareBits c) a b).HasSort .bool) (ha : a.isConstant = true)
    (hb : b.isConstant = true) :
    ∃ v, (BinaryFunction.compareBits c).apply a b = .ok (.bool v) := by
  obtain ⟨s, t, hs, ht, hf⟩ := hasSort_binary.mp h
  obtain ⟨⟨w, rfl, rfl⟩, -⟩ := result?_compareBits.mp hf
  obtain ⟨m, rfl⟩ := constant_bitVec ha hs
  obtain ⟨n, rfl⟩ := constant_bitVec hb ht
  exact ⟨_, rfl⟩

theorem compareArith_value {c : ArithComparison} {a b : Formula}
    (h : (Formula.binary (.compareArith c) a b).HasSort .bool) (ha : a.isConstant = true)
    (hb : b.isConstant = true) :
    ∃ v, (BinaryFunction.compareArith c).apply a b = .ok (.bool v) := by
  obtain ⟨s, t, hs, ht, hf⟩ := hasSort_binary.mp h
  obtain ⟨rfl | rfl, rfl, -⟩ := result?_compareArith.mp hf
  · obtain ⟨i, rfl⟩ := constant_int ha hs
    obtain ⟨j, rfl⟩ := constant_int hb ht
    exact ⟨_, rfl⟩
  · obtain ⟨x, rfl⟩ := constant_real ha hs
    obtain ⟨y, rfl⟩ := constant_real hb ht
    exact ⟨_, rfl⟩

theorem settled_not {e : Formula} (hc : e.isConstant = false) (hn : ∀ a, e ≠ .not a) :
    Settled (.not e) := by
  change foldOr e.isConstant _ _ = _
  rw [hc]
  cases e with
  | unary f a =>
      cases f with
      | not => exact absurd rfl (hn a)
      | _ => rfl
  | _ => rfl

/-- A comparison of the same operands that is a truth value too. -/
theorem contrary {f g : BinaryFunction} {a b : Formula} (h : Query vars (.binary f a b))
    (hsort : ∀ s t, g.result? s t = f.result? s t) (hsettled : Settled (.binary g a b)) :
    Query vars (.binary g a b) where
  hasSort := by simpa [hsort] using h.hasSort
  inRange := every_binary.mpr ⟨rfl, (every_binary.mp h.inRange).2⟩
  normal := every_binary.mpr ⟨hsettled, (every_binary.mp h.normal).2⟩
  occurs name s hv := h.occurs name s (by simpa using hv)
  mirrored := h.mirrored

theorem negateAtom {e : Formula} (hb : ∀ b, e ≠ .bool b) (hn : ∀ a, e ≠ .not a)
    (h : Query vars e) : Query vars (negateAtom e) := by
  unfold Formula.negateAtom
  split
  · next c a b =>
    exact h.contrary (fun s t => by cases s <;> cases t <;> rfl)
      (settled_contrary (by simp) (by simp) (compareBits_value h.hasSort) h.normal.self)
  · next c a b =>
    exact h.contrary (fun s t => by cases s <;> cases t <;> rfl)
      (settled_contrary (by simp) (by simp) (compareArith_value h.hasSort) h.normal.self)
  · have hc : e.isConstant = false := by
      by_contra hc
      obtain ⟨b, rfl⟩ := constant_bool (by simpa using hc) h.hasSort
      exact hb b rfl
    exact {
      hasSort := hasSort_not.mpr ⟨rfl, h.hasSort⟩
      inRange := every_unary.mpr ⟨rfl, h.inRange⟩
      normal := every_unary.mpr ⟨settled_not hc hn, h.normal⟩
      occurs := fun name s hv => h.occurs name s (by simpa using hv)
      mirrored := by simpa [leaves, isLeaf] using h.mirrored }

/-- **The literals of a query are queries.** -/
theorem literals {e e' : Formula} {negated : Bool} (hnnf : e.nnf negated = .ok e')
    (h : Query vars e) : ∀ l ∈ e'.literals, Query vars l ∧ l.IsLiteral :=
  nnf_literals (fun _ h => h.not) (fun _ _ hf h _ he => h.member hf he)
    (fun _ _ _ _ hs h => ⟨sort_agrees h.ite.2.1.hasSort hs, h.ite⟩)
    (fun _ hb hn h => h.negateAtom hb hn) hnnf h

/-- The literals of a query compute what the query computes. -/
theorem literals_arithmetic {e e' : Formula} {negated : Bool} (hnnf : e.nnf negated = .ok e')
    (h : Query vars e) : ∀ l ∈ e'.literals, l.ArithmeticOf e := by
  intro l hl
  refine (nnf_literals (Q := fun l => Query vars l ∧ l.ArithmeticOf e) ?_ ?_ ?_ ?_ hnnf
    ⟨h, fun _ _ _ hp => hp⟩ l hl).1.2
  · rintro a ⟨ha, harith⟩
    exact ⟨ha.not, harith.part (by simp)⟩
  · rintro f es hf ⟨hes, harith⟩ a ha
    exact ⟨hes.member hf ha, harith.part (mem_parts_operand ha)⟩
  · rintro c a b s hs ⟨hite, harith⟩
    obtain ⟨hc, ha, hb⟩ := hite.ite
    exact ⟨sort_agrees ha.hasSort hs, ⟨hc, harith.part (by simp)⟩, ⟨ha, harith.part (by simp)⟩,
      hb, harith.part (by simp)⟩
  · rintro a hb hn ⟨ha, harith⟩
    refine ⟨ha.negateAtom hb hn, fun op x y hp => harith op x y ?_⟩
    unfold Formula.negateAtom at hp
    split at hp <;> simpa using hp

/-- A query is left alone when it is simplified. -/
theorem simplifyAll_eq {es : List Formula} (h : ∀ e ∈ es, Query vars e) :
    simplifyAll es = .ok es :=
  Searchable.simplifyAll_eq fun e he => (h e he).searchable

end Query

theorem Searchable.query {vars : List (String × SmtSort)} {e : Formula} (h : Searchable vars e)
    (hs : e.HasSort .bool) : Query vars e where
  hasSort := hs
  inRange := h.inRange
  normal := h.normal
  occurs := h.occurs
  mirrored := h.mirrored

/-- **The literals of a searchable formula are searchable**, and compute what the formula
computes. -/
theorem Searchable.literals {vars : List (String × SmtSort)} {e e' : Formula}
    (hnnf : e.nnf false = .ok e') (h : Searchable vars e) :
    ∀ l ∈ e'.literals, Searchable vars l ∧ l.ArithmeticOf e := by
  have single : ∀ {e e' : Formula}, e.WellSorted → e.nnf false = .ok e' → Searchable vars e →
      ∀ l ∈ e'.literals, Searchable vars l ∧ l.ArithmeticOf e := by
    rintro e e' ⟨s, hs⟩ hnnf h l hl
    by_cases hbool : s = .bool
    · subst hbool
      have hquery := h.query hs
      exact ⟨(hquery.literals hnnf l hl).1.searchable, hquery.literals_arithmetic hnnf l hl⟩
    · obtain ⟨hself, hliterals⟩ := nnf_of_ne_bool hs hbool h.inRange
      obtain rfl := Except.ok.inj (hself.symm.trans hnnf)
      obtain rfl : l = e := by simpa [hliterals] using hl
      exact ⟨h, fun _ _ _ hp => hp⟩
  induction e generalizing e' with
  | nary f es ih =>
      rcases h.conjoined.self with hs | ⟨es', heq⟩
      · exact single hs hnnf h
      · cases heq
        obtain ⟨ms, hms, rfl⟩ := (nnf_junction_eq_ok (.inl rfl)).mp hnnf
        intro l hl
        rw [literals_junction (dual_cases (.inl rfl) false)] at hl
        obtain ⟨m, hm, hl⟩ := List.mem_flatMap.mp hl
        obtain ⟨e, he, hnnf⟩ := forall₂_exists_of_mem_right hms hm
        obtain ⟨hsearchable, harith⟩ := ih e he hnnf (h.member he) l hl
        exact ⟨hsearchable, fun op x y hp =>
          mem_parts_nary.mpr (.inr ⟨e, he, harith op x y hp⟩)⟩
  | _ => exact single (h.conjoined.self.resolve_right (by simp)) hnnf h

/-! ## Variables -/

/-- The variables of a formula are listed once, each with its sort, if no name has two. -/
theorem mem_freeVariables {e : Formula} (h : Functional e.occurrences) {name : String}
    {s : SmtSort} : (name, s) ∈ e.freeVariables.toList ↔ .var name s ∈ e.parts := by
  have hflat : [e].flatMap occurrences = e.occurrences := by simp
  rw [freeVariables, variablesOf, hflat, mem_toList_ofList h, mem_occurrences]

/-- The variables of a formula over its own variables have one sort each, with supported widths. -/
theorem Searchable.freeVariables {e : Formula} (h : Functional e.occurrences)
    (hsearchable : Searchable e.freeVariables.toList e) :
    Functional e.freeVariables.toList ∧ ∀ v ∈ e.freeVariables.toList, v.2.inRange = true := by
  constructor
  · intro name s t hs ht
    rw [mem_freeVariables h, ← mem_occurrences] at hs ht
    exact h name s t hs ht
  · intro v hv
    have hpart : .var v.1 v.2 ∈ e.parts := (mem_freeVariables h).mp hv
    exact hsearchable.inRange _ hpart

theorem Query.freeVariables {e : Formula} (h : Functional e.occurrences)
    (hquery : Query e.freeVariables.toList e) :
    Functional e.freeVariables.toList ∧ ∀ v ∈ e.freeVariables.toList, v.2.inRange = true :=
  hquery.searchable.freeVariables h

theorem junction_conjoined {es : List Formula} (h : ∀ e ∈ es, e.Conjoined) :
    (junction .and es).Conjoined := by
  have hms := membersAll_every (f := .and) h
  rcases junction_cases .and es with ⟨h, -⟩ | ⟨h, -⟩ | ⟨m, hm, h, -⟩ | ⟨ms, h, hms'⟩
  · rw [h]
    exact (wellSorted_lit _).conjoined
  · rw [h]
    exact (wellSorted_lit _).conjoined
  · rw [h]
    exact hms m hm
  · rw [h]
    exact every_nary.mpr ⟨.inr ⟨ms, rfl⟩, fun m hm => hms m ((hms' m).mp hm).1⟩

/-- **The simplified conjunction of well-sorted assertions is searchable** over its variables, which
are variables of the assertions. -/
theorem searchable_of_assertions {assertions : List Formula} {formula : Formula}
    (hsort : ∀ a ∈ assertions, a.WellSorted) (hrange : ∀ a ∈ assertions, a.InRange)
    (hvars : Functional (assertions.flatMap occurrences))
    (hsimplify : (Formula.and assertions).simplify = .ok formula)
    (hleaves : ∀ l ∈ formula.leaves, l.Mirrored) :
    (∀ o ∈ formula.occurrences, o ∈ assertions.flatMap occurrences) ∧
      Functional formula.occurrences ∧ Searchable formula.freeVariables.toList formula := by
  obtain ⟨es, hes, hjunction⟩ := (simplify_junction_eq_ok (.inl rfl)).mp hsimplify
  have hmembers : ∀ e ∈ es, e.WellSorted ∧ e.InRange ∧
      e.Every (varIn (assertions.flatMap occurrences)) := by
    intro e he
    obtain ⟨a, ha, hsimp⟩ := forall₂_exists_of_mem_right hes he
    obtain ⟨s, hs⟩ := hsort a ha
    refine ⟨⟨s, simplify_hasSort hs hsimp⟩, simplify_every stable_nodeInRange hs hsimp (hrange a ha),
      simplify_every (stable_varIn _) hs hsimp fun p hp name t heq => ?_⟩
    subst heq
    exact List.mem_flatMap.mpr ⟨a, ha, mem_occurrences.mpr hp⟩
  have hvarIn := junction_every (stable_varIn _) (.inl rfl) fun e he => (hmembers e he).2.2
  rw [← hjunction] at hvarIn
  have hsub : ∀ o ∈ formula.occurrences, o ∈ assertions.flatMap occurrences := fun o ho =>
    hvarIn _ (mem_occurrences.mp ho) o.1 o.2 rfl
  have hfunctional : Functional formula.occurrences := fun name s t hs ht =>
    hvars name s t (hsub _ hs) (hsub _ ht)
  exact ⟨hsub, hfunctional, {
    conjoined := hjunction ▸ junction_conjoined fun e he => (hmembers e he).1.conjoined
    inRange := hjunction ▸
      junction_every stable_nodeInRange (.inl rfl) fun e he => (hmembers e he).2.1
    normal := simplify_normal hsimplify
    occurs := fun name s hv => (mem_freeVariables hfunctional).mpr hv
    mirrored := hleaves }⟩

/-- **The simplified conjunction of assertions that are truth values is a query.** -/
theorem query_of_assertions {assertions : List Formula} {formula : Formula}
    (hsort : ∀ a ∈ assertions, a.HasSort .bool) (hrange : ∀ a ∈ assertions, a.InRange)
    (hvars : Functional (assertions.flatMap occurrences))
    (hsimplify : (Formula.and assertions).simplify = .ok formula)
    (hleaves : ∀ l ∈ formula.leaves, l.Mirrored) :
    (∀ o ∈ formula.occurrences, o ∈ assertions.flatMap occurrences) ∧
      Functional formula.occurrences ∧ Query formula.freeVariables.toList formula := by
  obtain ⟨hsub, hfunctional, hsearchable⟩ := searchable_of_assertions
    (fun a ha => (hsort a ha).wellSorted) hrange hvars hsimplify hleaves
  have hand : (Formula.and assertions).HasSort .bool := hasSort_and.mpr ⟨rfl, hsort⟩
  exact ⟨hsub, hfunctional, hsearchable.query (simplify_hasSort hand hsimplify)⟩

end PlayerPaths
