import PlayerPaths.Proofs.Collections
import PlayerPaths.Proofs.Formula.Simplification
import PlayerPaths.Proofs.Formula.Sizes

/-!
# Parts of simplified formulas

Simplification makes no new kinds of parts: a property of parts that the rules keep is inherited by
the simplified formula (`simplify_every`). The simplified formula is *normal*, no rule applies to
any part of it (`simplify_normal`), and normal formulas are left alone (`Normal.simplify_eq`), so
simplifying twice is simplifying once (`simplify_idempotent`).
-/

namespace PlayerPaths

/-- No field of a record is a record. -/
def SmtSort.isFlat : SmtSort → Bool
  | .record _ fields => fields.all fun f => f.2.record?.isNone
  | _ => true

namespace Formula

theorem mem_members_trans {f : NaryFunction} {e m : Formula} (hm : m ∈ members f e) :
    m ∈ e.parts := by
  induction e with
  | nary g es ih =>
      by_cases hfg : f = g
      · subst hfg
        rw [members_nary] at hm
        obtain ⟨e, he, hm⟩ := List.mem_flatMap.mp hm
        exact mem_parts_nary.mpr (.inr ⟨e, he, ih e he hm⟩)
      · obtain rfl : m = .nary g es := by simpa [members, hfg] using hm
        exact mem_parts_self _
  | _ =>
      obtain rfl := by simpa [members] using hm
      exact mem_parts_self _

theorem membersAll_every {P : Formula → Prop} {f : NaryFunction} {es : List Formula}
    (hes : ∀ e ∈ es, e.Every P) : ∀ m ∈ membersAll f es, m.Every P := by
  intro m hm
  rw [membersAll_eq] at hm
  obtain ⟨e, he, hm⟩ := List.mem_flatMap.mp hm
  exact (hes e he).part (mem_members_trans hm)

/-! ## Properties of parts -/

theorem simplifyIte_every {P : Formula → Prop} {c a b : Formula} (h : (Formula.ite c a b).Every P) :
    (simplifyIte c a b).Every P := by
  obtain ⟨-, -, ha, hb⟩ := every_ite.mp h
  rcases simplifyIte_cases c a b with ⟨-, h⟩ | ⟨-, h⟩ | ⟨-, h⟩ | h
  · rwa [h]
  · rwa [h]
  · rwa [h]
  · rwa [h]

/-- A property of parts that every rule keeps. What it says about an application depends on the
function and the sorts of the operands only. -/
structure Stable (P : Formula → Prop) : Prop where
  bool : ∀ b, P (.bool b)
  computed : ∀ {e v : Formula} {s}, e.Every P → e.HasSort s → Computed v → v.HasSort s → P v
  unary : ∀ {f} {a a' : Formula} {s}, a.HasSort s → a'.HasSort s → P (.unary f a) → P (.unary f a')
  binary : ∀ {f} {a a' b b' : Formula} {s t}, a.HasSort s → a'.HasSort s → b.HasSort t →
    b'.HasSort t → P (.binary f a b) → P (.binary f a' b')
  ite : ∀ {c c' a a' b b' : Formula} {s}, (Formula.ite c a b).HasSort s →
    (Formula.ite c' a' b').HasSort s → P (.ite c a b) → P (.ite c' a' b')
  make : ∀ {r es es'}, P (.nary (.make r) es) → P (.nary (.make r) es')
  connective : ∀ {f : NaryFunction} {es}, f = .and ∨ f = .or → P (.nary f es)
  eq : ∀ {a b}, P (.eq a b)

section

variable {P : Formula → Prop} (hP : Stable P)

include hP

theorem junction_every {f : NaryFunction} (hf : f = .and ∨ f = .or) {es : List Formula}
    (hes : ∀ e ∈ es, e.Every P) : (junction f es).Every P := by
  have hms := membersAll_every (f := f) hes
  rcases junction_cases f es with ⟨h, -⟩ | ⟨h, -⟩ | ⟨m, hm, h, -⟩ | ⟨ms, h, hms'⟩
  · rw [h]
    exact every_lit.mpr (hP.bool _)
  · rw [h]
    exact every_lit.mpr (hP.bool _)
  · rw [h]
    exact hms m hm
  · rw [h]
    exact every_nary.mpr ⟨hP.connective hf, fun m hm => hms m ((hms' m).mp hm).1⟩

theorem equate_every {a b : Formula} (ha : a.Every P) (hb : b.Every P) : (equate a b).Every P := by
  induction a, b using equate_induction with
  | constants a b _ _ h =>
      rw [h]
      exact every_lit.mpr (hP.bool _)
  | same a h =>
      rw [h]
      exact every_lit.mpr (hP.bool _)
  | records r s as bs h ih =>
      rw [h]
      refine junction_every hP (.inl rfl) fun e he => ?_
      obtain ⟨p, hp, rfl⟩ := mem_zipWith he
      have hmem := List.of_mem_zip hp
      exact ih p hp ((every_nary.mp ha).2 _ hmem.1) ((every_nary.mp hb).2 _ hmem.2)
  | other a b h =>
      rw [h]
      exact every_binary.mpr ⟨hP.eq, ha, hb⟩

theorem simplifyUnary_every {f : UnaryFunction} {a e : Formula} {s : SmtSort}
    (hs : (Formula.unary f a).HasSort s) (ha : (Formula.unary f a).Every P)
    (h : simplifyUnary f a = .ok e) : e.Every P := by
  have hpart : ∀ p ∈ a.parts, p.Every P := fun p hp =>
    ha.part (mem_parts_unary.mpr (.inr hp))
  rcases simplifyUnary_cases h with ⟨hc, hv⟩ | ⟨rfl, rfl⟩ | ⟨r, i, u, fields, rfl, rfl, hi⟩ | rfl
  · obtain ⟨t, ht, hf⟩ := hasSort_unary.mp hs
    have he := UnaryFunction.apply_hasSort hf hc ht hv
    rcases UnaryFunction.apply_computed hv with hcomp | ⟨r, es, rfl, hmem⟩
    · obtain ⟨l, rfl⟩ := hcomp.isLit
      have hsort := (hasSort_unary.mpr ⟨t, ht, hf⟩).unique hs
      exact every_lit.mpr (hP.computed ha hs hcomp (hsort ▸ he.2))
    · exact hpart e (mem_parts_operand hmem)
  · exact hpart e (by simp)
  · exact hpart e (mem_parts_operand (List.mem_of_getElem? hi))
  · exact ha

theorem simplifyBinary_every {f : BinaryFunction} {a b e : Formula} {s : SmtSort}
    (hs : (Formula.binary f a b).HasSort s) (ha : (Formula.binary f a b).Every P)
    (h : simplifyBinary f a b = .ok e) : e.Every P := by
  have hops := every_binary.mp ha
  rcases simplifyBinary_cases h with ⟨rfl, rfl⟩ | ⟨-, hca, hcb, hv⟩ | ⟨-, rfl⟩
  · exact equate_every hP hops.2.1 hops.2.2
  · obtain ⟨t, u, ht, hu, hf⟩ := hasSort_binary.mp hs
    have he := BinaryFunction.apply_hasSort hf hca hcb ht hu hv
    have hcomp := BinaryFunction.apply_computed hv
    obtain ⟨l, rfl⟩ := hcomp.isLit
    exact every_lit.mpr (hP.computed ha hs hcomp he.2)
  · exact ha

/-- **Parts of simplified formulas.** A stable property of all parts of a well-sorted formula holds
of all parts of the simplified formula. -/
theorem simplify_every {e e' : Formula} {s : SmtSort} (hs : e.HasSort s)
    (h : e.simplify = .ok e') (he : e.Every P) : e'.Every P := by
  induction e using ind_connective generalizing e' s with
  | var name t =>
      obtain rfl := by simpa [simplify] using h
      exact he
  | lit v =>
      obtain rfl := by simpa [simplify] using h
      exact he
  | unary f a ih =>
      obtain ⟨t, ha, hf⟩ := hasSort_unary.mp hs
      obtain ⟨a', ha', h⟩ := simplify_unary_eq_ok.mp h
      have hsort := simplify_hasSort ha ha'
      refine simplifyUnary_every hP (hasSort_unary.mpr ⟨t, hsort, hf⟩) ?_ h
      exact every_unary.mpr
        ⟨hP.unary ha hsort (every_unary.mp he).1, ih ha ha' (every_unary.mp he).2⟩
  | binary f a b iha ihb =>
      obtain ⟨t, u, ha, hb, hf⟩ := hasSort_binary.mp hs
      obtain ⟨a', b', ha', hb', h⟩ := simplify_binary_eq_ok.mp h
      have hsa := simplify_hasSort ha ha'
      have hsb := simplify_hasSort hb hb'
      obtain ⟨hnode, hea, heb⟩ := every_binary.mp he
      refine simplifyBinary_every hP (hasSort_binary.mpr ⟨t, u, hsa, hsb, hf⟩) ?_ h
      exact every_binary.mpr
        ⟨hP.binary ha hsa hb hsb hnode, iha ha ha' hea, ihb hb hb' heb⟩
  | ite c a b ihc iha ihb =>
      obtain ⟨hc, ha, hb⟩ := hasSort_ite.mp hs
      obtain ⟨c', a', b', hc', ha', hb', rfl⟩ := simplify_ite_eq_ok.mp h
      obtain ⟨hnode, hec, hea, heb⟩ := every_ite.mp he
      refine simplifyIte_every (every_ite.mpr ⟨?_, ihc hc hc' hec, iha ha ha' hea,
        ihb hb hb' heb⟩)
      exact hP.ite hs (hasSort_ite.mpr ⟨simplify_hasSort hc hc', simplify_hasSort ha ha',
        simplify_hasSort hb hb'⟩) hnode
  | make r es ih =>
      obtain ⟨rfl, hfields⟩ := hasSort_make.mp hs
      obtain ⟨es', hes', rfl⟩ := simplify_make_eq_ok.mp h
      obtain ⟨hnode, hes⟩ := every_nary.mp he
      refine every_nary.mpr ⟨hP.make hnode, fun e' he' => ?_⟩
      obtain ⟨e, hmem, hsimp⟩ := forall₂_exists_of_mem_right hes' he'
      obtain ⟨f, -, hf⟩ := forall₂_exists_of_mem_left hfields hmem
      exact ih e hmem hf hsimp (hes e hmem)
  | connective f es hf ih =>
      obtain ⟨rfl, hsorts⟩ := (hasSort_junction hf).mp hs
      obtain ⟨es', hes', rfl⟩ := (simplify_junction_eq_ok hf).mp h
      refine junction_every hP hf fun e' he' => ?_
      obtain ⟨e, hmem, hsimp⟩ := forall₂_exists_of_mem_right hes' he'
      exact ih e hmem (hsorts e hmem) hsimp ((every_nary.mp he).2 e hmem)

end

/-- Ranges are kept. -/
theorem stable_nodeInRange : Stable fun p => p.nodeInRange = true where
  bool _ := rfl
  computed he hs hv hvs := (hv.inRange hvs (sort_inRange hs he)).self
  unary {f} _ _ _ _ _ h := by cases f <;> exact h
  binary _ _ _ _ _ := rfl
  ite _ _ _ := rfl
  make h := h
  connective hf := by rcases hf with rfl | rfl <;> rfl
  eq := rfl

/-- A part that is a variable belongs to a list of variables. -/
def varIn (vars : List (String × SmtSort)) (p : Formula) : Prop :=
  ∀ name s, p = .var name s → (name, s) ∈ vars

/-- No variables are added. -/
theorem stable_varIn (vars : List (String × SmtSort)) : Stable (varIn vars) where
  bool _ := by simp [varIn]
  computed _ _ hv _ := by cases hv <;> simp [varIn, Formula.bits, Formula.real]
  unary _ _ _ := by simp [varIn]
  binary _ _ _ _ _ := by simp [varIn]
  ite _ _ _ := by simp [varIn]
  make _ := by simp [varIn]
  connective _ := by simp [varIn]
  eq := by simp [varIn]

/-- Simplification introduces no variables. -/
theorem occurrences_simplify {e e' : Formula} {s : SmtSort} (hs : e.HasSort s)
    (h : e.simplify = .ok e') : e'.occurrences ⊆ e.occurrences := by
  have hvars : e'.Every (varIn e.occurrences) := by
    refine simplify_every (stable_varIn _) hs h fun p hp name t heq => ?_
    subst heq
    exact mem_occurrences.mpr hp
  intro o ho
  exact hvars _ (mem_occurrences.mp ho) o.1 o.2 rfl

/-- **Simplification preserves meaning.** The simplified formula has the sort of the formula, stays
in range, has no other free variables, and has every value that the formula has. -/
theorem simplify_preserves_meaning {e e' : Formula} {s : SmtSort} (hs : e.HasSort s)
    (hr : e.InRange) (h : e.simplify = .ok e') :
    e'.HasSort s ∧ e'.InRange ∧ e.sort = .ok s ∧ e'.sort = .ok s ∧
      (∀ name ∈ e'.freeVariables, name ∈ e.freeVariables) ∧ e'.occurrences ⊆ e.occurrences ∧
      ∀ σ v, e.eval σ = .ok v → e'.eval σ = .ok v := by
  have hs' : e'.HasSort s := simplify_hasSort hs h
  have hr' : e'.InRange := simplify_every stable_nodeInRange hs h hr
  have hvars := occurrences_simplify hs h
  refine ⟨hs', hr', (sort_sized hs hr.sized).1, (sort_sized hs' hr'.sized).1, ?_, hvars,
    simplify_refines hs h⟩
  intro name hname
  obtain ⟨t, ht⟩ := mem_variablesOf.mp hname
  simp only [List.flatMap_singleton] at ht
  exact mem_variablesOf.mpr ⟨t, by simpa using hvars ht⟩

/-- A choice between two equal numbers, under a condition that divides by a variable. -/
def choiceByQuotient : Formula :=
  .ite (.eq (.binary (.arith .div) (.int 6) (.var "x" .int)) (.int 2))
    (.binary (.bits .add) (.lit (.bits 255 8)) (.lit (.bits 3 8))) (.lit (.bits 2 8))

/-- The choice is the number, also where the condition has no value. -/
theorem choiceByQuotient_preserved :
    choiceByQuotient.HasSort (.bitVec 8) ∧ choiceByQuotient.InRange ∧
      choiceByQuotient.simplify = .ok (.lit (.bits 2 8)) ∧
      ∀ σ v, choiceByQuotient.eval σ = .ok v → (Formula.lit (.bits 2 8)).eval σ = .ok v := by
  have hs : choiceByQuotient.HasSort (.bitVec 8) := by decide
  have hr : choiceByQuotient.InRange := by decide
  have h : choiceByQuotient.simplify = .ok (.lit (.bits 2 8)) := by decide
  exact ⟨hs, hr, h, (simplify_preserves_meaning hs hr h).2.2.2.2.2.2⟩

/-- Neither a real number nor a comparison of numbers. -/
def realFree (p : Formula) : Prop :=
  ¬ p.HasSort .real ∧ ∀ c a b, p ≠ .binary (.compareArith c) a b

instance (p : Formula) : Decidable (realFree p) :=
  decidable_of_iff (¬ p.HasSort .real ∧ (match p with
    | .binary (.compareArith _) _ _ => false
    | _ => true) = true) <| and_congr_right fun _ => by
      constructor
      · rintro h c a b rfl
        simp at h
      · intro h
        split
        · exact absurd rfl (h _ _ _)
        · rfl

/-- No reals come up. -/
theorem stable_realFree : Stable realFree where
  bool _ := by simp [realFree, Literal.sort]
  computed he hs hv hvs :=
    ⟨fun hreal => he.self.1 (hvs.unique hreal ▸ hs),
      by cases hv <;> simp [Formula.bits, Formula.real]⟩
  unary ha ha' h := by
    refine ⟨fun hreal => h.1 ?_, by simp⟩
    obtain ⟨t, ht, hf⟩ := hasSort_unary.mp hreal
    exact hasSort_unary.mpr ⟨t, ha'.unique ht ▸ ha, hf⟩
  binary ha ha' hb hb' h := by
    refine ⟨fun hreal => h.1 ?_, fun c a b heq => ?_⟩
    · obtain ⟨t, u, ht, hu, hf⟩ := hasSort_binary.mp hreal
      exact hasSort_binary.mpr ⟨t, u, ha'.unique ht ▸ ha, hb'.unique hu ▸ hb, hf⟩
    · cases heq
      exact h.2 _ _ _ rfl
  ite hs hs' h := ⟨fun hreal => h.1 (hs'.unique hreal ▸ hs), by simp⟩
  make _ := ⟨fun hreal => by simp [Record.sort] at hreal, by simp⟩
  connective hf := ⟨fun hreal => by simpa using ((hasSort_junction hf).mp hreal).1, by simp⟩
  eq := ⟨fun hreal => by simp at hreal, by simp⟩

/-- The records that a part mentions are flat. -/
def nodeIsFlat : Formula → Bool
  | .var _ s => s.isFlat
  | .unary (.get r _) _ => r.sort.isFlat
  | .nary (.make r) _ => r.sort.isFlat
  | _ => true

/-- No nested records come up. -/
theorem stable_nodeIsFlat : Stable fun p => p.nodeIsFlat = true where
  bool _ := rfl
  computed _ _ hv _ := by cases hv <;> rfl
  unary {f} _ _ _ _ _ h := by cases f <;> exact h
  binary _ _ _ _ _ := rfl
  ite _ _ _ := rfl
  make h := h
  connective hf := by rcases hf with rfl | rfl <;> rfl
  eq := rfl

/-! ## Normal forms -/

/-- The rule for a formula leaves it alone. -/
def Settled : Formula → Prop
  | .unary f a => simplifyUnary f a = .ok (.unary f a)
  | .binary f a b => simplifyBinary f a b = .ok (.binary f a b)
  | .ite c a b => simplifyIte c a b = .ite c a b
  | .nary (.make _) _ => True
  | .nary f es => junction f es = .nary f es
  | _ => True

/-- No rule applies to any part. -/
def Normal (e : Formula) : Prop := e.Every Settled

theorem normal_lit (v : Literal) : (Formula.lit v).Normal := by simp [Normal, Settled]

theorem normal_var (name : String) (s : SmtSort) : (Formula.var name s).Normal := by
  simp [Normal, Settled]

theorem settled_junction {f : NaryFunction} (hf : f = .and ∨ f = .or) {es : List Formula} :
    Settled (.nary f es) ↔ junction f es = .nary f es := by
  rcases hf with rfl | rfl <;> rfl

/-- Members are not of the kind that they are members of. -/
theorem ne_of_mem_members {f : NaryFunction} {e m : Formula} (hm : m ∈ members f e)
    (es : List Formula) : m ≠ .nary f es := by
  induction e with
  | nary g gs ih =>
      by_cases hfg : f = g
      · subst hfg
        rw [members_nary] at hm
        obtain ⟨e, he, hm⟩ := List.mem_flatMap.mp hm
        exact ih e he hm
      · obtain rfl : m = .nary g gs := by simpa [members, hfg] using hm
        simp [Ne.symm hfg]
  | _ =>
      obtain rfl := by simpa [members] using hm
      simp

theorem membersAll_eq_self {f : NaryFunction} {ms : List Formula}
    (h : ∀ m ∈ ms, ∀ es, m ≠ .nary f es) : membersAll f ms = ms := by
  rw [membersAll_eq]
  induction ms with
  | nil => rfl
  | cons m ms ih =>
      obtain ⟨hm, hms⟩ := List.forall_mem_cons.mp h
      rw [List.flatMap_cons, members_of_ne hm, ih hms, List.singleton_append]

theorem eraseDups_eq_self {l : List Formula} (h : l.Nodup) : l.eraseDups = l := by
  induction l with
  | nil => rfl
  | cons a l ih =>
      obtain ⟨ha, hl⟩ := List.nodup_cons.mp h
      have : (l.filter fun b => !b == a) = l := by
        rw [List.filter_eq_self]
        intro b hb
        have : b ≠ a := fun heq => ha (heq ▸ hb)
        simpa using this
      rw [List.eraseDups_cons, this, ih hl]

/-- What a junction keeps, it keeps again. -/
theorem junction_junction {f : NaryFunction} {es ms : List Formula}
    (h : junction f es = .nary f ms) : junction f ms = .nary f ms := by
  have hne : ∀ m ∈ membersAll f es, ∀ es, m ≠ .nary f es := by
    intro m hm
    rw [membersAll_eq] at hm
    obtain ⟨e, -, hm⟩ := List.mem_flatMap.mp hm
    exact ne_of_mem_members hm
  have hmem : ∀ m, m ∈ ((membersAll f es).filter (· ≠ .bool (neutral f))).eraseDups →
      m ∈ membersAll f es ∧ m ≠ .bool (neutral f) := by simp
  have hnodup := nodup_eraseDups ((membersAll f es).filter (· ≠ .bool (neutral f)))
  unfold junction at h
  dsimp only at h
  generalize ((membersAll f es).filter (· ≠ .bool (neutral f))).eraseDups = kept at h hmem hnodup
  split at h
  · simp at h
  · next habs =>
    split at h
    · simp at h
    · exact absurd h (hne _ (hmem _ List.mem_cons_self).1 ms)
    · next hnil hone =>
      obtain rfl : kept = ms := by simpa using h
      have hfilter : kept.filter (· ≠ .bool (neutral f)) = kept :=
        List.filter_eq_self.mpr fun m hm => by simpa using (hmem m hm).2
      unfold junction
      dsimp only
      rw [membersAll_eq_self fun m hm => hne m (hmem m hm).1, hfilter, eraseDups_eq_self hnodup,
        if_neg fun hm => habs (hmem _ hm).1]
      split <;> simp_all

/-! The result of each rule is settled. -/

theorem junction_normal {f : NaryFunction} (hf : f = .and ∨ f = .or) {es : List Formula}
    (hes : ∀ e ∈ es, e.Normal) : (junction f es).Normal := by
  have hms := membersAll_every (f := f) hes
  rcases junction_cases f es with ⟨h, -⟩ | ⟨h, -⟩ | ⟨m, hm, h, -⟩ | ⟨ms, h, hms'⟩
  · rw [h]
    exact normal_lit _
  · rw [h]
    exact normal_lit _
  · rw [h]
    exact hms m hm
  · rw [h]
    exact every_nary.mpr ⟨(settled_junction hf).mpr (junction_junction h),
      fun m hm => hms m ((hms' m).mp hm).1⟩

theorem equate_normal {a b : Formula} (ha : a.Normal) (hb : b.Normal) : (equate a b).Normal := by
  induction a, b using equate_induction with
  | constants a b _ _ h =>
      rw [h]
      exact normal_lit _
  | same a h =>
      rw [h]
      exact normal_lit _
  | records r s as bs h ih =>
      rw [h]
      refine junction_normal (.inl rfl) fun e he => ?_
      obtain ⟨p, hp, rfl⟩ := mem_zipWith he
      have hmem := List.of_mem_zip hp
      exact ih p hp ((every_nary.mp ha).2 _ hmem.1) ((every_nary.mp hb).2 _ hmem.2)
  | other a b h =>
      rw [h]
      exact every_binary.mpr ⟨by simp [Settled, simplifyBinary, h], ha, hb⟩

theorem simplifyUnary_normal {f : UnaryFunction} {a e : Formula} (ha : a.Normal)
    (h : simplifyUnary f a = .ok e) : e.Normal := by
  rcases simplifyUnary_cases h with ⟨hc, hv⟩ | ⟨rfl, rfl⟩ | ⟨r, i, u, fields, rfl, rfl, hi⟩ | rfl
  · rcases UnaryFunction.apply_computed hv with hcomp | ⟨r, es, rfl, hmem⟩
    · obtain ⟨l, rfl⟩ := hcomp.isLit
      exact normal_lit l
    · exact (every_nary.mp ha).2 e hmem
  · exact (every_unary.mp ha).2
  · exact (every_nary.mp ha).2 e (List.mem_of_getElem? hi)
  · exact every_unary.mpr ⟨h, ha⟩

theorem simplifyBinary_normal {f : BinaryFunction} {a b e : Formula} (ha : a.Normal)
    (hb : b.Normal) (h : simplifyBinary f a b = .ok e) : e.Normal := by
  rcases simplifyBinary_cases h with ⟨rfl, rfl⟩ | ⟨-, hca, hcb, hv⟩ | ⟨-, rfl⟩
  · exact equate_normal ha hb
  · obtain ⟨l, rfl⟩ := (BinaryFunction.apply_computed hv).isLit
    exact normal_lit l
  · exact every_binary.mpr ⟨h, ha, hb⟩

theorem simplifyIte_normal {c a b : Formula} (hc : c.Normal) (ha : a.Normal) (hb : b.Normal) :
    (simplifyIte c a b).Normal := by
  rcases simplifyIte_cases c a b with ⟨-, h⟩ | ⟨-, h⟩ | ⟨-, h⟩ | h
  · rwa [h]
  · rwa [h]
  · rwa [h]
  · rw [h]
    exact every_ite.mpr ⟨h, hc, ha, hb⟩

/-- **Simplified formulas are normal.** -/
theorem simplify_normal {e e' : Formula} (h : e.simplify = .ok e') : e'.Normal := by
  induction e using ind_connective generalizing e' with
  | var name t =>
      obtain rfl := by simpa [simplify] using h
      exact normal_var name t
  | lit v =>
      obtain rfl := by simpa [simplify] using h
      exact normal_lit v
  | unary f a ih =>
      obtain ⟨a', ha', h⟩ := simplify_unary_eq_ok.mp h
      exact simplifyUnary_normal (ih ha') h
  | binary f a b iha ihb =>
      obtain ⟨a', b', ha', hb', h⟩ := simplify_binary_eq_ok.mp h
      exact simplifyBinary_normal (iha ha') (ihb hb') h
  | ite c a b ihc iha ihb =>
      obtain ⟨c', a', b', hc', ha', hb', rfl⟩ := simplify_ite_eq_ok.mp h
      exact simplifyIte_normal (ihc hc') (iha ha') (ihb hb')
  | make r es ih =>
      obtain ⟨es', hes', rfl⟩ := simplify_make_eq_ok.mp h
      refine every_nary.mpr ⟨trivial, fun e' he' => ?_⟩
      obtain ⟨e, he, hsimp⟩ := forall₂_exists_of_mem_right hes' he'
      exact ih e he hsimp
  | connective f es hf ih =>
      obtain ⟨es', hes', rfl⟩ := (simplify_junction_eq_ok hf).mp h
      refine junction_normal hf fun e' he' => ?_
      obtain ⟨e, he, hsimp⟩ := forall₂_exists_of_mem_right hes' he'
      exact ih e he hsimp

/-- **Normal formulas are left alone.** -/
theorem Normal.simplify_eq {e : Formula} (h : e.Normal) : e.simplify = .ok e := by
  induction e using ind_connective with
  | var name t => rfl
  | lit v => rfl
  | unary f a ih =>
      obtain ⟨hnode, ha⟩ := every_unary.mp h
      exact simplify_unary_eq_ok.mpr ⟨a, ih ha, hnode⟩
  | binary f a b iha ihb =>
      obtain ⟨hnode, ha, hb⟩ := every_binary.mp h
      exact simplify_binary_eq_ok.mpr ⟨a, b, iha ha, ihb hb, hnode⟩
  | ite c a b ihc iha ihb =>
      obtain ⟨hnode, hc, ha, hb⟩ := every_ite.mp h
      exact simplify_ite_eq_ok.mpr ⟨c, a, b, ihc hc, iha ha, ihb hb, Eq.symm hnode⟩
  | make r es ih =>
      refine simplify_make_eq_ok.mpr ⟨es, ?_, rfl⟩
      rw [List.forall₂_same]
      exact fun e he => ih e he ((every_nary.mp h).2 e he)
  | connective f es hf ih =>
      obtain ⟨hnode, hes⟩ := every_nary.mp h
      refine (simplify_junction_eq_ok hf).mpr ⟨es, ?_, ((settled_junction hf).mp hnode).symm⟩
      rw [List.forall₂_same]
      exact fun e he => ih e he (hes e he)

/-- **Simplifying twice is simplifying once**, for every formula, well sorted or not: what comes out
of a simplification that does not fail is simplified without failing, to itself. -/
theorem simplify_idempotent {e e' : Formula} (h : e.simplify = .ok e') : e'.simplify = .ok e' :=
  (simplify_normal h).simplify_eq

/-- An ill-sorted conjunction. The equality of records splits into one of its other members, a
choice and a double negation hide repeated ones, and a number is a member as well. -/
def entangled : Formula :=
  let r : Record := ⟨"Pair", [("first", .int), ("second", .int)]⟩
  let x := Formula.var "x" .int
  let y := Formula.var "y" .int
  .and [.eq (.nary (.make r) [x, .int 1])
      (.nary (.make r) [.ite (.bool true) y x, .binary (.arith .sub) (.int 2) (.int 1)]),
    .and [.not (.not (.eq x y)), .int 3, .binary (.arith .div) (.int 1) (.int 0)],
    .not (.not (.int 3))]

/-- What is left of `entangled`: the division by zero stays. -/
def disentangled : Formula :=
  .and [.eq (.var "x" .int) (.var "y" .int), .int 3, .binary (.arith .div) (.int 1) (.int 0)]

theorem entangled_simplified : (∀ s, ¬ entangled.HasSort s) ∧
    entangled.simplify = .ok disentangled ∧ disentangled.simplify = .ok disentangled := by
  have h : entangled.simplify = .ok disentangled := by decide
  refine ⟨fun s hs => ?_, h, simplify_idempotent h⟩
  obtain ⟨rfl, -⟩ := (hasSort_junction (.inl rfl)).mp hs
  exact absurd hs (by decide)

/-- The equality of two simplified formulas is simplified by its rule alone. -/
theorem Normal.simplify_eq_equate {a b : Formula} (ha : a.Normal) (hb : b.Normal) :
    (Formula.eq a b).simplify = .ok (equate a b) :=
  simplify_binary_eq_ok.mpr ⟨a, b, ha.simplify_eq, hb.simplify_eq, rfl⟩

/-- **Splitting an equality may start over.** Where an equality of records splits, simplifying the
conjunction of the equalities of the fields, which simplifies the fields once more, gives the
same. -/
theorem simplify_eq_records {a b : Formula} {r s : Record} {as bs : List Formula}
    (ha : a.simplify = .ok (.nary (.make r) as)) (hb : b.simplify = .ok (.nary (.make s) bs))
    (hvariable : (areConstant as && areConstant bs) = false)
    (hne : (Formula.nary (.make r) as) ≠ .nary (.make s) bs) :
    (Formula.eq a b).simplify = (Formula.and (List.zipWith .eq as bs)).simplify := by
  have has := (every_nary.mp (simplify_normal ha)).2
  have hbs := (every_nary.mp (simplify_normal hb)).2
  have hsplit : (Formula.eq a b).simplify = .ok (junction .and (equateAll as bs)) := by
    refine simplify_binary_eq_ok.mpr ⟨_, _, ha, hb, ?_⟩
    simp [simplifyBinary, equate, hvariable, hne]
  rw [hsplit, eq_comm]
  refine (simplify_junction_eq_ok (.inl rfl)).mpr ⟨_, ?_, rfl⟩
  rw [equateAll_eq, ← List.map_uncurry_zip_eq_zipWith, ← List.map_uncurry_zip_eq_zipWith,
    List.forall₂_map_left_iff, List.forall₂_map_right_iff, List.forall₂_same]
  rintro ⟨x, y⟩ hmem
  obtain ⟨hx, hy⟩ := List.of_mem_zip hmem
  exact Normal.simplify_eq_equate (has x hx) (hbs y hy)

end Formula

end PlayerPaths
