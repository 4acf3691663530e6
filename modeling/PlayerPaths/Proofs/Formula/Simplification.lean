import PlayerPaths.Proofs.Formula.Evaluation
import PlayerPaths.Proofs.Formula.Values

/-!
# Simplification preserves meaning

What each rule of `Formula.simplify` can give is said once (`simplifyUnary_cases`,
`simplifyBinary_cases`, `simplifyIte_cases`, `junction_cases`, `equate_cases`). From these follow,
for well-sorted formulas: the simplified formula has the same sort (`simplify_hasSort`), has every
value that the formula has (`simplify_refines`), and inherits every property of parts that the
rules keep (`simplify_every`).
-/

namespace PlayerPaths.Formula

/-! ## What the rules can give -/

theorem foldOr_eq_ok {constant : Bool} {value : Evaluation Formula} {otherwise e : Formula} :
    foldOr constant value otherwise = .ok e ↔
      (constant = true ∧ value = .ok e) ∨
      ((constant = false ∨ value = .error .undefined) ∧ otherwise = e) := by
  unfold foldOr
  cases constant with
  | false => simp
  | true =>
      cases value with
      | ok v => simp
      | error err => cases err <;> simp

theorem simplifyUnary_cases {f : UnaryFunction} {a e : Formula} (h : simplifyUnary f a = .ok e) :
    (a.isConstant = true ∧ f.apply a = .ok e) ∨
    (f = .not ∧ a = .not e) ∨
    (∃ r i s fields, f = .get r i ∧ a = .nary (.make s) fields ∧ fields[i]? = some e) ∨
    e = .unary f a := by
  rcases foldOr_eq_ok.mp h with ⟨hc, hv⟩ | ⟨-, rfl⟩
  · exact .inl ⟨hc, hv⟩
  · split
    · exact .inr (.inl ⟨rfl, rfl⟩)
    · next r i s fields =>
      cases hi : fields[i]? with
      | some x => exact .inr (.inr (.inl ⟨r, i, s, fields, rfl, rfl, hi⟩))
      | none => exact .inr (.inr (.inr rfl))
    · exact .inr (.inr (.inr rfl))

theorem simplifyBinary_cases {f : BinaryFunction} {a b e : Formula}
    (h : simplifyBinary f a b = .ok e) :
    (f = .eq ∧ e = equate a b) ∨
    (f ≠ .eq ∧ a.isConstant = true ∧ b.isConstant = true ∧ f.apply a b = .ok e) ∨
    (f ≠ .eq ∧ e = .binary f a b) := by
  unfold simplifyBinary at h
  split at h
  · exact .inl ⟨rfl, (pure_eq_ok.mp h).symm⟩
  · next hf =>
    rcases foldOr_eq_ok.mp h with ⟨hc, hv⟩ | ⟨-, rfl⟩
    · rw [Bool.and_eq_true] at hc
      exact .inr (.inl ⟨hf, hc.1, hc.2, hv⟩)
    · exact .inr (.inr ⟨hf, rfl⟩)

theorem simplifyIte_cases (c a b : Formula) :
    (c = .bool true ∧ simplifyIte c a b = a) ∨
    (c = .bool false ∧ simplifyIte c a b = b) ∨
    (a = b ∧ simplifyIte c a b = a) ∨
    simplifyIte c a b = .ite c a b := by
  unfold simplifyIte
  split
  · simp
  · simp
  · split <;> simp_all

/-- A member of a member is not a connective of the same kind any more. -/
theorem members_of_ne {f : NaryFunction} {e : Formula} (h : ∀ es, e ≠ .nary f es) :
    members f e = [e] := by
  cases e with
  | nary g es =>
      have : f ≠ g := fun heq => h es (heq ▸ rfl)
      simp [members, this]
  | _ => rfl

theorem members_nary (f : NaryFunction) (es : List Formula) :
    members f (.nary f es) = es.flatMap (members f) := by
  simp [members, membersAll_eq]

theorem junction_cases (f : NaryFunction) (es : List Formula) :
    (junction f es = .bool (!neutral f) ∧ .bool (!neutral f) ∈ membersAll f es) ∨
    (junction f es = .bool (neutral f) ∧ ∀ m ∈ membersAll f es, m = .bool (neutral f)) ∨
    (∃ m ∈ membersAll f es, junction f es = m ∧
      ∀ m' ∈ membersAll f es, m' = m ∨ m' = .bool (neutral f)) ∨
    (∃ ms, junction f es = .nary f ms ∧
      ∀ m, m ∈ ms ↔ m ∈ membersAll f es ∧ m ≠ .bool (neutral f)) := by
  have hkept : ∀ m, m ∈ ((membersAll f es).filter (· ≠ .bool (neutral f))).eraseDups ↔
      m ∈ membersAll f es ∧ m ≠ .bool (neutral f) := by simp
  unfold junction
  dsimp only
  split
  · next habs => exact .inl ⟨rfl, habs⟩
  · split
    · next hnil =>
      rw [hnil] at hkept
      refine .inr (.inl ⟨rfl, fun m hm => ?_⟩)
      by_contra hne
      simpa using (hkept m).mpr ⟨hm, hne⟩
    · next m hone =>
      rw [hone] at hkept
      refine .inr (.inr (.inl ⟨m, ((hkept m).mp (by simp)).1, rfl, fun m' hm' => ?_⟩))
      by_contra hne
      rw [not_or] at hne
      exact hne.1 (by simpa using (hkept m').mpr ⟨hm', hne.2⟩)
    · exact .inr (.inr (.inr ⟨_, rfl, hkept⟩))

theorem equateAll_eq (as bs : List Formula) : equateAll as bs = List.zipWith equate as bs := by
  induction as generalizing bs with
  | nil => simp [equateAll]
  | cons a as ih =>
      cases bs with
      | nil => simp [equateAll]
      | cons b bs => simp [equateAll, ih]

theorem equate_cases (a b : Formula) :
    (a.isConstant = true ∧ b.isConstant = true ∧ equate a b = .bool (a = b)) ∨
    (a = b ∧ equate a b = .bool true) ∨
    (∃ r s as bs, a = .nary (.make r) as ∧ b = .nary (.make s) bs ∧
      equate a b = junction .and (List.zipWith equate as bs)) ∨
    equate a b = .eq a b := by
  unfold equate
  split
  · next r as s bs =>
    dsimp only
    split
    · next hc =>
      rw [Bool.and_eq_true] at hc
      exact .inl ⟨hc.1, hc.2, rfl⟩
    · split
      · next heq => exact .inr (.inl ⟨heq, rfl⟩)
      · exact .inr (.inr (.inl ⟨r, s, as, bs, rfl, rfl, by rw [equateAll_eq]⟩))
  · split
    · next hc =>
      rw [Bool.and_eq_true] at hc
      exact .inl ⟨hc.1, hc.2, rfl⟩
    · split
      · next heq => exact .inr (.inl ⟨heq, rfl⟩)
      · exact .inr (.inr (.inr rfl))

theorem mem_zipWith {f : Formula → Formula → Formula} {as bs : List Formula} {e : Formula}
    (h : e ∈ List.zipWith f as bs) : ∃ p ∈ as.zip bs, e = f p.1 p.2 := by
  rw [← List.map_uncurry_zip_eq_zipWith] at h
  obtain ⟨p, hp, rfl⟩ := List.mem_map.mp h
  exact ⟨p, hp, rfl⟩

/-- Induction along `equate`: what holds of two formulas may be shown from their fields when the
equality of two records was taken apart. -/
@[elab_as_elim]
theorem equate_induction {motive : Formula → Formula → Prop}
    (constants : ∀ a b, a.isConstant = true → b.isConstant = true →
      equate a b = .bool (a = b) → motive a b)
    (same : ∀ a, equate a a = .bool true → motive a a)
    (records : ∀ r s as bs, equate (.nary (.make r) as) (.nary (.make s) bs) =
      junction .and (List.zipWith equate as bs) → (∀ p ∈ as.zip bs, motive p.1 p.2) →
      motive (.nary (.make r) as) (.nary (.make s) bs))
    (other : ∀ a b, equate a b = .eq a b → motive a b) (a b : Formula) : motive a b := by
  have leaf : ∀ a b, (∀ r as, a ≠ .nary (.make r) as) → motive a b := by
    intro a b hne
    rcases equate_cases a b with ⟨ha, hb, h⟩ | ⟨rfl, h⟩ | ⟨r, s, as, bs, rfl, -, -⟩ | h
    · exact constants a b ha hb h
    · exact same a h
    · exact absurd rfl (hne r as)
    · exact other a b h
  induction a using ind_connective generalizing b with
  | make r as ih =>
      rcases equate_cases (.nary (.make r) as) b with
        ⟨ha, hb, h⟩ | ⟨rfl, h⟩ | ⟨r', s, as', bs, heq, rfl, h⟩ | h
      · exact constants _ b ha hb h
      · exact same _ h
      · cases heq
        exact records r s as bs h fun p hp => ih p.1 (List.of_mem_zip hp).1 p.2
      · exact other _ b h
  | connective f es hf => exact leaf _ b (by rcases hf with rfl | rfl <;> simp)
  | _ => exact leaf _ b (by simp)

/-! ## Sorts -/

/-- The members of a truth value are truth values. -/
theorem members_hasSort {f : NaryFunction} (hf : f = .and ∨ f = .or) {e : Formula}
    (he : e.HasSort .bool) : ∀ m ∈ members f e, m.HasSort .bool := by
  induction e with
  | nary g es ih =>
      by_cases hfg : f = g
      · subst hfg
        obtain ⟨-, hes⟩ := (hasSort_junction hf).mp he
        rw [members_nary]
        intro m hm
        obtain ⟨e, hmem, hm⟩ := List.mem_flatMap.mp hm
        exact ih e hmem (hes e hmem) m hm
      · simpa [members, hfg] using he
  | _ => simpa [members] using he

theorem membersAll_hasSort {f : NaryFunction} (hf : f = .and ∨ f = .or) {es : List Formula}
    (hes : ∀ e ∈ es, e.HasSort .bool) : ∀ m ∈ membersAll f es, m.HasSort .bool := by
  intro m hm
  rw [membersAll_eq] at hm
  obtain ⟨e, he, hm⟩ := List.mem_flatMap.mp hm
  exact members_hasSort hf (hes e he) m hm

theorem junction_hasSort {f : NaryFunction} (hf : f = .and ∨ f = .or) {es : List Formula}
    (hes : ∀ e ∈ es, e.HasSort .bool) : (junction f es).HasSort .bool := by
  have hms := membersAll_hasSort hf hes
  rcases junction_cases f es with ⟨h, -⟩ | ⟨h, -⟩ | ⟨m, hm, h, -⟩ | ⟨ms, h, hms'⟩
  · rw [h]; rfl
  · rw [h]; rfl
  · rw [h]; exact hms m hm
  · rw [h]
    exact (hasSort_junction hf).mpr ⟨rfl, fun m hm => hms m ((hms' m).mp hm).1⟩

/-- Records of one sort have fields of the same sorts. -/
theorem fields_hasSort {r s : Record} {as bs : List Formula} {t : SmtSort}
    (ha : (Formula.nary (.make r) as).HasSort t) (hb : (Formula.nary (.make s) bs).HasSort t) :
    r = s ∧ List.Forall₂ (fun a b => ∃ u, a.HasSort u ∧ b.HasSort u) as bs := by
  obtain ⟨rfl, has⟩ := hasSort_make.mp ha
  obtain ⟨heq, hbs⟩ := hasSort_make.mp hb
  obtain rfl := Record.eq_of_sort_eq heq
  refine ⟨rfl, ?_⟩
  rw [List.forall₂_iff_get] at *
  exact ⟨has.1.trans hbs.1.symm, fun i hi hj =>
    ⟨_, has.2 i hi (has.1 ▸ hi), hbs.2 i hj (hbs.1 ▸ hj)⟩⟩

theorem equate_hasSort {a b : Formula} {s : SmtSort} (ha : a.HasSort s) (hb : b.HasSort s) :
    (equate a b).HasSort .bool := by
  induction a, b using equate_induction generalizing s with
  | constants a b _ _ h => rw [h]; rfl
  | same a h => rw [h]; rfl
  | records r t as bs h ih =>
      rw [h]
      refine junction_hasSort (.inl rfl) fun e he => ?_
      obtain ⟨p, hp, rfl⟩ := mem_zipWith he
      obtain ⟨u, hu₁, hu₂⟩ := List.forall₂_zip (fields_hasSort ha hb).2 hp
      exact ih p hp hu₁ hu₂
  | other a b h =>
      rw [h]
      exact hasSort_binary.mpr ⟨s, s, ha, hb, result?_eq.mpr ⟨rfl, rfl⟩⟩

theorem simplifyUnary_hasSort {f : UnaryFunction} {a e : Formula} {s t : SmtSort}
    (ha : a.HasSort s) (hf : f.result? s = some t) (h : simplifyUnary f a = .ok e) :
    e.HasSort t := by
  rcases simplifyUnary_cases h with ⟨hc, hv⟩ | ⟨rfl, rfl⟩ | ⟨r, i, u, fields, rfl, rfl, hi⟩ | rfl
  · exact (UnaryFunction.apply_hasSort hf hc ha hv).2
  · obtain ⟨rfl, rfl⟩ := result?_not.mp hf
    exact (hasSort_not.mp ha).2
  · obtain ⟨rfl, hi'⟩ := result?_get.mp hf
    obtain ⟨heq, hfields⟩ := hasSort_make.mp ha
    obtain rfl := Record.eq_of_sort_eq heq
    obtain ⟨v, hv, hev⟩ := hasSort_field hfields hi
    obtain rfl : v = t := by simpa [hv] using hi'
    exact hev
  · exact hasSort_unary.mpr ⟨s, ha, hf⟩

theorem simplifyBinary_hasSort {f : BinaryFunction} {a b e : Formula} {s t u : SmtSort}
    (ha : a.HasSort s) (hb : b.HasSort t) (hf : f.result? s t = some u)
    (h : simplifyBinary f a b = .ok e) : e.HasSort u := by
  rcases simplifyBinary_cases h with ⟨rfl, rfl⟩ | ⟨-, hca, hcb, hv⟩ | ⟨-, rfl⟩
  · obtain ⟨rfl, rfl⟩ := result?_eq.mp hf
    exact equate_hasSort ha hb
  · exact (BinaryFunction.apply_hasSort hf hca hcb ha hb hv).2
  · exact hasSort_binary.mpr ⟨s, t, ha, hb, hf⟩

theorem simplifyIte_hasSort {c a b : Formula} {s : SmtSort} (hc : c.HasSort .bool)
    (ha : a.HasSort s) (hb : b.HasSort s) : (simplifyIte c a b).HasSort s := by
  rcases simplifyIte_cases c a b with ⟨-, h⟩ | ⟨-, h⟩ | ⟨-, h⟩ | h
  · rwa [h]
  · rwa [h]
  · rwa [h]
  · rw [h]
    exact hasSort_ite.mpr ⟨hc, ha, hb⟩

/-! The simplified operands of an application, and the rule that is applied to them. -/

section

variable {e' : Formula}

theorem simplify_unary_eq_ok {f : UnaryFunction} {a : Formula} :
    (Formula.unary f a).simplify = .ok e' ↔
      ∃ a', a.simplify = .ok a' ∧ simplifyUnary f a' = .ok e' :=
  bind_eq_ok

theorem simplify_binary_eq_ok {f : BinaryFunction} {a b : Formula} :
    (Formula.binary f a b).simplify = .ok e' ↔
      ∃ a' b', a.simplify = .ok a' ∧ b.simplify = .ok b' ∧ simplifyBinary f a' b' = .ok e' := by
  show (do let a ← a.simplify; let b ← b.simplify; simplifyBinary f a b) = .ok e' ↔ _
  simp only [bind_eq_ok]
  grind

theorem simplify_ite_eq_ok {c a b : Formula} :
    (Formula.ite c a b).simplify = .ok e' ↔
      ∃ c' a' b', c.simplify = .ok c' ∧ a.simplify = .ok a' ∧ b.simplify = .ok b' ∧
        e' = simplifyIte c' a' b' := by
  show (do let c ← c.simplify; let a ← a.simplify; let b ← b.simplify
           return simplifyIte c a b) = .ok e' ↔ _
  simp only [bind_eq_ok, pure_eq_ok]
  grind

theorem simplify_make_eq_ok {r : Record} {es : List Formula} :
    (Formula.nary (.make r) es).simplify = .ok e' ↔
      ∃ es', List.Forall₂ (fun e e' => e.simplify = .ok e') es es' ∧ e' = .nary (.make r) es' := by
  show (do return Formula.nary (.make r) (← simplifyAll es)) = .ok e' ↔ _
  simp [simplifyAll_eq, mapM_eq_ok, @eq_comm _ e']

theorem simplify_junction_eq_ok {f : NaryFunction} (hf : f = .and ∨ f = .or) {es : List Formula} :
    (Formula.nary f es).simplify = .ok e' ↔
      ∃ es', List.Forall₂ (fun e e' => e.simplify = .ok e') es es' ∧ e' = junction f es' := by
  rcases hf with rfl | rfl <;>
    simp [simplify, simplifyAll_eq, mapM_eq_ok, @eq_comm _ e']

end

/-- **Sorts are preserved.** A simplified formula has the sort of the formula. -/
theorem simplify_hasSort {e e' : Formula} {s : SmtSort} (hs : e.HasSort s)
    (h : e.simplify = .ok e') : e'.HasSort s := by
  induction e using ind_connective generalizing e' s with
  | var name t =>
      obtain rfl := by simpa [simplify] using h
      exact hs
  | lit v =>
      obtain rfl := by simpa [simplify] using h
      exact hs
  | unary f a ih =>
      obtain ⟨t, ha, hf⟩ := hasSort_unary.mp hs
      obtain ⟨a', ha', h⟩ := simplify_unary_eq_ok.mp h
      exact simplifyUnary_hasSort (ih ha ha') hf h
  | binary f a b iha ihb =>
      obtain ⟨t, u, ha, hb, hf⟩ := hasSort_binary.mp hs
      obtain ⟨a', b', ha', hb', h⟩ := simplify_binary_eq_ok.mp h
      exact simplifyBinary_hasSort (iha ha ha') (ihb hb hb') hf h
  | ite c a b ihc iha ihb =>
      obtain ⟨hc, ha, hb⟩ := hasSort_ite.mp hs
      obtain ⟨c', a', b', hc', ha', hb', rfl⟩ := simplify_ite_eq_ok.mp h
      exact simplifyIte_hasSort (ihc hc hc') (iha ha ha') (ihb hb hb')
  | make r es ih =>
      obtain ⟨rfl, hfields⟩ := hasSort_make.mp hs
      obtain ⟨es', hes', rfl⟩ := simplify_make_eq_ok.mp h
      refine hasSort_make.mpr ⟨rfl, ?_⟩
      rw [List.forall₂_iff_get] at *
      exact ⟨hes'.1.symm.trans hfields.1, fun i hi hj =>
        ih _ (List.get_mem ..) (hfields.2 i (hes'.1 ▸ hi) hj) (hes'.2 i (hes'.1 ▸ hi) hi)⟩
  | connective f es hf ih =>
      obtain ⟨rfl, hes⟩ := (hasSort_junction hf).mp hs
      obtain ⟨es', hes', rfl⟩ := (simplify_junction_eq_ok hf).mp h
      refine junction_hasSort hf fun e' he' => ?_
      obtain ⟨e, he, hsimp⟩ := forall₂_exists_of_mem_right hes' he'
      exact ih e he (hes e he) hsimp

/-! ## Values -/

section

variable {σ : Assignment} {f : NaryFunction}

theorem junctionIs_singleton {e : Formula} {c : Bool} (h : e.eval σ = .ok (.bool c)) :
    JunctionIs σ f [e] c := by
  simp [JunctionIs, h]

theorem JunctionIs.flatMap {es : List Formula} {b : Bool} {g : Formula → List Formula}
    (h : JunctionIs σ f es b)
    (hg : ∀ e ∈ es, ∀ c, e.eval σ = .ok (.bool c) → JunctionIs σ f (g e) c) :
    JunctionIs σ f (es.flatMap g) b := by
  refine ⟨fun m hm => ?_, h.2.trans ⟨fun hall m hm => ?_, fun hall e he => ?_⟩⟩
  · obtain ⟨e, he, hm⟩ := List.mem_flatMap.mp hm
    obtain ⟨c, hc⟩ := h.1 e he
    exact (hg e he c hc).1 m hm
  · obtain ⟨e, he, hm⟩ := List.mem_flatMap.mp hm
    exact (hg e he _ (hall e he)).2.mp rfl m hm
  · obtain ⟨c, hc⟩ := h.1 e he
    have : c = neutral f := (hg e he c hc).2.mpr fun m hm =>
      hall m (List.mem_flatMap.mpr ⟨e, he, hm⟩)
    rwa [← this]

/-- The truth value of a formula is that of its members. -/
theorem members_junctionIs (hf : f = .and ∨ f = .or) {e : Formula} {c : Bool}
    (he : e.eval σ = .ok (.bool c)) : JunctionIs σ f (members f e) c := by
  induction e generalizing c with
  | nary g es ih =>
      by_cases hfg : f = g
      · subst hfg
        rw [members_nary]
        obtain ⟨b, heq, hb⟩ := (eval_junction_eq_ok hf).mp he
        cases heq
        exact hb.flatMap fun e hmem c hc => ih e hmem hc
      · simpa [members, hfg] using junctionIs_singleton he
  | _ => exact junctionIs_singleton he

theorem junction_refines (hf : f = .and ∨ f = .or) (es : List Formula) :
    (Formula.nary f es).Refines (junction f es) := by
  intro σ v hv
  obtain ⟨b, rfl, hb⟩ := (eval_junction_eq_ok hf).mp hv
  have hms : JunctionIs σ f (membersAll f es) b := by
    rw [membersAll_eq]
    exact hb.flatMap fun e _ c hc => members_junctionIs hf hc
  rcases junction_cases f es with ⟨h, habs⟩ | ⟨h, hall⟩ | ⟨m, hm, h, hall⟩ | ⟨ms, h, hms'⟩
  · have : b ≠ neutral f := fun heq => by
      have := hms.2.mp heq _ habs
      simp at this
    rw [h, eval_lit, Bool.eq_not_of_ne this]
  · have : b = neutral f := hms.2.mpr fun m hm => by rw [hall m hm, eval_lit]
    rw [h, eval_lit, this]
  · obtain ⟨c, hc⟩ := hms.1 m hm
    have : b = neutral f ↔ c = neutral f := by
      rw [hms.2]
      constructor
      · intro hall'
        simpa [hc] using hall' m hm
      · rintro rfl m' hm'
        rcases hall m' hm' with rfl | rfl
        · exact hc
        · rfl
    have hbc : b = c := by
      cases hn : neutral f <;> cases b <;> cases c <;> simp_all
    rw [h, hc, hbc]
  · rw [h]
    refine (eval_junction_eq_ok hf).mpr ⟨b, rfl, fun m hm => hms.1 m ((hms' m).mp hm).1, ?_⟩
    rw [hms.2]
    refine ⟨fun hall m hm => hall m ((hms' m).mp hm).1, fun hall m hm => ?_⟩
    by_cases hne : m = .bool (neutral f)
    · rw [hne, eval_lit]
    · exact hall m ((hms' m).mpr ⟨hm, hne⟩)

end

/-- The equality of two records, field by field. -/
theorem junctionIs_zipWith_equate {σ : Assignment} {as bs us vs : List Formula}
    (hus : List.Forall₂ (fun a u => a.eval σ = .ok u) as us)
    (hvs : List.Forall₂ (fun b v => b.eval σ = .ok v) bs vs)
    (h : List.Forall₂ (fun a b => (Formula.eq a b).Refines (equate a b)) as bs) :
    JunctionIs σ .and (List.zipWith equate as bs) (us = vs) := by
  induction h generalizing us vs with
  | nil =>
      cases hus
      cases hvs
      simp [JunctionIs, neutral]
  | cons hab _ ih =>
      cases hus with
      | @cons _ u _ us hu hus =>
          cases hvs with
          | @cons _ v _ vs hv hvs =>
              have heq := hab (eval_eq_eq_ok.mpr ⟨u, v, hu, hv, rfl⟩)
              obtain ⟨hdef, hall⟩ := ih hus hvs
              refine ⟨List.forall_mem_cons.mpr ⟨⟨_, heq⟩, hdef⟩, ?_⟩
              rw [List.zipWith_cons_cons, List.forall_mem_cons, ← hall, heq]
              simp [neutral]

theorem equate_refines {a b : Formula} {s : SmtSort} (ha : a.HasSort s) (hb : b.HasSort s) :
    (Formula.eq a b).Refines (equate a b) := by
  induction a, b using equate_induction generalizing s with
  | constants a b hca hcb h =>
      intro σ v hv
      obtain ⟨x, y, hx, hy, rfl⟩ := eval_eq_eq_ok.mp hv
      rw [eval_constant hca] at hx
      rw [eval_constant hcb] at hy
      cases hx
      cases hy
      rw [h, eval_lit]
  | same a h =>
      intro σ v hv
      obtain ⟨x, y, hx, hy, rfl⟩ := eval_eq_eq_ok.mp hv
      rw [hx] at hy
      cases hy
      rw [h, eval_lit]
      simp
  | records r t as bs h ih =>
      obtain ⟨rfl, hsorts⟩ := fields_hasSort ha hb
      intro σ v hv
      obtain ⟨x, y, hx, hy, rfl⟩ := eval_eq_eq_ok.mp hv
      obtain ⟨us, hus, rfl⟩ := eval_make_eq_ok.mp hx
      obtain ⟨vs, hvs, rfl⟩ := eval_make_eq_ok.mp hy
      rw [h]
      refine junction_refines (.inl rfl) _ ((eval_junction_eq_ok (.inl rfl)).mpr ⟨_, rfl, ?_⟩)
      simp only [nary.injEq, true_and]
      refine junctionIs_zipWith_equate hus hvs ?_
      rw [List.forall₂_iff_zip] at hsorts ⊢
      refine ⟨hsorts.1, fun {a b} hp => ?_⟩
      obtain ⟨u, hua, hub⟩ := hsorts.2 hp
      exact ih (a, b) hp hua hub
  | other a b h =>
      rw [h]
      exact Refines.refl _

theorem Computed.eval {v : Formula} {σ : Assignment} (h : Computed v) : v.eval σ = .ok v := by
  cases h <;> rfl

theorem simplifyUnary_refines {f : UnaryFunction} {a e : Formula} (h : simplifyUnary f a = .ok e) :
    (Formula.unary f a).Refines e := by
  intro σ v hv
  obtain ⟨x, hx, hf⟩ := eval_unary_eq_ok.mp hv
  rcases simplifyUnary_cases h with ⟨hc, hap⟩ | ⟨rfl, rfl⟩ | ⟨r, i, s, fields, rfl, rfl, hi⟩ | rfl
  · rw [eval_constant hc] at hx
    cases hx
    rw [hap] at hf
    cases hf
    rcases UnaryFunction.apply_computed hap with hcomp | ⟨r, es, rfl, hmem⟩
    · exact hcomp.eval
    · exact eval_constant (isConstant_make.mp hc e hmem)
  · obtain ⟨b, rfl, rfl⟩ := apply_not_eq_ok.mp hf
    obtain ⟨c, hc, heq⟩ := eval_not_eq_ok.mp hx
    simp_all
  · obtain ⟨vs, hvs, rfl⟩ := eval_make_eq_ok.mp hx
    simp only [UnaryFunction.apply] at hf
    split at hf
    · next w hw =>
      obtain rfl := pure_eq_ok.mp hf
      obtain ⟨hlen, rfl⟩ := List.getElem?_eq_some_iff.mp hi
      obtain ⟨hlen', rfl⟩ := List.getElem?_eq_some_iff.mp hw
      exact (List.forall₂_iff_get.mp hvs).2 i hlen hlen'
    · simp at hf
  · exact hv

theorem simplifyBinary_refines {f : BinaryFunction} {a b e : Formula} {s t u : SmtSort}
    (ha : a.HasSort s) (hb : b.HasSort t) (hf : f.result? s t = some u)
    (h : simplifyBinary f a b = .ok e) : (Formula.binary f a b).Refines e := by
  rcases simplifyBinary_cases h with ⟨rfl, rfl⟩ | ⟨-, hca, hcb, hap⟩ | ⟨-, rfl⟩
  · obtain ⟨rfl, rfl⟩ := result?_eq.mp hf
    exact equate_refines ha hb
  · intro σ v hv
    obtain ⟨x, y, hx, hy, hv⟩ := eval_binary_eq_ok.mp hv
    rw [eval_constant hca] at hx
    rw [eval_constant hcb] at hy
    cases hx
    cases hy
    rw [hap] at hv
    cases hv
    exact (BinaryFunction.apply_computed hap).eval
  · exact Refines.refl _

theorem simplifyIte_refines (c a b : Formula) :
    (Formula.ite c a b).Refines (simplifyIte c a b) := by
  intro σ v hv
  have hcases := eval_ite_eq_ok.mp hv
  rcases simplifyIte_cases c a b with ⟨rfl, h⟩ | ⟨rfl, h⟩ | ⟨rfl, h⟩ | h
  · rw [h]
    simpa using hcases
  · rw [h]
    simpa using hcases
  · rw [h]
    exact hcases.elim (fun h => h.2) fun h => h.2
  · rwa [h]

/-- **Simplification preserves values.** Every value of a well-sorted formula is a value of the
simplified formula, under every assignment. -/
theorem simplify_refines {e e' : Formula} {s : SmtSort} (hs : e.HasSort s)
    (h : e.simplify = .ok e') : e.Refines e' := by
  induction e using ind_connective generalizing e' s with
  | var name t =>
      obtain rfl := by simpa [simplify] using h
      exact Refines.refl _
  | lit v =>
      obtain rfl := by simpa [simplify] using h
      exact Refines.refl _
  | unary f a ih =>
      obtain ⟨t, ha, -⟩ := hasSort_unary.mp hs
      obtain ⟨a', ha', h⟩ := simplify_unary_eq_ok.mp h
      exact (Refines.unary (ih ha ha')).trans (simplifyUnary_refines h)
  | binary f a b iha ihb =>
      obtain ⟨t, u, ha, hb, hf⟩ := hasSort_binary.mp hs
      obtain ⟨a', b', ha', hb', h⟩ := simplify_binary_eq_ok.mp h
      exact (Refines.binary (iha ha ha') (ihb hb hb')).trans
        (simplifyBinary_refines (simplify_hasSort ha ha') (simplify_hasSort hb hb') hf h)
  | ite c a b ihc iha ihb =>
      obtain ⟨hc, ha, hb⟩ := hasSort_ite.mp hs
      obtain ⟨c', a', b', hc', ha', hb', rfl⟩ := simplify_ite_eq_ok.mp h
      exact (Refines.ite (ihc hc hc') (iha ha ha') (ihb hb hb')).trans (simplifyIte_refines ..)
  | make r es ih =>
      obtain ⟨rfl, hfields⟩ := hasSort_make.mp hs
      obtain ⟨es', hes', rfl⟩ := simplify_make_eq_ok.mp h
      refine Refines.nary ?_
      rw [List.forall₂_iff_get] at *
      exact ⟨hes'.1, fun i hi hj =>
        ih _ (List.get_mem ..) (hfields.2 i hi (hfields.1 ▸ hi)) (hes'.2 i hi hj)⟩
  | connective f es hf ih =>
      obtain ⟨rfl, hes⟩ := (hasSort_junction hf).mp hs
      obtain ⟨es', hes', rfl⟩ := (simplify_junction_eq_ok hf).mp h
      refine Refines.trans (Refines.nary ?_) (junction_refines hf es')
      rw [List.forall₂_iff_get] at *
      exact ⟨hes'.1, fun i hi hj =>
        ih _ (List.get_mem ..) (hes _ (List.get_mem ..)) (hes'.2 i hi hj)⟩

end PlayerPaths.Formula
