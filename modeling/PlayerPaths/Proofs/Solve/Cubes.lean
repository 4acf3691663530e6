import PlayerPaths.Proofs.Formula.Truth
import PlayerPaths.Proofs.Number.DoubleOrder

/-!
# Negation normal form and cubes

Negation normal form gives no truth values that the formula does not have (`truth_of_nnf`), and
keeps those that it evaluates to when no NaN is compared (`nnf_of_eval`). A formula in that
form is true if and only if all literals of one of its cubes are (`truth_cubes?`). The literals are
parts of the formula, or contraries of such parts (`nnf_literals`).
-/

namespace PlayerPaths

theorem BitComparison.holds_negate (c : BitComparison) (x y width : Nat) :
    c.negate.holds x y width = !c.holds x y width := by
  cases c <;> simp only [negate, holds, ← decide_not, decide_eq_decide] <;> omega

theorem ArithComparison.holds_negate {c : ArithComparison} {x y : Float}
    (h : c.negate.holds x y = true) : c.holds x y = false := by
  cases c <;> simp only [negate, holds, decide_eq_true_eq, decide_eq_false_iff_not] at h ⊢
  · exact Double.not_lt_of_le h
  · exact fun hle => Double.not_lt_of_le hle h
  · exact Double.not_lt_of_le h
  · exact fun hle => Double.not_lt_of_le hle h

/-- Of two numbers that are not NaN, a comparison or its contrary holds. -/
theorem ArithComparison.negate_holds {c : ArithComparison} {x y : Float} (hx : x ≤ x) (hy : y ≤ y)
    (h : c.holds x y = false) : c.negate.holds x y = true := by
  have htotal : ∀ {x y : Float}, x ≤ x → y ≤ y → ¬ x ≤ y → y < x := fun hx hy hle => by
    by_contra hlt
    exact hle (Double.le_of_not_lt hx hy hlt)
  cases c <;> simp only [negate, holds, decide_eq_true_eq, decide_eq_false_iff_not] at h ⊢
  · exact Double.le_of_not_lt hy hx h
  · exact htotal hx hy h
  · exact Double.le_of_not_lt hx hy h
  · exact htotal hy hx h

namespace Formula

variable {σ : Assignment}

/-! ## Negation normal form -/

theorem nnf_atom {e : Formula} (ha : e.isAtom = true) (hb : ∀ b, e ≠ .bool b) (negated : Bool) :
    e.nnf negated = .ok (if negated then negateAtom e else e) := by
  cases e with
  | lit v =>
      cases v with
      | bool b => exact absurd rfl (hb b)
      | _ => rfl
  | unary f a => cases f <;> first | rfl | simp [isAtom] at ha
  | nary f es => cases f <;> first | rfl | simp [isAtom] at ha
  | ite c a b => simp [isAtom] at ha
  | _ => rfl

/-- A constant is decided, and another atom is kept or turned into its contrary. -/
theorem nnf_atom_cases {e e' : Formula} {negated : Bool} (ha : e.isAtom = true)
    (h : e.nnf negated = .ok e') :
    (∃ b, e = .bool b ∧ e' = .bool (b != negated)) ∨
      (∀ b, e ≠ .bool b) ∧ e' = if negated then negateAtom e else e := by
  by_cases hb : ∃ b, e = .bool b
  · obtain ⟨b, rfl⟩ := hb
    exact .inl ⟨b, rfl, (pure_eq_ok.mp h).symm⟩
  · have hb : ∀ b, e ≠ .bool b := fun b heq => hb ⟨b, heq⟩
    exact .inr ⟨hb, Except.ok.inj (h.symm.trans (nnf_atom ha hb negated))⟩

theorem nnf_junction_eq_ok {f : NaryFunction} (hf : f = .and ∨ f = .or) {es : List Formula}
    {negated : Bool} {e' : Formula} :
    (Formula.nary f es).nnf negated = .ok e' ↔
      ∃ es', List.Forall₂ (fun e e' => e.nnf negated = .ok e') es es' ∧
        e' = .nary (dual f negated) es' := by
  rcases hf with rfl | rfl <;> simp [nnf, nnfAll_eq, mapM_eq_ok, @eq_comm _ e']

theorem nnf_ite_cases {c a b : Formula} {negated : Bool} {e' : Formula}
    (h : (Formula.ite c a b).nnf negated = .ok e') :
    (∃ c₁ a' c₂ b', a.sort = .ok .bool ∧ c.nnf negated = .ok c₁ ∧ a.nnf negated = .ok a' ∧
      c.nnf (!negated) = .ok c₂ ∧ b.nnf negated = .ok b' ∧
      e' = .nary (dual .or negated)
        [.nary (dual .and negated) [c₁, a'], .nary (dual .and negated) [c₂, b']]) ∨
    (∃ s, a.sort = .ok s ∧ s ≠ .bool ∧
      e' = if negated then .not (.ite c a b) else .ite c a b) := by
  simp only [nnf, bind_eq_ok] at h
  obtain ⟨s, hs, h⟩ := h
  split at h
  · next hbool =>
    simp only [bind_eq_ok, pure_eq_ok] at h
    obtain ⟨c₁, hc₁, a', ha', c₂, hc₂, b', hb', rfl⟩ := h
    have : s = .bool := by
      cases s <;> simp_all [SmtSort.isBool]
    exact .inl ⟨c₁, a', c₂, b', this ▸ hs, hc₁, ha', hc₂, hb', rfl⟩
  · next hbool =>
    exact .inr ⟨s, hs, fun heq => hbool (heq ▸ rfl), (pure_eq_ok.mp h).symm⟩

theorem dual_cases {f : NaryFunction} (hf : f = .and ∨ f = .or) (negated : Bool) :
    dual f negated = .and ∨ dual f negated = .or := by
  rcases hf with rfl | rfl <;> cases negated <;> decide

/-- The dual is neutral in truth exactly if the truth value in question is the neutral one. -/
theorem not_eq_of_neutral_dual {f : NaryFunction} (hf : f = .and ∨ f = .or) {negated b : Bool}
    (h : neutral (dual f negated) = b) : (!negated) = (neutral f == b) := by
  subst h
  rcases hf with rfl | rfl <;> cases negated <;> decide

/-- The contrary of an atom is true only if the atom is false. -/
theorem truth_negateAtom {e : Formula} (ha : e.isAtom = true)
    (h : (negateAtom e).truth σ = some true) : e.truth σ = some false := by
  unfold negateAtom at h
  split at h
  · next c a b =>
    rw [truth_atom rfl] at h ⊢
    obtain ⟨x, y, hx, hy, hv⟩ := eval_binary_eq_ok.mp h
    obtain ⟨m, n, w, u, rfl, rfl, hholds⟩ := apply_compareBits_eq_ok.mp hv
    refine eval_binary_eq_ok.mpr ⟨_, _, hx, hy, apply_compareBits_eq_ok.mpr
      ⟨m, n, w, u, rfl, rfl, ?_⟩⟩
    have : c.holds m n w = false := by simpa [BitComparison.holds_negate] using hholds
    rw [this]
  · next c a b =>
    rw [truth_atom rfl] at h ⊢
    obtain ⟨x, y, hx, hy, hv⟩ := eval_binary_eq_ok.mp h
    obtain ⟨m, n, hm, hn, hholds⟩ := apply_compareArith_eq_ok.mp hv
    refine eval_binary_eq_ok.mpr ⟨x, y, hx, hy, apply_compareArith_eq_ok.mpr ⟨m, n, hm, hn, ?_⟩⟩
    have : c.negate.holds m n = true := by simpa using hholds
    rw [ArithComparison.holds_negate this]
  · exact truth_not.mp h

theorem truth_of_nnf_atom {e e' : Formula} {negated : Bool} (ha : e.isAtom = true)
    (h : e.nnf negated = .ok e') (ht : e'.truth σ = some true) :
    e.truth σ = some (!negated) := by
  rcases nnf_atom_cases ha h with ⟨b, rfl, rfl⟩ | ⟨-, rfl⟩
  · rw [truth_atom rfl] at ht ⊢
    cases b <;> cases negated <;> simp_all
  · cases negated with
    | false => exact ht
    | true => exact truth_negateAtom ha ht

/-- The two cases of a choice. -/
theorem truth_or_and {c d a b : Formula} :
    (Formula.or [.and [c, a], .and [d, b]]).truth σ = some true ↔
      (c.truth σ = some true ∧ a.truth σ = some true) ∨
        (d.truth σ = some true ∧ b.truth σ = some true) := by
  simp [truth_or, truth_and]

/-- The two cases of a negated choice. -/
theorem truth_and_or {c d a b : Formula} :
    (Formula.and [.or [c, a], .or [d, b]]).truth σ = some true ↔
      (c.truth σ = some true ∨ a.truth σ = some true) ∧
        (d.truth σ = some true ∨ b.truth σ = some true) := by
  simp [truth_or, truth_and]

/-- A choice between two things that are both true, or both false, need not be made. -/
theorem truth_ite_of_both {c a b : Formula} {v : Bool} (ha : a.truth σ = some v)
    (hb : b.truth σ = some v) : (Formula.ite c a b).truth σ = some v := by
  rcases hc : c.truth σ with _ | _ | _ <;> simp [truth, hc, ha, hb]

/-- **No truth is added.** What the negation normal form says, the formula says. -/
theorem truth_of_nnf {e e' : Formula} {negated : Bool} (h : e.nnf negated = .ok e')
    (ht : e'.truth σ = some true) : e.truth σ = some (!negated) := by
  induction e using ind_connective generalizing e' negated with
  | unary f a ih =>
      cases f with
      | not =>
          rw [truth_not]
          exact ih (by simpa [nnf] using h) ht
      | _ => exact truth_of_nnf_atom rfl h ht
  | ite c a b ihc iha ihb =>
      rcases nnf_ite_cases h with ⟨c₁, a', c₂, b', -, hc₁, ha', hc₂, hb', rfl⟩ | ⟨s, hs, hne, rfl⟩
      · cases negated with
        | false =>
            rcases truth_or_and.mp ht with ⟨h₁, h₂⟩ | ⟨h₁, h₂⟩
            · simp [truth, ihc hc₁ h₁, iha ha' h₂]
            · simp [truth, ihc hc₂ h₁, ihb hb' h₂]
        | true =>
            obtain ⟨h₁ | h₁, h₂ | h₂⟩ := truth_and_or.mp ht
            · have := (ihc hc₁ h₁).symm.trans (ihc hc₂ h₂)
              simp at this
            · simp [truth, ihc hc₁ h₁, ihb hb' h₂]
            · simp [truth, ihc hc₂ h₂, iha ha' h₁]
            · exact truth_ite_of_both (iha ha' h₁) (ihb hb' h₂)
      · cases negated with
        | false => exact ht
        | true => exact truth_not.mp ht
  | connective f es hf ih =>
      obtain ⟨es', hes', rfl⟩ := (nnf_junction_eq_ok hf).mp h
      have hdual := dual_cases hf negated
      cases hn : neutral (dual f negated) with
      | true =>
          have hall := (truth_junction_neutral hdual).mp (by rwa [hn])
          have heq : (!negated) = neutral f := by simpa using not_eq_of_neutral_dual hf hn
          rw [heq]
          refine (truth_junction_neutral hf).mpr fun e he => ?_
          obtain ⟨e', he', hnnf⟩ := forall₂_exists_of_mem_left hes' he
          rw [← heq]
          exact ih e he hnnf (hn ▸ hall e' he')
      | false =>
          obtain ⟨e', he', htrue⟩ := (truth_junction_decided hdual).mp (by simpa [hn] using ht)
          have heq : (!negated) = !neutral f := by simpa using not_eq_of_neutral_dual hf hn
          obtain ⟨e, he, hnnf⟩ := forall₂_exists_of_mem_right hes' he'
          rw [heq]
          refine (truth_junction_decided hf).mpr ⟨e, he, ?_⟩
          rw [← heq]
          exact ih e he hnnf (by simpa [hn] using htrue)
  | _ => exact truth_of_nnf_atom rfl h ht

/-- Where a comparison of numbers in a formula is false, the contrary comparison is true. -/
def NegatesExactly (σ : Assignment) (e : Formula) : Prop :=
  ∀ c a b, .binary (.compareArith c) a b ∈ e.parts →
    (Formula.binary (.compareArith c) a b).eval σ = .ok (.bool false) →
      (Formula.binary (.compareArith c.negate) a b).eval σ = .ok (.bool true)

theorem NegatesExactly.part {e p : Formula} (h : NegatesExactly σ e) (hp : p ∈ e.parts) :
    NegatesExactly σ p :=
  fun c a b hmem => h c a b (mem_parts_trans hmem hp)

/-- The contrary of a false atom is true, unless NaN is compared. -/
theorem eval_negateAtom {e : Formula} (h : e.eval σ = .ok (.bool false))
    (hexact : NegatesExactly σ e) : (negateAtom e).truth σ = some true := by
  unfold negateAtom
  split
  · next c a b =>
    obtain ⟨x, y, hx, hy, hv⟩ := eval_binary_eq_ok.mp h
    obtain ⟨m, n, w, u, rfl, rfl, hholds⟩ := apply_compareBits_eq_ok.mp hv
    have : c.holds m n w = false := by simpa using hholds.symm
    refine truth_of_eval (eval_binary_eq_ok.mpr ⟨_, _, hx, hy, apply_compareBits_eq_ok.mpr
      ⟨m, n, w, u, rfl, rfl, ?_⟩⟩)
    rw [BitComparison.holds_negate, this, Bool.not_false]
  · next c a b => exact truth_of_eval (hexact c a b (mem_parts_self _) h)
  · exact truth_of_eval (eval_not_eq_ok.mpr ⟨false, h, rfl⟩)

theorem nnf_atom_of_eval {e e' : Formula} {negated : Bool} (ha : e.isAtom = true)
    (h : e.nnf negated = .ok e') (hexact : NegatesExactly σ e)
    (hv : e.eval σ = .ok (.bool (!negated))) : e'.truth σ = some true := by
  rcases nnf_atom_cases ha h with ⟨b, rfl, rfl⟩ | ⟨-, rfl⟩
  · apply truth_of_eval
    cases b <;> cases negated <;> simp_all
  · cases negated with
    | false => exact truth_of_eval hv
    | true => exact eval_negateAtom hv hexact

/-- **No value is lost.** The negation normal form is true when the formula evaluates to the truth
value in question, if no NaN is compared. -/
theorem nnf_of_eval {e e' : Formula} {negated : Bool} (h : e.nnf negated = .ok e')
    (hexact : NegatesExactly σ e)
    (hv : e.eval σ = .ok (.bool (!negated))) : e'.truth σ = some true := by
  induction e using ind_connective generalizing e' negated with
  | unary f a ih =>
      cases f with
      | not =>
          obtain ⟨b, hb, heq⟩ := eval_not_eq_ok.mp hv
          obtain rfl : negated = b := by simpa using heq
          exact ih (by simpa [nnf] using h) (hexact.part (by simp)) (by simpa using hb)
      | _ => exact nnf_atom_of_eval rfl h hexact hv
  | ite c a b ihc iha ihb =>
      rcases nnf_ite_cases h with ⟨c₁, a', c₂, b', -, hc₁, ha', hc₂, hb', rfl⟩ | ⟨s, hs, hne, rfl⟩
      · have hc := ihc hc₁ (hexact.part (by simp))
        have hnc := ihc hc₂ (hexact.part (by simp))
        have ha := iha ha' (hexact.part (by simp))
        have hb := ihb hb' (hexact.part (by simp))
        have hcases := eval_ite_eq_ok.mp hv
        cases negated with
        | false =>
            refine truth_or_and.mpr ?_
            rcases hcases with ⟨hcv, hav⟩ | ⟨hcv, hbv⟩
            · exact .inl ⟨hc hcv, ha hav⟩
            · exact .inr ⟨hnc hcv, hb hbv⟩
        | true =>
            refine truth_and_or.mpr ?_
            rcases hcases with ⟨hcv, hav⟩ | ⟨hcv, hbv⟩
            · exact ⟨.inr (ha hav), .inl (hnc hcv)⟩
            · exact ⟨.inl (hc hcv), .inr (hb hbv)⟩
      · cases negated with
        | false => exact truth_of_eval hv
        | true => exact truth_not.mpr (truth_of_eval hv)
  | connective f es hf ih =>
      obtain ⟨es', hes', rfl⟩ := (nnf_junction_eq_ok hf).mp h
      have hdual := dual_cases hf negated
      have hparts : ∀ e ∈ es, NegatesExactly σ e :=
        fun e he => hexact.part (mem_parts_nary.mpr (.inr ⟨e, he, mem_parts_self e⟩))
      obtain ⟨b, heq, hes⟩ := (eval_junction_eq_ok hf).mp hv
      obtain rfl : (!negated) = b := by simpa using heq
      cases hn : neutral (dual f negated) with
      | true =>
          have heq : (!negated) = neutral f := by simpa using not_eq_of_neutral_dual hf hn
          rw [← hn]
          refine (truth_junction_neutral hdual).mpr fun e' he' => ?_
          obtain ⟨e, he, hnnf⟩ := forall₂_exists_of_mem_right hes' he'
          rw [hn]
          exact ih e he hnnf (hparts e he) (heq ▸ hes.2.mp heq e he)
      | false =>
          have heq : (!negated) = !neutral f := by simpa using not_eq_of_neutral_dual hf hn
          rw [heq] at hes
          obtain ⟨e, he, hev⟩ := hes.exists_decided
          obtain ⟨e', he', hnnf⟩ := forall₂_exists_of_mem_left hes' he
          have : some true = some (!neutral (dual f negated)) := by rw [hn, Bool.not_false]
          rw [this]
          refine (truth_junction_decided hdual).mpr ⟨e', he', ?_⟩
          rw [← this]
          exact ih e he hnnf (hparts e he) (heq ▸ hev)
  | _ => exact nnf_atom_of_eval rfl h hexact hv

/-! ## Cubes -/

/-- All literals are true. -/
def AllTrue (σ : Assignment) (cube : List Formula) : Prop := ∀ l ∈ cube, l.truth σ = some true

theorem exists_product {cubes others : List (List Formula)} :
    (∃ cube ∈ product cubes others, AllTrue σ cube) ↔
      (∃ cube ∈ cubes, AllTrue σ cube) ∧ ∃ cube ∈ others, AllTrue σ cube := by
  simp only [product, List.mem_flatMap, List.mem_map, AllTrue]
  constructor
  · rintro ⟨_, ⟨a, ha, b, hb, rfl⟩, h⟩
    exact ⟨⟨a, ha, fun l hl => h l (List.mem_append_left b hl)⟩,
      ⟨b, hb, fun l hl => h l (List.mem_append_right a hl)⟩⟩
  · rintro ⟨⟨a, ha, hta⟩, b, hb, htb⟩
    exact ⟨a ++ b, ⟨a, ha, b, hb, rfl⟩, List.forall_mem_append.mpr ⟨hta, htb⟩⟩

section

variable {limit : Nat} {acc cubes : List (List Formula)} {e : Formula} {es : List Formula}

/-- The cubes of a member are multiplied in, if the product is within the limit. -/
theorem conjunctionCubes?_cons : conjunctionCubes? limit acc (e :: es) = some cubes ↔
    ∃ others, e.cubes? limit = some others ∧ acc.length * others.length ≤ limit ∧
      conjunctionCubes? limit (product acc others) es = some cubes := by
  simp only [conjunctionCubes?, Option.bind_eq_bind, Option.bind_eq_some_iff,
    Option.ite_none_left_eq_some, Nat.not_lt]

/-- The cubes of a member are added, if the sum is within the limit. -/
theorem disjunctionCubes?_cons : disjunctionCubes? limit acc (e :: es) = some cubes ↔
    ∃ others, e.cubes? limit = some others ∧ (acc ++ others).length ≤ limit ∧
      disjunctionCubes? limit (acc ++ others) es = some cubes := by
  simp only [disjunctionCubes?, Option.bind_eq_bind, Option.bind_eq_some_iff,
    Option.ite_none_left_eq_some, Nat.not_lt]

end

mutual

/-- **A formula is true if and only if all literals of one of its cubes are.** -/
theorem truth_cubes? {limit : Nat} : ∀ {e : Formula} {cubes : List (List Formula)},
    e.cubes? limit = some cubes → (e.truth σ = some true ↔ ∃ cube ∈ cubes, AllTrue σ cube)
  | .nary .and es, cubes, h => by
    rw [truth_and, truth_conjunctionCubes? es [[]] h]
    simp [AllTrue]
  | .nary .or es, cubes, h => by
    rw [truth_or, truth_disjunctionCubes? es [] h]
    simp
  | .lit (.bool true), cubes, h => by
    obtain rfl : [[]] = cubes := by simpa [cubes?] using h
    simp [truth, AllTrue]
  | .lit (.bool false), cubes, h => by
    obtain rfl : [] = cubes := by simpa [cubes?] using h
    simp [truth]
  | .var .., cubes, h | .unary .., cubes, h | .binary .., cubes, h | .ite .., cubes, h
  | .nary (.make _) _, cubes, h | .lit (.bits ..), cubes, h | .lit (.int _), cubes, h
  | .lit (.real _), cubes, h | .lit (.str _), cubes, h => by
    obtain rfl := Option.some.inj h
    simp [AllTrue]

theorem truth_conjunctionCubes? {limit : Nat} :
    ∀ (es : List Formula) (acc : List (List Formula)) {cubes : List (List Formula)},
    conjunctionCubes? limit acc es = some cubes →
    ((∃ cube ∈ cubes, AllTrue σ cube) ↔
      (∃ cube ∈ acc, AllTrue σ cube) ∧ ∀ e ∈ es, e.truth σ = some true)
  | [], acc, cubes, h => by
    obtain rfl := Option.some.inj h
    simp
  | e :: es, acc, cubes, h => by
    obtain ⟨others, hothers, -, h⟩ := conjunctionCubes?_cons.mp h
    rw [truth_conjunctionCubes? _ _ h, exists_product, ← truth_cubes? hothers,
      List.forall_mem_cons, and_assoc]

theorem truth_disjunctionCubes? {limit : Nat} :
    ∀ (es : List Formula) (acc : List (List Formula)) {cubes : List (List Formula)},
    disjunctionCubes? limit acc es = some cubes →
    ((∃ cube ∈ cubes, AllTrue σ cube) ↔
      (∃ cube ∈ acc, AllTrue σ cube) ∨ ∃ e ∈ es, e.truth σ = some true)
  | [], acc, cubes, h => by
    obtain rfl := Option.some.inj h
    simp
  | e :: es, acc, cubes, h => by
    obtain ⟨others, hothers, -, h⟩ := disjunctionCubes?_cons.mp h
    rw [truth_disjunctionCubes? _ _ h]
    simp only [List.mem_append, or_and_right, exists_or, List.mem_cons, exists_eq_left,
      ← truth_cubes? hothers, or_assoc]

end

/-! ## Literals -/

mutual

/-- The literals of a formula in negation normal form. -/
def literals : Formula → List Formula
  | .nary .and es => literalsAll es
  | .nary .or es => literalsAll es
  | .lit (.bool _) => []
  | e => [e]

def literalsAll : List Formula → List Formula
  | [] => []
  | e :: es => e.literals ++ literalsAll es

end

theorem literalsAll_eq (es : List Formula) : literalsAll es = es.flatMap literals := by
  induction es with
  | nil => rfl
  | cons e es ih => simp [literalsAll, ih]

theorem literals_junction {f : NaryFunction} (hf : f = .and ∨ f = .or) (es : List Formula) :
    (Formula.nary f es).literals = es.flatMap literals := by
  rcases hf with rfl | rfl <;> exact literalsAll_eq es

mutual

/-- Cubes consist of literals. -/
theorem mem_literals_of_cubes? {limit : Nat} : ∀ {e : Formula} {cubes : List (List Formula)},
    e.cubes? limit = some cubes → ∀ cube ∈ cubes, ∀ l ∈ cube, l ∈ e.literals
  | .nary .and es, cubes, h, cube, hc, l, hl => by
    simpa [literals] using mem_literals_of_conjunctionCubes? es [[]] h cube hc l hl
  | .nary .or es, cubes, h, cube, hc, l, hl => by
    simpa [literals] using mem_literals_of_disjunctionCubes? es [] h cube hc l hl
  | .lit (.bool true), cubes, h, cube, hc, l, hl => by
    obtain rfl : [[]] = cubes := by simpa [cubes?] using h
    simp_all
  | .lit (.bool false), cubes, h, cube, hc, l, hl => by
    obtain rfl : [] = cubes := by simpa [cubes?] using h
    simp_all
  | .var .., cubes, h, cube, hc, l, hl | .unary .., cubes, h, cube, hc, l, hl
  | .binary .., cubes, h, cube, hc, l, hl | .ite .., cubes, h, cube, hc, l, hl
  | .nary (.make _) _, cubes, h, cube, hc, l, hl | .lit (.bits ..), cubes, h, cube, hc, l, hl
  | .lit (.int _), cubes, h, cube, hc, l, hl | .lit (.real _), cubes, h, cube, hc, l, hl
  | .lit (.str _), cubes, h, cube, hc, l, hl => by
    obtain rfl := Option.some.inj h
    obtain rfl := List.mem_singleton.mp hc
    exact hl

theorem mem_literals_of_conjunctionCubes? {limit : Nat} :
    ∀ (es : List Formula) (acc : List (List Formula)) {cubes : List (List Formula)},
    conjunctionCubes? limit acc es = some cubes →
    ∀ cube ∈ cubes, ∀ l ∈ cube, (∃ c ∈ acc, l ∈ c) ∨ l ∈ literalsAll es
  | [], acc, cubes, h, cube, hc, l, hl => by
    obtain rfl := Option.some.inj h
    exact .inl ⟨cube, hc, hl⟩
  | e :: es, acc, cubes, h, cube, hc, l, hl => by
    obtain ⟨others, hothers, -, h⟩ := conjunctionCubes?_cons.mp h
    rw [literalsAll, List.mem_append]
    rcases mem_literals_of_conjunctionCubes? _ _ h cube hc l hl with ⟨c, hc, hl⟩ | hl
    · simp only [product, List.mem_flatMap, List.mem_map] at hc
      obtain ⟨a, ha, b, hb, rfl⟩ := hc
      rcases List.mem_append.mp hl with hl | hl
      · exact .inl ⟨a, ha, hl⟩
      · exact .inr (.inl (mem_literals_of_cubes? hothers b hb l hl))
    · exact .inr (.inr hl)

theorem mem_literals_of_disjunctionCubes? {limit : Nat} :
    ∀ (es : List Formula) (acc : List (List Formula)) {cubes : List (List Formula)},
    disjunctionCubes? limit acc es = some cubes →
    ∀ cube ∈ cubes, ∀ l ∈ cube, (∃ c ∈ acc, l ∈ c) ∨ l ∈ literalsAll es
  | [], acc, cubes, h, cube, hc, l, hl => by
    obtain rfl := Option.some.inj h
    exact .inl ⟨cube, hc, hl⟩
  | e :: es, acc, cubes, h, cube, hc, l, hl => by
    obtain ⟨others, hothers, -, h⟩ := disjunctionCubes?_cons.mp h
    rw [literalsAll, List.mem_append]
    rcases mem_literals_of_disjunctionCubes? _ _ h cube hc l hl with ⟨c, hc, hl⟩ | hl
    · rcases List.mem_append.mp hc with hc | hc
      · exact .inl ⟨c, hc, hl⟩
      · exact .inr (.inl (mem_literals_of_cubes? hothers c hc l hl))
    · exact .inr (.inr hl)

end

/-- An atom or the negation of one. -/
def IsLiteral (e : Formula) : Prop := e.isAtom = true ∨ ∃ a, e = .not a ∧ a.isAtom = true

/-- Literals have no members to decide them. -/
theorem IsLiteral.eval {l : Formula} (h : l.IsLiteral) (ht : l.truth σ = some true) :
    l.eval σ = .ok (.bool true) := by
  rcases h with ha | ⟨a, rfl, ha⟩
  · exact (truth_atom ha).mp ht
  · exact eval_not_eq_ok.mpr ⟨false, (truth_atom ha).mp (truth_not.mp ht), rfl⟩

theorem negateAtom_isLiteral {e : Formula} (h : e.isAtom = true) : (negateAtom e).IsLiteral := by
  unfold negateAtom
  split
  · exact .inl rfl
  · exact .inl rfl
  · exact .inr ⟨e, rfl, h⟩

theorem literals_atom {e : Formula} (ha : e.isAtom = true) (hb : ∀ b, e ≠ .bool b) :
    e.literals = [e] := by
  cases e with
  | lit v =>
      cases v with
      | bool b => exact absurd rfl (hb b)
      | _ => rfl
  | nary f es => cases f <;> first | rfl | simp [isAtom] at ha
  | _ => rfl

theorem literals_negateAtom (e : Formula) : (negateAtom e).literals = [negateAtom e] := by
  unfold negateAtom
  split <;> rfl

/-- **Literals are inherited.** What passes from a formula to its operands and to contraries of
atoms, passes to the literals of its negation normal form. -/
theorem nnf_literals {Q : Formula → Prop} (not : ∀ e, Q (.not e) → Q e)
    (junction : ∀ f es, f = .and ∨ f = .or → Q (.nary f es) → ∀ e ∈ es, Q e)
    (ite : ∀ c a b s, a.sort = .ok s → Q (.ite c a b) → s = .bool ∧ Q c ∧ Q a ∧ Q b)
    (negate : ∀ e, (∀ b, e ≠ .bool b) → (∀ a, e ≠ .not a) → Q e → Q (negateAtom e))
    {e e' : Formula} {negated : Bool} (h : e.nnf negated = .ok e') (he : Q e) :
    ∀ l ∈ e'.literals, Q l ∧ l.IsLiteral := by
  have atom : ∀ {e e' : Formula} {negated : Bool}, e.isAtom = true → (∀ a, e ≠ .not a) →
      e.nnf negated = .ok e' → Q e → ∀ l ∈ e'.literals, Q l ∧ l.IsLiteral := by
    intro e e' negated ha hnot h he l hl
    rcases nnf_atom_cases ha h with ⟨b, rfl, rfl⟩ | ⟨hb, rfl⟩
    · simp [literals] at hl
    · cases negated with
      | false =>
          obtain rfl : l = e := by simpa [literals_atom ha hb] using hl
          exact ⟨he, .inl ha⟩
      | true =>
          obtain rfl : l = negateAtom e := by simpa [literals_negateAtom] using hl
          exact ⟨negate e hb hnot he, negateAtom_isLiteral ha⟩
  induction e using ind_connective generalizing e' negated with
  | unary f a ih =>
      cases f with
      | not => exact ih (by simpa [nnf] using h) (not a he)
      | _ => exact atom rfl (by simp) h he
  | ite c a b ihc iha ihb =>
      rcases nnf_ite_cases h with ⟨c₁, a', c₂, b', hs, hc₁, ha', hc₂, hb', rfl⟩ | ⟨s, hs, hne, rfl⟩
      · obtain ⟨-, hc, ha, hb⟩ := ite c a b _ hs he
        have hdual := fun f hf => dual_cases (f := f) hf negated
        intro l hl
        simp only [literals_junction (hdual _ (.inl rfl)), literals_junction (hdual _ (.inr rfl)),
          List.flatMap_cons, List.flatMap_nil, List.append_nil, List.mem_append] at hl
        rcases hl with (hl | hl) | hl | hl
        · exact ihc hc₁ hc l hl
        · exact iha ha' ha l hl
        · exact ihc hc₂ hc l hl
        · exact ihb hb' hb l hl
      · exact absurd (ite c a b s hs he).1 hne
  | connective f es hf ih =>
      obtain ⟨es', hes', rfl⟩ := (nnf_junction_eq_ok hf).mp h
      intro l hl
      rw [literals_junction (dual_cases hf negated)] at hl
      obtain ⟨e', he', hl⟩ := List.mem_flatMap.mp hl
      obtain ⟨e, hmem, hnnf⟩ := forall₂_exists_of_mem_right hes' he'
      exact ih e hmem hnnf (junction f es hf he e hmem) l hl
  | _ => exact atom rfl (by simp) h he

theorem negateAtom_hasSort {e : Formula} (hs : e.HasSort .bool) : (negateAtom e).HasSort .bool := by
  unfold negateAtom
  split
  · simpa using hs
  · simpa using hs
  · exact hasSort_not.mpr ⟨rfl, hs⟩

/-- The literals of a truth value are truth values. They inherit what passes from a truth value to
its parts and to contraries of atoms. -/
theorem nnf_literals_of_hasSort {P : Formula → Prop} (part : ∀ {e p}, P e → p ∈ e.parts → P p)
    (negate : ∀ {e}, (negateAtom e).HasSort .bool → P e → P (negateAtom e)) {e e' : Formula}
    {negated : Bool} (hs : e.HasSort .bool) (he : P e) (h : e.nnf negated = .ok e') :
    ∀ l ∈ e'.literals, l.HasSort .bool ∧ P l ∧ l.IsLiteral := by
  intro l hl
  rw [← and_assoc]
  refine nnf_literals (Q := fun e => e.HasSort .bool ∧ P e) ?_ ?_ ?_ ?_ h ⟨hs, he⟩ l hl
  · rintro e ⟨hs, he⟩
    exact ⟨(hasSort_not.mp hs).2, part he (by simp)⟩
  · rintro f es hf ⟨hs, hes⟩ e he
    exact ⟨((hasSort_junction hf).mp hs).2 e he, part hes (mem_parts_operand he)⟩
  · rintro c a b s hsort ⟨hs, hite⟩
    obtain ⟨hc, ha, hb⟩ := hasSort_ite.mp hs
    exact ⟨sort_agrees ha hsort, ⟨hc, part hite (by simp)⟩, ⟨ha, part hite (by simp)⟩,
      hb, part hite (by simp)⟩
  · rintro e - - ⟨hs, he⟩
    exact ⟨negateAtom_hasSort hs, negate (negateAtom_hasSort hs) he⟩

end Formula

end PlayerPaths
