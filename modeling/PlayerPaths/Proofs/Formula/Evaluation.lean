import PlayerPaths.Formula.Order
import PlayerPaths.Proofs.Formula.Structure

/-!
# Evaluation

Evaluation is strict: an application has a value only if all of its operands have one. The lemmas
here say what the value of each form of formula is in terms of the values of its operands.
`Formula.Refines` compares two formulas under all assignments: the second one has every value that
the first one has.
-/

namespace PlayerPaths

theorem truthOf_eq_ok {v : Formula} {b : Bool} : truthOf v = .ok b ↔ v = .bool b := by
  unfold truthOf
  split
  · simp
  · next h => simpa using fun hv => h b hv

namespace Formula

variable {σ τ : Assignment} {v : Formula}

/-! ## The value of each form -/

@[simp] theorem eval_lit (v : Literal) : (Formula.lit v).eval σ = .ok (.lit v) := rfl

theorem eval_var_eq_ok {name : String} {s : SmtSort} :
    (Formula.var name s).eval σ = .ok v ↔ σ name = some v := by
  simp only [eval]
  split <;> simp_all

theorem eval_unary_eq_ok {f : UnaryFunction} {a : Formula} :
    (Formula.unary f a).eval σ = .ok v ↔ ∃ x, a.eval σ = .ok x ∧ f.apply x = .ok v :=
  bind_eq_ok

theorem eval_binary_eq_ok {f : BinaryFunction} {a b : Formula} :
    (Formula.binary f a b).eval σ = .ok v ↔
      ∃ x y, a.eval σ = .ok x ∧ b.eval σ = .ok y ∧ f.apply x y = .ok v := by
  show (do let x ← a.eval σ; let y ← b.eval σ; f.apply x y) = .ok v ↔ _
  simp only [bind_eq_ok]
  grind

theorem eval_ite_eq_ok {c a b : Formula} :
    (Formula.ite c a b).eval σ = .ok v ↔
      (c.eval σ = .ok (.bool true) ∧ a.eval σ = .ok v) ∨
      (c.eval σ = .ok (.bool false) ∧ b.eval σ = .ok v) := by
  show (do if ← truthOf (← c.eval σ) then a.eval σ else b.eval σ) = .ok v ↔ _
  simp only [bind_eq_ok, truthOf_eq_ok]
  constructor
  · rintro ⟨x, hx, t, rfl, h⟩
    cases t
    · exact .inr ⟨hx, h⟩
    · exact .inl ⟨hx, h⟩
  · rintro (⟨hc, h⟩ | ⟨hc, h⟩)
    · exact ⟨_, hc, true, rfl, h⟩
    · exact ⟨_, hc, false, rfl, h⟩

theorem eval_make_eq_ok {r : Record} {es : List Formula} :
    (Formula.nary (.make r) es).eval σ = .ok v ↔
      ∃ vs, List.Forall₂ (fun e x => e.eval σ = .ok x) es vs ∧ v = .nary (.make r) vs := by
  show (do NaryFunction.apply (.make r) (← evalAll σ es)) = .ok v ↔ _
  simp [evalAll_eq, mapM_eq_ok, NaryFunction.apply, @eq_comm _ v]

theorem eval_eq_eq_ok {a b : Formula} :
    (Formula.eq a b).eval σ = .ok v ↔
      ∃ x y, a.eval σ = .ok x ∧ b.eval σ = .ok y ∧ v = .bool (x = y) := by
  rw [eval_binary_eq_ok]
  simp [BinaryFunction.apply, @eq_comm _ v]

theorem apply_not_eq_ok {x : Formula} :
    UnaryFunction.not.apply x = .ok v ↔ ∃ b, x = .bool b ∧ v = .bool (!b) := by
  cases x with
  | lit w => cases w <;> simp [UnaryFunction.apply, @eq_comm _ v]
  | _ => simp [UnaryFunction.apply]

theorem eval_not_eq_ok {a : Formula} :
    (Formula.not a).eval σ = .ok v ↔ ∃ b, a.eval σ = .ok (.bool b) ∧ v = .bool (!b) := by
  rw [eval_unary_eq_ok]
  simp only [apply_not_eq_ok]
  grind

theorem apply_compareBits_eq_ok {c : BitComparison} {x y : Formula} :
    (BinaryFunction.compareBits c).apply x y = .ok v ↔
      ∃ m n w u, x = .lit (.bits m w) ∧ y = .lit (.bits n u) ∧ v = .bool (c.holds m n w) := by
  constructor
  · intro h
    simp only [BinaryFunction.apply] at h
    split at h <;> simp_all
  · rintro ⟨m, n, w, u, rfl, rfl, rfl⟩
    rfl

theorem apply_compareArith_eq_ok {c : ArithComparison} {x y : Formula} :
    (BinaryFunction.compareArith c).apply x y = .ok v ↔
      ∃ m n, x.number? = some m ∧ y.number? = some n ∧ v = .bool (c.holds m n) := by
  constructor
  · intro h
    simp only [BinaryFunction.apply] at h
    split at h <;> simp_all
  · rintro ⟨m, n, hm, hn, rfl⟩
    simp [BinaryFunction.apply, hm, hn]

/-- The members of a conjunction or disjunction all have truth values, and together they have a
truth value: the neutral one if and only if all members have that one. -/
def JunctionIs (σ : Assignment) (f : NaryFunction) (es : List Formula) (b : Bool) : Prop :=
  (∀ e ∈ es, ∃ c, e.eval σ = .ok (.bool c)) ∧
  (b = neutral f ↔ ∀ e ∈ es, e.eval σ = .ok (.bool (neutral f)))

/-- A member without the neutral value decides. -/
theorem JunctionIs.exists_decided {f : NaryFunction} {es : List Formula}
    (h : JunctionIs σ f es (!neutral f)) : ∃ e ∈ es, e.eval σ = .ok (.bool (!neutral f)) := by
  have hsome : ¬ ∀ e ∈ es, e.eval σ = .ok (.bool (neutral f)) := fun hall => by
    simpa using h.2.mpr hall
  simp only [not_forall] at hsome
  obtain ⟨e, he, hne⟩ := hsome
  obtain ⟨d, hd⟩ := h.1 e he
  have : d = !neutral f := Bool.eq_not_of_ne fun heq => hne (heq ▸ hd)
  exact ⟨e, he, this ▸ hd⟩

/-- The truth values of some formulas, if they all have one. -/
theorem mapM_truthOf_eq_ok {es : List Formula} {bs : List Bool} :
    (do (← evalAll σ es).mapM truthOf) = .ok bs ↔
      List.Forall₂ (fun e b => e.eval σ = .ok (.bool b)) es bs := by
  simp only [evalAll_eq, bind_eq_ok, mapM_eq_ok, truthOf_eq_ok]
  constructor
  · rintro ⟨vs, hvs, hbs⟩
    induction hvs generalizing bs with
    | nil =>
        cases hbs
        exact .nil
    | cons hv _ ih =>
        cases hbs with
        | cons hb hbs => exact .cons (hb ▸ hv) (ih hbs)
  · intro h
    refine ⟨bs.map .bool, ?_, ?_⟩
    · rw [List.forall₂_map_right_iff]
      exact h
    · rw [List.forall₂_map_left_iff]
      exact List.forall₂_refl _

theorem all_truths {es : List Formula} {bs : List Bool}
    (h : List.Forall₂ (fun e b => e.eval σ = .ok (.bool b)) es bs) (c : Bool) :
    (∀ b ∈ bs, b = c) ↔ ∀ e ∈ es, e.eval σ = .ok (.bool c) := by
  induction h with
  | nil => simp
  | cons he _ ih =>
      rw [List.forall_mem_cons, List.forall_mem_cons, ih, he]
      simp

theorem eval_junction_eq_ok {f : NaryFunction} (hf : f = .and ∨ f = .or) {es : List Formula} :
    (Formula.nary f es).eval σ = .ok v ↔ ∃ b, v = .bool b ∧ JunctionIs σ f es b := by
  have key : (Formula.nary f es).eval σ = .ok v ↔
      ∃ bs, List.Forall₂ (fun e b => e.eval σ = .ok (.bool b)) es bs ∧
        v = .bool (bs.all (· == neutral f) == neutral f) := by
    simp only [← mapM_truthOf_eq_ok, eval, bind_eq_ok]
    rcases hf with rfl | rfl
    · simp only [NaryFunction.apply, bind_eq_ok, pure_eq_ok, neutral]
      constructor
      · rintro ⟨vs, hvs, bs, hbs, rfl⟩
        exact ⟨bs, ⟨vs, hvs, hbs⟩, by simp; rfl⟩
      · rintro ⟨bs, ⟨vs, hvs, hbs⟩, rfl⟩
        exact ⟨vs, hvs, bs, hbs, by simp; rfl⟩
    · simp only [NaryFunction.apply, bind_eq_ok, pure_eq_ok, neutral]
      constructor
      · rintro ⟨vs, hvs, bs, hbs, rfl⟩
        exact ⟨bs, ⟨vs, hvs, hbs⟩, by simp [List.any_eq_not_all_not]⟩
      · rintro ⟨bs, ⟨vs, hvs, hbs⟩, rfl⟩
        exact ⟨vs, hvs, bs, hbs, by simp [List.any_eq_not_all_not]⟩
  rw [key]
  constructor
  · rintro ⟨bs, hbs, rfl⟩
    refine ⟨_, rfl, fun e he => ?_, ?_⟩
    · obtain ⟨b, -, hb⟩ := forall₂_exists_of_mem_left hbs he
      exact ⟨b, hb⟩
    · rw [← all_truths hbs]
      simp
      cases neutral f <;> simp
  · rintro ⟨b, rfl, hdef, hb⟩
    obtain ⟨bs, hbs⟩ : ∃ bs, List.Forall₂ (fun e b => e.eval σ = .ok (.bool b)) es bs := by
      clear hb key
      induction es with
      | nil => exact ⟨[], .nil⟩
      | cons e es ih =>
          obtain ⟨⟨c, hc⟩, hes⟩ := List.forall_mem_cons.mp hdef
          obtain ⟨bs, hbs⟩ := ih hes
          exact ⟨c :: bs, .cons hc hbs⟩
    refine ⟨bs, hbs, ?_⟩
    rw [← all_truths hbs] at hb
    cases hn : neutral f <;> cases b <;> simp_all

/-- A conjunction evaluates to true if and only if all members do. -/
theorem eval_and_true {es : List Formula} :
    (Formula.and es).eval σ = .ok (.bool true) ↔ ∀ e ∈ es, e.eval σ = .ok (.bool true) := by
  rw [eval_junction_eq_ok (.inl rfl)]
  constructor
  · rintro ⟨b, heq, -, hall⟩
    obtain rfl : true = b := by simpa using heq
    exact hall.mp rfl
  · intro hall
    exact ⟨true, rfl, fun e he => ⟨true, hall e he⟩, iff_of_true rfl hall⟩

/-- A formula has a number for its value when its comparison with one is true. -/
theorem holds_of_comparison {c : ArithComparison} {e : Formula} {l : Literal} {y : Float}
    (hy : (Formula.lit l).number? = some y)
    (h : (Formula.binary (.compareArith c) e (.lit l)).eval σ = .ok (.bool true)) :
    ∃ v x, e.eval σ = .ok v ∧ v.number? = some x ∧ c.holds x y = true := by
  obtain ⟨v, w, hv, hw, happly⟩ := eval_binary_eq_ok.mp h
  obtain ⟨x, y', hx, hy', hholds⟩ := apply_compareArith_eq_ok.mp happly
  obtain rfl : Formula.lit l = w := Except.ok.inj hw
  obtain rfl : y = y' := Option.some.inj (hy.symm.trans hy')
  exact ⟨v, x, hv, hx, by simpa using hholds.symm⟩

theorem holds_of_compareArith {c : ArithComparison} {name : String} {s : SmtSort} {l : Literal}
    {y : Float} (hy : (Formula.lit l).number? = some y)
    (h : (Formula.binary (.compareArith c) (.var name s) (.lit l)).eval σ = .ok (.bool true)) :
    ∃ v x, σ name = some v ∧ v.number? = some x ∧ c.holds x y = true := by
  obtain ⟨v, x, hv, hx, hholds⟩ := holds_of_comparison hy h
  exact ⟨v, x, eval_var_eq_ok.mp hv, hx, hholds⟩

/-- A constant is its own value. -/
theorem eval_constant {e : Formula} (h : e.isConstant = true) : e.eval σ = .ok e := by
  induction e with
  | lit v => rfl
  | nary f es ih =>
      cases f with
      | make r =>
          have hes := isConstant_make.mp h
          refine eval_make_eq_ok.mpr ⟨es, ?_, rfl⟩
          rw [List.forall₂_same]
          exact fun e he => ih e he (hes e he)
      | _ => simp [isConstant] at h
  | _ => simp [isConstant] at h

/-! ## Dependence on the assignment -/

theorem mem_occurrences {e : Formula} {name : String} {s : SmtSort} :
    (name, s) ∈ e.occurrences ↔ .var name s ∈ e.parts := by
  simp only [occurrences, List.mem_filterMap]
  constructor
  · rintro ⟨p, hp, h⟩
    split at h
    · simp_all
    · simp at h
  · intro h
    exact ⟨_, h, rfl⟩

/-- The free variables are the names that occur, at whatever sort. -/
theorem mem_variablesOf {es : List Formula} {name : String} :
    name ∈ variablesOf es ↔ ∃ s, (name, s) ∈ es.flatMap occurrences := by
  rw [variablesOf, ← Std.TreeMap.contains_iff_mem, Std.TreeMap.contains_ofList]
  simp

/-- Formulas have the same value under assignments that agree on their variables. -/
theorem eval_congr {e : Formula} (h : ∀ name s, .var name s ∈ e.parts → σ name = τ name) :
    e.eval σ = e.eval τ := by
  induction e with
  | var name s => simp [eval, h name s (by simp)]
  | lit v => rfl
  | unary f a ih => simp [eval, ih fun n s hp => h n s (by simp [hp])]
  | binary f a b iha ihb =>
      simp [eval, iha fun n s hp => h n s (by simp [hp]), ihb fun n s hp => h n s (by simp [hp])]
  | ite c a b ihc iha ihb =>
      simp [eval, ihc fun n s hp => h n s (by simp [hp]), iha fun n s hp => h n s (by simp [hp]),
        ihb fun n s hp => h n s (by simp [hp])]
  | nary f es ih =>
      have hes : evalAll σ es = evalAll τ es := by
        have hall : ∀ e ∈ es, e.eval σ = e.eval τ := fun e he =>
          ih e he fun n s hp => h n s (mem_parts_nary.mpr (.inr ⟨e, he, hp⟩))
        clear ih h
        induction es with
        | nil => rfl
        | cons e es ih =>
            obtain ⟨he, hes⟩ := List.forall_mem_cons.mp hall
            simp [evalAll, he, ih hes]
      simp [eval, hes]

/-! ## Refinement -/

/-- Every value of one formula is a value of another one. -/
def Refines (e e' : Formula) : Prop := ∀ ⦃σ v⦄, e.eval σ = .ok v → e'.eval σ = .ok v

theorem Refines.refl (e : Formula) : e.Refines e := fun _ _ h => h

theorem Refines.trans {a b c : Formula} (hab : a.Refines b) (hbc : b.Refines c) : a.Refines c :=
  fun _ _ h => hbc (hab h)

theorem Refines.unary {f : UnaryFunction} {a a' : Formula} (h : a.Refines a') :
    (Formula.unary f a).Refines (.unary f a') := by
  intro σ v hv
  obtain ⟨x, hx, hf⟩ := eval_unary_eq_ok.mp hv
  exact eval_unary_eq_ok.mpr ⟨x, h hx, hf⟩

theorem Refines.binary {f : BinaryFunction} {a a' b b' : Formula} (ha : a.Refines a')
    (hb : b.Refines b') : (Formula.binary f a b).Refines (.binary f a' b') := by
  intro σ v hv
  obtain ⟨x, y, hx, hy, hf⟩ := eval_binary_eq_ok.mp hv
  exact eval_binary_eq_ok.mpr ⟨x, y, ha hx, hb hy, hf⟩

theorem Refines.ite {c c' a a' b b' : Formula} (hc : c.Refines c') (ha : a.Refines a')
    (hb : b.Refines b') : (Formula.ite c a b).Refines (.ite c' a' b') := by
  intro σ v hv
  rcases eval_ite_eq_ok.mp hv with ⟨ht, h⟩ | ⟨ht, h⟩
  · exact eval_ite_eq_ok.mpr (.inl ⟨hc ht, ha h⟩)
  · exact eval_ite_eq_ok.mpr (.inr ⟨hc ht, hb h⟩)

theorem Refines.nary {f : NaryFunction} {es es' : List Formula}
    (h : List.Forall₂ Refines es es') : (Formula.nary f es).Refines (.nary f es') := by
  intro σ v hv
  simp only [eval, evalAll_eq, bind_eq_ok, mapM_eq_ok] at hv ⊢
  obtain ⟨vs, hvs, hf⟩ := hv
  refine ⟨vs, ?_, hf⟩
  clear hf
  induction h generalizing vs with
  | nil => exact hvs
  | cons he _ ih =>
      cases hvs with
      | cons hx hxs => exact .cons (he hx) (ih _ hxs)

end Formula

end PlayerPaths
