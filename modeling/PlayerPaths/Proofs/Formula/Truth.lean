import PlayerPaths.Proofs.Formula.NormalForm

/-!
# Truth and verdicts

Evaluation is strict, so a disjunction with a true member has no value when another member has
none. `Formula.truth` lets the members that decide a formula decide it: it is the three-valued
logic in which the connectives look no further than needed, and atoms are evaluated. A formula that
evaluates to a truth value has it (`truth_of_eval`).

What is assumed along a path is simplified first, so a path depends on the truth of simplified
formulas. `Formula.verdict` is that truth. Simplification can give a formula a value that it did not
have, so the verdict is not the truth of the formula itself; but it follows the connectives
(`verdict_not`, `verdict_neutral`, `verdict_decided`), and an equality with a constant is about the
value of the simplified side (`verdict_eq_lit`).
-/

namespace PlayerPaths.Formula

/-- What a conjunction or disjunction of truth values is, as far as they are known. -/
def joint (f : NaryFunction) (truths : List (Option Bool)) : Option Bool :=
  if some (!neutral f) ∈ truths then some (!neutral f)
  else if truths.all (· == some (neutral f)) then some (neutral f)
  else none

mutual

/-- The truth value of a formula, as far as its atoms decide it. -/
def truth (σ : Assignment) : Formula → Option Bool
  | .unary .not e => (e.truth σ).map (!·)
  | .nary .and es => joint .and (truths σ es)
  | .nary .or es => joint .or (truths σ es)
  | .ite c a b =>
    match c.truth σ with
    | some true => a.truth σ
    | some false => b.truth σ
    | none => if a.truth σ = b.truth σ then a.truth σ else none
  | e =>
    match e.eval σ with
    | .ok (.bool b) => some b
    | _ => none

def truths (σ : Assignment) : List Formula → List (Option Bool)
  | [] => []
  | e :: es => e.truth σ :: truths σ es

end

variable {σ τ : Assignment}

theorem truths_eq (es : List Formula) : truths σ es = es.map (truth σ) := by
  induction es with
  | nil => rfl
  | cons e es ih => simp [truths, ih]

theorem truth_not {e : Formula} {b : Bool} :
    (Formula.not e).truth σ = some b ↔ e.truth σ = some (!b) := by
  cases h : e.truth σ with
  | none => simp [truth, h]
  | some c => cases b <;> cases c <;> simp [truth, h]

/-- A member decides a conjunction or disjunction. -/
theorem truth_junction_decided {f : NaryFunction} (hf : f = .and ∨ f = .or) {es : List Formula} :
    (Formula.nary f es).truth σ = some (!neutral f) ↔
      ∃ e ∈ es, e.truth σ = some (!neutral f) := by
  have key : joint f (truths σ es) = some (!neutral f) ↔
      ∃ e ∈ es, e.truth σ = some (!neutral f) := by
    rw [truths_eq]
    unfold joint
    split
    · next h => simpa using h
    · next h =>
      split
      · simpa using h
      · simpa using h
  rcases hf with rfl | rfl <;> exact key

theorem truth_junction_neutral {f : NaryFunction} (hf : f = .and ∨ f = .or) {es : List Formula} :
    (Formula.nary f es).truth σ = some (neutral f) ↔
      ∀ e ∈ es, e.truth σ = some (neutral f) := by
  have key : joint f (truths σ es) = some (neutral f) ↔
      ∀ e ∈ es, e.truth σ = some (neutral f) := by
    rw [truths_eq]
    unfold joint
    split
    · next h =>
      obtain ⟨e, he, heq⟩ := List.mem_map.mp h
      constructor
      · simp
      · intro hall
        simpa [heq] using hall e he
    · split
      · next h => simpa using h
      · next h => simpa using h
  rcases hf with rfl | rfl <;> exact key

theorem truth_and {es : List Formula} :
    (Formula.and es).truth σ = some true ↔ ∀ e ∈ es, e.truth σ = some true :=
  truth_junction_neutral (.inl rfl)

theorem truth_or {es : List Formula} :
    (Formula.or es).truth σ = some true ↔ ∃ e ∈ es, e.truth σ = some true :=
  truth_junction_decided (.inr rfl)

/-- The forms that are not looked into. -/
def isAtom : Formula → Bool
  | .unary .not _ | .nary .and _ | .nary .or _ | .ite .. => false
  | _ => true

theorem truth_atom {e : Formula} (h : e.isAtom = true) {b : Bool} :
    e.truth σ = some b ↔ e.eval σ = .ok (.bool b) := by
  have key : (match e.eval σ with
      | .ok (.bool b) => some b
      | _ => none) = some b ↔ e.eval σ = .ok (.bool b) := by
    split
    · next c hc => simp [hc]
    · next hne => simpa using fun heq => hne b heq
  cases e with
  | unary f a => cases f <;> first | exact key | simp [isAtom] at h
  | nary f es => cases f <;> first | exact key | simp [isAtom] at h
  | ite c a b => simp [isAtom] at h
  | _ => exact key

/-- **Truth extends evaluation.** -/
theorem truth_of_eval {e : Formula} {b : Bool} (h : e.eval σ = .ok (.bool b)) :
    e.truth σ = some b := by
  induction e using ind_connective generalizing b with
  | unary f a ih =>
      cases f with
      | not =>
          obtain ⟨c, hc, heq⟩ := eval_not_eq_ok.mp h
          obtain rfl : b = !c := by simpa using heq
          exact truth_not.mpr (by simpa using ih hc)
      | _ => exact (truth_atom rfl).mpr h
  | ite c x y ihc ihx ihy =>
      rcases eval_ite_eq_ok.mp h with ⟨hc, hv⟩ | ⟨hc, hv⟩
      · simp [truth, ihc hc, ihx hv]
      · simp [truth, ihc hc, ihy hv]
  | connective f es hf ih =>
      obtain ⟨c, heq, hes⟩ := (eval_junction_eq_ok hf).mp h
      cases heq
      by_cases hb : b = neutral f
      · rw [hb]
        exact (truth_junction_neutral hf).mpr fun e he => ih e he (hes.2.mp hb e he)
      · obtain rfl := Bool.eq_not_of_ne hb
        obtain ⟨e, he, hev⟩ := hes.exists_decided
        exact (truth_junction_decided hf).mpr ⟨e, he, ih e he hev⟩
  | _ => exact (truth_atom rfl).mpr h

/-- The truth of a formula depends on its variables only. -/
theorem truth_congr {e : Formula} (h : ∀ name s, .var name s ∈ e.parts → σ name = τ name) :
    e.truth σ = e.truth τ := by
  have atom : ∀ {e : Formula}, e.isAtom = true →
      (∀ name s, .var name s ∈ e.parts → σ name = τ name) → e.truth σ = e.truth τ := by
    intro e he h
    ext b
    rw [truth_atom he, truth_atom he, eval_congr h]
  induction e using ind_connective with
  | unary f a ih =>
      cases f with
      | not =>
          have := ih fun n s hp => h n s (by simp [hp])
          simp [truth, this]
      | _ => exact atom rfl h
  | ite c a b ihc iha ihb =>
      have hc := ihc fun n s hp => h n s (by simp [hp])
      have ha := iha fun n s hp => h n s (by simp [hp])
      have hb := ihb fun n s hp => h n s (by simp [hp])
      simp [truth, hc, ha, hb]
  | connective f es hf ih =>
      have hes : truths σ es = truths τ es := by
        rw [truths_eq, truths_eq]
        exact List.map_congr_left fun e he =>
          ih e he fun n s hp => h n s (mem_parts_nary.mpr (.inr ⟨e, he, hp⟩))
      rcases hf with rfl | rfl <;> simp [truth, hes]
  | _ => exact atom rfl h

/-! ## Simplified connectives -/

/-- The members of a formula decide it together, as the operands of a connective do. -/
theorem truth_members_neutral {f : NaryFunction} (hf : f = .and ∨ f = .or) {e : Formula} :
    e.truth σ = some (neutral f) ↔ ∀ m ∈ members f e, m.truth σ = some (neutral f) := by
  induction e with
  | nary g es ih =>
      by_cases hfg : f = g
      · subst hfg
        rw [truth_junction_neutral hf, members_nary, List.forall_mem_flatMap]
        exact forall₂_congr fun e he => ih e he
      · simp [members, hfg]
  | _ => simp [members]

theorem truth_members_decided {f : NaryFunction} (hf : f = .and ∨ f = .or) {e : Formula} :
    e.truth σ = some (!neutral f) ↔ ∃ m ∈ members f e, m.truth σ = some (!neutral f) := by
  induction e with
  | nary g es ih =>
      by_cases hfg : f = g
      · subst hfg
        rw [truth_junction_decided hf, members_nary]
        constructor
        · rintro ⟨e, he, h⟩
          obtain ⟨m, hm, hmv⟩ := (ih e he).mp h
          exact ⟨m, List.mem_flatMap.mpr ⟨e, he, hm⟩, hmv⟩
        · rintro ⟨m, hm, hmv⟩
          obtain ⟨e, he, hm⟩ := List.mem_flatMap.mp hm
          exact ⟨e, he, (ih e he).mpr ⟨m, hm, hmv⟩⟩
      · simp [members, hfg]
  | _ => simp [members]

/-- Dropping neutral and repeated members does not change the truth of a connective. -/
theorem truth_junction {f : NaryFunction} (hf : f = .and ∨ f = .or) (es : List Formula) :
    (junction f es).truth σ = (Formula.nary f es).truth σ := by
  have hneutral : (Formula.nary f es).truth σ = some (neutral f) ↔
      ∀ m ∈ membersAll f es, m.truth σ = some (neutral f) := by
    rw [truth_members_neutral hf, members_nary, membersAll_eq]
  have hdecided : (Formula.nary f es).truth σ = some (!neutral f) ↔
      ∃ m ∈ membersAll f es, m.truth σ = some (!neutral f) := by
    rw [truth_members_decided hf, members_nary, membersAll_eq]
  have hbool : ∀ b : Bool, (Formula.bool b).truth σ = some b := fun b => rfl
  rcases junction_cases f es with ⟨h, hmem⟩ | ⟨h, hall⟩ | ⟨m, hm, h, hall⟩ | ⟨ms, h, hms⟩
  · rw [h, hbool, eq_comm, hdecided]
    exact ⟨_, hmem, hbool _⟩
  · rw [h, hbool, eq_comm, hneutral]
    intro m hm
    rw [hall m hm, hbool]
  · -- One member is left, and all others are neutral.
    rw [h]
    ext b
    by_cases hb : b = neutral f
    · subst hb
      rw [hneutral]
      refine ⟨fun hv m' hm' => ?_, fun hv => hv m hm⟩
      rcases hall m' hm' with rfl | rfl
      · exact hv
      · exact hbool _
    · obtain rfl := Bool.eq_not_of_ne hb
      rw [hdecided]
      refine ⟨fun hv => ⟨m, hm, hv⟩, fun ⟨m', hm', hv⟩ => ?_⟩
      rcases hall m' hm' with rfl | rfl
      · exact hv
      · simp [hbool] at hv
  · rw [h]
    ext b
    by_cases hb : b = neutral f
    · subst hb
      rw [hneutral, truth_junction_neutral hf]
      constructor
      · intro hv m hm
        by_cases hne : m = .bool (neutral f)
        · rw [hne, hbool]
        · exact hv m ((hms m).mpr ⟨hm, hne⟩)
      · intro hv m hm
        exact hv m ((hms m).mp hm).1
    · obtain rfl := Bool.eq_not_of_ne hb
      rw [hdecided, truth_junction_decided hf]
      constructor
      · rintro ⟨m, hm, hv⟩
        exact ⟨m, ((hms m).mp hm).1, hv⟩
      · rintro ⟨m, hm, hv⟩
        have hne : m ≠ .bool (neutral f) := by
          rintro rfl
          simp [hbool] at hv
        exact ⟨m, (hms m).mpr ⟨hm, hne⟩, hv⟩

/-! ## Verdicts -/

variable {σ : Assignment}

/-- The truth value of a formula once it is simplified. -/
def verdict (σ : Assignment) (e : Formula) : Option Bool :=
  match e.simplify with
  | .ok e' => e'.truth σ
  | .error _ => none

theorem verdict_eq_some {e : Formula} {b : Bool} :
    e.verdict σ = some b ↔ ∃ e', e.simplify = .ok e' ∧ e'.truth σ = some b := by
  unfold verdict
  cases e.simplify with
  | ok e' => simp
  | error x => simp

/-- A simplified formula has the verdict of the formula. -/
theorem verdict_simplified {e e' : Formula} (h : e.simplify = .ok e') :
    e'.verdict σ = e.verdict σ := by
  rw [verdict, verdict, (simplify_normal h).simplify_eq, h]

/-- A simplified formula that evaluates to a truth value has it as its verdict. -/
theorem verdict_of_eval {e e' : Formula} {b : Bool} (h : e.simplify = .ok e')
    (hv : e'.eval σ = .ok (.bool b)) : e.verdict σ = some b :=
  verdict_eq_some.mpr ⟨e', h, truth_of_eval hv⟩

theorem truth_simplifyUnary_not {a e : Formula} (h : simplifyUnary .not a = .ok e) {b : Bool} :
    e.truth σ = some b ↔ a.truth σ = some (!b) := by
  rcases simplifyUnary_cases h with ⟨-, hv⟩ | ⟨-, rfl⟩ | ⟨r, i, s, fields, hf, -⟩ | rfl
  · obtain ⟨c, rfl, rfl⟩ := apply_not_eq_ok.mp hv
    show some (!c) = some b ↔ some c = some (!b)
    cases b <;> cases c <;> simp
  · rw [truth_not, Bool.not_not]
  · cases hf
  · exact truth_not

/-- The verdict on a negation is the opposite one. -/
theorem verdict_not {a : Formula} {b : Bool} (h : (Formula.not a).verdict σ = some b) :
    a.verdict σ = some (!b) := by
  obtain ⟨e, he, hb⟩ := verdict_eq_some.mp h
  obtain ⟨a', ha', hnot⟩ := simplify_unary_eq_ok.mp he
  exact verdict_eq_some.mpr ⟨a', ha', (truth_simplifyUnary_not hnot).mp hb⟩

/-- The verdict on a connective is decided by a member. -/
theorem verdict_decided {f : NaryFunction} (hf : f = .and ∨ f = .or) {es : List Formula}
    (h : (Formula.nary f es).verdict σ = some (!neutral f)) :
    ∃ e ∈ es, e.verdict σ = some (!neutral f) := by
  obtain ⟨e, he, hb⟩ := verdict_eq_some.mp h
  obtain ⟨es', hes', rfl⟩ := (simplify_junction_eq_ok hf).mp he
  rw [truth_junction hf, truth_junction_decided hf] at hb
  obtain ⟨e', he', hb⟩ := hb
  obtain ⟨e, he, hsimp⟩ := forall₂_exists_of_mem_right hes' he'
  exact ⟨e, he, verdict_eq_some.mpr ⟨e', hsimp, hb⟩⟩

theorem verdict_neutral {f : NaryFunction} (hf : f = .and ∨ f = .or) {es : List Formula}
    (h : (Formula.nary f es).verdict σ = some (neutral f)) :
    ∀ e ∈ es, e.verdict σ = some (neutral f) := by
  obtain ⟨e, he, hb⟩ := verdict_eq_some.mp h
  obtain ⟨es', hes', rfl⟩ := (simplify_junction_eq_ok hf).mp he
  rw [truth_junction hf, truth_junction_neutral hf] at hb
  intro e he
  obtain ⟨e', he', hsimp⟩ := forall₂_exists_of_mem_left hes' he
  exact verdict_eq_some.mpr ⟨e', hsimp, hb e' he'⟩

theorem verdict_or {es : List Formula} (h : (Formula.or es).verdict σ = some true) :
    ∃ e ∈ es, e.verdict σ = some true :=
  verdict_decided (.inr rfl) h

theorem verdict_and {es : List Formula} (h : (Formula.and es).verdict σ = some true) :
    ∀ e ∈ es, e.verdict σ = some true :=
  verdict_neutral (.inl rfl) h

theorem verdict_not_and {es : List Formula}
    (h : (Formula.not (.and es)).verdict σ = some true) : ∃ e ∈ es, e.verdict σ = some false :=
  verdict_decided (.inl rfl) (verdict_not h)

/-- The truth of an equality with a constant tells whether the other side has its value. -/
theorem truth_equate_lit {a : Formula} {k : Literal} {b : Bool}
    (h : (equate a (.lit k)).truth σ = some b) : a.eval σ = .ok (.lit k) ↔ b = true := by
  rcases equate_cases a (.lit k) with ⟨hc, -, heq⟩ | ⟨rfl, heq⟩ | ⟨r, s, as, bs, -, hk, -⟩ | heq
  · rw [heq] at h
    obtain rfl : decide (a = .lit k) = b := Option.some.inj h
    simp [eval_constant hc]
  · rw [heq] at h
    obtain rfl : true = b := Option.some.inj h
    simp
  · cases hk
  · rw [heq, truth_atom rfl] at h
    obtain ⟨v, w, hv, hw, hb⟩ := eval_eq_eq_ok.mp h
    obtain rfl : .lit k = w := by simpa using hw
    obtain rfl : b = decide (v = .lit k) := by simpa using hb
    simp [hv]

/-- The verdict on an equality with a constant tells whether the simplified side has its value. -/
theorem verdict_eq_lit {a : Formula} {k : Literal} {b : Bool}
    (h : (Formula.eq a (.lit k)).verdict σ = some b) :
    ∃ a', a.simplify = .ok a' ∧ (a'.eval σ = .ok (.lit k) ↔ b = true) := by
  obtain ⟨e, he, hb⟩ := verdict_eq_some.mp h
  obtain ⟨a', k', ha', hk', heq⟩ := simplify_binary_eq_ok.mp he
  obtain rfl : .lit k = k' := by simpa [simplify] using hk'
  obtain rfl : equate a' (.lit k) = e := by simpa [simplifyBinary] using heq
  exact ⟨a', ha', truth_equate_lit hb⟩

/-- An equality with one constant excludes the equality with another one. -/
theorem verdict_eq_unique {a : Formula} {j k : Literal}
    (hj : (Formula.eq a (.lit j)).verdict σ = some true)
    (hk : (Formula.eq a (.lit k)).verdict σ = some true) : j = k := by
  obtain ⟨b, hb, hbj⟩ := verdict_eq_lit hj
  obtain ⟨c, hc, hck⟩ := verdict_eq_lit hk
  obtain rfl : b = c := Except.ok.inj (hb.symm.trans hc)
  have heq : Formula.lit j = .lit k := Except.ok.inj ((hbj.mpr rfl).symm.trans (hck.mpr rfl))
  simpa using heq

end PlayerPaths.Formula
