import PlayerPaths.Live.Predicate
import PlayerPaths.Proofs.Live.Reading

/-!
# Predicates are decided as their formulas evaluate

A predicate keeps the connectives of its formula and decides one operand after the other, each atom
as a term of its own; the formula is evaluated as a whole, under one assignment of its variables.
Where the assignment has what is read for the variables (`Binds`), every term has the value of its
part of the formula (`Term.evaluate_of_eval`), and by induction over the formula the predicate is
decided as the formula evaluates (`Predicate.decides_formula`).
-/

namespace PlayerPaths

open Formula Std

/-- The constant that is read for a variable of a sort. -/
def Reading.Gives (r : Reading) (component : Value) (s : SmtSort) (value : Formula) : Prop :=
  ∃ v, r.read component = .ok v ∧ v.toFormula s = .ok value

/-! ## Variables of terms -/

/-- The variables that are listed for a formula occur in it with the sorts that are listed. -/
theorem mem_occurrences_of_mem_freeVariables {e : Formula} {v : String × SmtSort}
    (h : v ∈ e.freeVariables.toList) : v ∈ e.occurrences := by
  rw [freeVariables, variablesOf, TreeMap.mem_toList_iff_getElem?_eq_some,
    TreeMap.ofList_eq_insertMany_empty] at h
  rcases mem_of_getElem?_insertMany h with hmem | hnone
  · simpa using hmem
  · simp at hnone

theorem mem_freeVariables_of_var {e : Formula} {name : String} {s : SmtSort}
    (h : .var name s ∈ e.parts) : ∃ t, (name, t) ∈ e.freeVariables.toList := by
  simp only [TreeMap.mem_toList_iff_getElem?_eq_some]
  rw [← mem_iff_exists_getElem?, freeVariables, mem_variablesOf]
  exact ⟨s, by simpa using mem_occurrences.mpr h⟩

/-- An assignment has, for the variables of every part, the constants that a term of the part binds
them to. -/
def Binds (read : String → Result Reading) (component : Value) (σ : Assignment) (e : Formula) :
    Prop :=
  ∀ a ∈ e.parts, ∀ v ∈ a.freeVariables.toList, ∀ r, read v.1 = .ok r →
    ∃ value, r.Gives component v.2 value ∧ σ v.1 = some value

variable {read : String → Result Reading} {component : Value} {σ : Assignment} {e : Formula}

theorem Binds.part {a : Formula} (h : Binds read component σ e) (ha : a ∈ e.parts) :
    Binds read component σ a :=
  fun b hb => h b (mem_parts_trans hb ha)

/-! ## Terms -/

namespace Term

theorem compile_eq_ok {t : Term} (h : compile read e = .ok t) :
    t.formula = e ∧ List.Forall₂ (fun v entry => ∃ r, read v.1 = .ok r ∧ entry = (v.1, v.2, r))
      e.freeVariables.toList t.readings := by
  unfold compile at h
  split at h
  · simp at h
  · simp only [bind_eq_ok, pure_eq_ok, mapM_eq_ok] at h
    obtain ⟨readings, hreadings, rfl⟩ := h
    refine ⟨rfl, hreadings.imp fun v entry hentry => ?_⟩
    obtain ⟨r, hr, heq⟩ := hentry
    exact ⟨r, hr, heq.symm⟩

/-- The variables of a term are bound to the values that they have. -/
theorem bindings_eq_ok {t : Term} (h : compile read e = .ok t)
    (hσ : Binds read component σ e) : ∃ bindings, t.bindings component = .ok bindings ∧
      (∀ entry ∈ bindings, σ entry.1 = some entry.2) ∧
      ∀ name s, .var name s ∈ e.parts → name ∈ bindings.map Prod.fst := by
  obtain ⟨-, hreadings⟩ := compile_eq_ok h
  have hgives : ∀ entry ∈ t.readings, ∃ value, entry.2.2.Gives component entry.2.1 value ∧
      σ entry.1 = some value := by
    intro entry hentry
    obtain ⟨v, hv, r, hr, rfl⟩ := forall₂_exists_of_mem_right hreadings hentry
    exact hσ e e.mem_parts_self v hv r hr
  obtain ⟨bindings, hbindings, hall⟩ : ∃ bindings, t.bindings component = .ok bindings ∧
      List.Forall₂ (fun b entry => b.1 = entry.1 ∧ σ b.1 = some b.2) bindings
        (t.readings.map id) := by
    refine exists_mapM_eq_ok fun entry hentry => ?_
    obtain ⟨value, ⟨v, hv, hvalue⟩, hσvalue⟩ := hgives entry hentry
    exact ⟨(entry.1, value), by simp [hv, hvalue], rfl, hσvalue⟩
  rw [List.map_id] at hall
  refine ⟨bindings, hbindings, fun entry hentry => ?_, fun name s hvar => ?_⟩
  · obtain ⟨_, -, -, hσentry⟩ := forall₂_exists_of_mem_left hall hentry
    exact hσentry
  · obtain ⟨t, ht⟩ := mem_freeVariables_of_var hvar
    obtain ⟨entry, hentry, r, -, rfl⟩ := forall₂_exists_of_mem_left hreadings ht
    obtain ⟨b, hb, heq, -⟩ := forall₂_exists_of_mem_right hall hentry
    exact List.mem_map.mpr ⟨b, hb, heq⟩

theorem lookup_bindings {bindings : List (String × Formula)} {name : String}
    (hσ : ∀ entry ∈ bindings, σ entry.1 = some entry.2) (hname : name ∈ bindings.map Prod.fst) :
    bindings.lookup name = σ name := by
  cases hlookup : bindings.lookup name with
  | none =>
      obtain ⟨entry, hentry, rfl⟩ := List.mem_map.mp hname
      simpa using List.lookup_eq_none_iff.mp hlookup entry hentry
  | some value =>
      obtain ⟨before, behind, rfl, -⟩ := List.lookup_eq_some_iff.mp hlookup
      exact (hσ (name, value) (by simp)).symm

/-- A term has the value that its formula has where the variables have the values that are read. -/
theorem evaluate_of_eval {t : Term} {v : Formula} (h : compile read e = .ok t)
    (hσ : Binds read component σ e) (hv : e.eval σ = .ok v) : t.evaluate component = .ok v := by
  obtain ⟨bindings, hbindings, hentries, hnames⟩ := bindings_eq_ok h hσ
  have heval : e.eval (fun name => bindings.lookup name) = .ok v := by
    rw [← hv]
    exact eval_congr fun name s hvar => lookup_bindings hentries (hnames name s hvar)
  unfold evaluate
  rw [(compile_eq_ok h).1, hbindings]
  simp [heval, Evaluation.value?, Bind.bind, Except.bind, Pure.pure, Except.pure]

end Term

/-! ## Predicates -/

namespace Predicate

variable {env : Environment}

theorem compileAll_eq (es : List Formula) : compileAll env es = es.mapM (compile env) := by
  induction es with
  | nil => rfl
  | cons e es ih => simp [compileAll, ih]

/-- The two predicates of a connective together have its neutral value when the connective has. -/
theorem pair_decides {f : NaryFunction} {es : List Formula} {ps : List Predicate} {b : Bool}
    (hnarrow : es.length ≤ 2)
    (hps : List.Forall₂ (fun (e : Formula) (p : Predicate) =>
      ∀ c, e.eval σ = .ok (.bool c) → p.decide component = .ok c) es ps)
    (hb : JunctionIs σ f es b) :
    ∃ c d, (pair (neutral f) ps).1.decide component = .ok c ∧
      (pair (neutral f) ps).2.decide component = .ok d ∧
      (b = neutral f ↔ c = neutral f ∧ d = neutral f) := by
  obtain ⟨hvalues, hneutral⟩ := hb
  cases hps with
  | nil => exact ⟨_, _, rfl, rfl, by simpa using hneutral⟩
  | @cons e p es ps hp hps =>
      obtain ⟨⟨c, hc⟩, hvalues⟩ := List.forall_mem_cons.mp hvalues
      cases hps with
      | nil => exact ⟨c, _, hp c hc, rfl, by simpa [hc] using hneutral⟩
      | @cons e' q es ps hq hps =>
          obtain ⟨⟨d, hd⟩, -⟩ := List.forall_mem_cons.mp hvalues
          obtain rfl : es = [] := by simpa using hnarrow
          exact ⟨c, d, hp c hc, hq d hd, by simpa [hc, hd] using hneutral⟩

theorem requireNarrow_eq_ok {connective : String} {es : List Formula}
    (h : requireNarrow connective es = .ok ()) : es.length ≤ 2 := by
  unfold requireNarrow at h
  split at h
  · simp at h
  · omega

/-- The predicate of a formula that is no connective is an atom. -/
theorem decide_atom {p : Predicate} {b : Bool}
    (h : (do return Predicate.atom (← env.term e)) = .ok p)
    (hσ : Binds env.reading component σ e) (hb : e.eval σ = .ok (.bool b)) :
    p.decide component = .ok b := by
  simp only [bind_eq_ok, pure_eq_ok] at h
  obtain ⟨t, ht, rfl⟩ := h
  unfold Predicate.decide
  rw [Term.evaluate_of_eval ht hσ hb]
  rfl

/-- **A predicate is decided as its formula evaluates** where the variables have the values that are
bound. -/
theorem decide_of_binds {p : Predicate} {b : Bool} (h : compile env e = .ok p)
    (hσ : Binds env.reading component σ e) (hb : e.eval σ = .ok (.bool b)) :
    p.decide component = .ok b := by
  induction e generalizing p b with
  | lit v =>
      cases v with
      | bool c =>
          obtain rfl := Except.ok.inj h
          obtain rfl : c = b := by simpa using hb
          rfl
      | _ => exact decide_atom h hσ hb
  | unary f a ih =>
      cases f with
      | not =>
          simp only [compile, bind_eq_ok, pure_eq_ok] at h
          obtain ⟨q, hq, rfl⟩ := h
          obtain ⟨c, hc, heq⟩ := eval_not_eq_ok.mp hb
          obtain rfl : b = !c := by simpa using heq
          have ha : a ∈ (Formula.not a).parts := mem_parts_unary.mpr (.inr a.mem_parts_self)
          unfold Predicate.decide
          rw [ih hq (hσ.part ha) hc]
          rfl
      | _ => exact decide_atom h hσ hb
  | nary f es ih =>
      -- The operands of a connective, by induction.
      have hoperands : ∀ {ps : List Predicate}, compileAll env es = .ok ps →
          List.Forall₂ (fun (e : Formula) (p : Predicate) =>
            ∀ c, e.eval σ = .ok (.bool c) → p.decide component = .ok c) es ps := by
        intro ps hps
        rw [compileAll_eq, mapM_eq_ok] at hps
        refine forall₂_imp_of_mem hps fun a ha q hq c hc => ?_
        have hpart : a ∈ (Formula.nary f es).parts :=
          mem_parts_operand ha
        exact ih a ha hq (hσ.part hpart) hc
      cases f with
      | and =>
          simp only [compile, bind_eq_ok, pure_eq_ok] at h
          obtain ⟨_, hnarrow, ps, hps, rfl⟩ := h
          obtain ⟨_, ⟨⟩, hjunction⟩ := (eval_junction_eq_ok (.inl rfl)).mp hb
          obtain ⟨c, d, hc, hd, hiff⟩ :=
            pair_decides (requireNarrow_eq_ok hnarrow) (hoperands hps) hjunction
          have hc : (pair true ps).1.decide component = .ok c := hc
          have hd : (pair true ps).2.decide component = .ok d := hd
          unfold Predicate.decide
          rw [hc]
          cases c <;> cases b <;> simp_all [neutral, Bind.bind, Except.bind, Pure.pure, Except.pure]
      | or =>
          simp only [compile, bind_eq_ok, pure_eq_ok] at h
          obtain ⟨_, hnarrow, ps, hps, rfl⟩ := h
          obtain ⟨_, ⟨⟩, hjunction⟩ := (eval_junction_eq_ok (.inr rfl)).mp hb
          obtain ⟨c, d, hc, hd, hiff⟩ :=
            pair_decides (requireNarrow_eq_ok hnarrow) (hoperands hps) hjunction
          have hc : (pair false ps).1.decide component = .ok c := hc
          have hd : (pair false ps).2.decide component = .ok d := hd
          unfold Predicate.decide
          rw [hc]
          cases c <;> cases b <;> simp_all [neutral, Bind.bind, Except.bind, Pure.pure, Except.pure]
      | make r => exact decide_atom h hσ hb
  | _ => exact decide_atom h hσ hb

theorem holds_of_decide {p : Predicate} {b : Bool} (h : p.decide component = .ok b) :
    p.holds component = .ok b := by
  simp [holds, h, Result.settle, Bind.bind, Except.bind, Pure.pure, Except.pure]

/-- **Predicates are decided as their formulas evaluate.** When a formula can be compiled, and every
variable of it can be read from the running application as a value of its sort, then where the
formula evaluates to a truth value under what is read, the predicate is decided, with this truth
value, and holds accordingly. The formula may be of any shape, and of any sort. -/
theorem decides_formula {env : Environment} {p : Predicate} {b : Bool}
    (h : compile env e = .ok p)
    (hσ : ∀ name s, (name, s) ∈ e.occurrences →
      ∃ r value, env.reading name = .ok r ∧ r.Gives component s value ∧ σ name = some value)
    (hb : e.eval σ = .ok (.bool b)) :
    p.decide component = .ok b ∧ p.holds component = .ok b := by
  have hbinds : Binds env.reading component σ e := by
    rintro a ha ⟨name, s⟩ hv r hr
    have hvar := mem_occurrences.mp (mem_occurrences_of_mem_freeVariables hv)
    obtain ⟨r', value, hr', hgives, hvalue⟩ :=
      hσ name s (mem_occurrences.mpr (mem_parts_trans hvar ha))
    obtain rfl := Except.ok.inj (hr.symm.trans hr')
    exact ⟨value, hgives, hvalue⟩
  have hdecide := decide_of_binds h hbinds hb
  exact ⟨hdecide, holds_of_decide hdecide⟩

/-- A variable is read as a given constant of its sort. -/
def isRead (env : Environment) (component : Value) (name : String) (s : SmtSort)
    (value : Formula) : Bool :=
  match do (← (← env.reading name).read component).toFormula s with
  | .ok c => c = value
  | .error _ => false

theorem gives_of_isRead {env : Environment} {name : String} {s : SmtSort} {value : Formula}
    (h : isRead env component name s value = true) :
    ∃ r, env.reading name = .ok r ∧ r.Gives component s value := by
  unfold isRead at h
  split at h
  · next c hc =>
    obtain rfl := of_decide_eq_true h
    obtain ⟨r, hr, hc⟩ := bind_eq_ok.mp hc
    obtain ⟨v, hv, hvalue⟩ := bind_eq_ok.mp hc
    exact ⟨r, hr, v, hv, hvalue⟩
  · cases h

/-- An environment without calls and accessors: only the component can be read. -/
def bareEnvironment : Environment := { calls := ∅, registry := {}, api := {} }

/-- A player who is alive, with 40 points. -/
def scorer : Value := .object 1 "Game.Player" [("alive", .bool true), ("score", .integer 40)]

def fieldName (name : String) : String := (Address.mk (.frame 0 .this) [.field name]).text

/-- At least 30 points, and dead or with exactly 40 points. -/
def highScore : Formula :=
  let score := Formula.var (fieldName "score") (.bitVec 32)
  .and [.binary (.compareBits .sge) score (.bits 30 32),
    .or [.not (.var (fieldName "alive") .bool), .eq score (.bits 40 32)]]

def highScoreValues : Assignment := fun name =>
  [(fieldName "score", .bits 40 32), (fieldName "alive", .bool true)].lookup name

theorem highScore_decided :
    ∃ p, compile bareEnvironment highScore = .ok p ∧
      (∀ name s, (name, s) ∈ highScore.occurrences → ∃ r value,
        bareEnvironment.reading name = .ok r ∧ r.Gives scorer s value ∧
          highScoreValues name = some value) ∧
      highScore.eval highScoreValues = .ok (.bool true) ∧
      p.decide scorer = .ok true ∧ p.holds scorer = .ok true := by
  have hcompiles : (compile bareEnvironment highScore).isOk = true := by decide +kernel
  have hread : ∀ v ∈ highScore.occurrences, ∃ value ∈ highScoreValues v.1,
      isRead bareEnvironment scorer v.1 v.2 value = true := by
    decide +kernel
  have hvalues : ∀ name s, (name, s) ∈ highScore.occurrences → ∃ r value,
      bareEnvironment.reading name = .ok r ∧ r.Gives scorer s value ∧
        highScoreValues name = some value := by
    intro name s hmem
    obtain ⟨value, hvalue, h⟩ := hread (name, s) hmem
    obtain ⟨r, hr, hgives⟩ := gives_of_isRead h
    exact ⟨r, value, hr, hgives, hvalue⟩
  have heval : highScore.eval highScoreValues = .ok (.bool true) := by decide +kernel
  cases hp : compile bareEnvironment highScore with
  | error e =>
      rw [hp] at hcompiles
      cases hcompiles
  | ok p => exact ⟨p, rfl, hvalues, heval, decides_formula hp hvalues heval⟩

end Predicate

end PlayerPaths
