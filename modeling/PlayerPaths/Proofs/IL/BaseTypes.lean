import Mathlib.Logic.Relation
import PlayerPaths.IL.Program
import PlayerPaths.Proofs.Collections

/-!
# Base types

A type derives from every name that its base types lead to, and from itself (`Program.Derives`).
The base types of a program need not be defined in it, and they may go round.

The search for a name along the base types knows nothing of the names behind it. It counts them, and
gives up when it has looked at more names than there are definitions (`Program.Answers`). That is
late enough: a chain that repeats a name can be cut short (`Program.Derives.exists_nodup`), and what
a chain without repetition passes has definitions, so it passes no more names than there are
(`Program.BaseChain.length_le_size`). Only the name where the chain ends may be without definition,
and that one is looked at, too. So the search ends for every program, and with the right answer
(`Program.derivesFrom_exact`).
-/

namespace PlayerPaths.IL.Program

open Relation

variable {p : Program} {name base parent : String} {passed : List String}

/-! ## Chains of base types -/

/-- The definition of a type gives it a base type. -/
def HasBase (p : Program) (name parent : String) : Prop :=
  ∃ d, p.type? name = some d ∧ d.baseType = some parent

/-- Base types lead from one name to another one, in no, one or more steps. -/
def Derives (p : Program) : String → String → Prop := ReflTransGen p.HasBase

/-- A chain of base types from one name to another one. Each name in the list has the next one as its
base type, and the last one has the name where the chain ends. -/
inductive BaseChain (p : Program) : (passed : List String) → (name base : String) → Prop
  | here {name : String} : BaseChain p [] name name
  | up {passed : List String} {name parent base : String} : p.HasBase name parent →
      BaseChain p passed parent base → BaseChain p (name :: passed) name base

theorem baseOf?_eq_some : p.baseOf? name = some parent ↔ p.HasBase name parent :=
  Option.bind_eq_some_iff

theorem HasBase.mem (h : p.HasBase name parent) : name ∈ p.types := by
  obtain ⟨d, hd, -⟩ := h
  exact mem_iff_exists_getElem?.mpr ⟨d, hd⟩

namespace BaseChain

/-- Whatever is passed has a definition. -/
theorem mem_types (h : p.BaseChain passed name base) : ∀ a ∈ passed, a ∈ p.types := by
  induction h with
  | here => simp
  | up hbase _ ih => exact List.forall_mem_cons.mpr ⟨hbase.mem, ih⟩

theorem length_le_size (h : p.BaseChain passed name base) (hnodup : passed.Nodup) :
    passed.length ≤ p.types.size :=
  length_le_size_of_nodup hnodup h.mem_types

/-- From a name that is passed, the rest of the chain leads on. -/
theorem exists_suffix {a : String} (h : p.BaseChain passed name base) (ha : a ∈ passed) :
    ∃ rest, rest <:+ passed ∧ p.BaseChain rest a base := by
  induction h with
  | here => cases ha
  | @up passed name _ _ hbase hchain ih =>
      rcases List.mem_cons.mp ha with rfl | ha
      · exact ⟨_, List.suffix_rfl, .up hbase hchain⟩
      · obtain ⟨rest, hrest, hchain'⟩ := ih ha
        exact ⟨rest, hrest.trans (List.suffix_cons name passed), hchain'⟩

end BaseChain

/-- A way along base types that comes back to a name can be cut short there. -/
theorem Derives.exists_nodup (h : p.Derives name base) :
    ∃ passed, passed.Nodup ∧ p.BaseChain passed name base := by
  induction h using ReflTransGen.head_induction_on with
  | refl => exact ⟨[], List.nodup_nil, .here⟩
  | @head name parent hbase _ ih =>
      obtain ⟨passed, hnodup, hchain⟩ := ih
      by_cases hmem : name ∈ passed
      · obtain ⟨rest, hrest, hchain'⟩ := hchain.exists_suffix hmem
        exact ⟨rest, hnodup.sublist hrest.sublist, hchain'⟩
      · exact ⟨name :: passed, List.nodup_cons.mpr ⟨hmem, hnodup⟩, .up hbase hchain⟩

/-! ## Counting the names -/

@[simp]
theorem derivesWithin_self (steps : Nat) : p.derivesWithin base steps base = true := by
  cases steps <;> simp [derivesWithin]

theorem derivesWithin_zero_of_ne (h : name ≠ base) : p.derivesWithin base 0 name = false := by
  simp [derivesWithin, h]

theorem derivesWithin_succ_of_ne (h : name ≠ base) (steps : Nat) :
    p.derivesWithin base (steps + 1) name =
      ((p.baseOf? name).map (p.derivesWithin base steps)).getD false := by
  cases hparent : p.baseOf? name <;> simp [derivesWithin, h, hparent]

/-- As many steps as names are passed lead to the end of a chain. -/
theorem BaseChain.derivesWithin {steps : Nat} (h : p.BaseChain passed name base)
    (hlength : passed.length ≤ steps) : p.derivesWithin base steps name = true := by
  induction h generalizing steps with
  | here => exact derivesWithin_self steps
  | @up passed name parent base hbase _ ih =>
      by_cases hname : name = base
      · rw [hname, derivesWithin_self]
      · cases steps with
        | zero => cases hlength
        | succ steps =>
            rw [derivesWithin_succ_of_ne hname, baseOf?_eq_some.mpr hbase]
            exact ih (Nat.le_of_succ_le_succ hlength)

/-- Base types lead to what the steps find. -/
theorem derives_of_derivesWithin {steps : Nat} (h : p.derivesWithin base steps name = true) :
    p.Derives name base := by
  induction steps generalizing name with
  | zero =>
      by_cases hname : name = base
      · exact hname ▸ .refl
      · rw [derivesWithin_zero_of_ne hname] at h
        cases h
  | succ steps ih =>
      by_cases hname : name = base
      · exact hname ▸ .refl
      · rw [derivesWithin_succ_of_ne hname] at h
        cases hparent : p.baseOf? name with
        | none => simp [hparent] at h
        | some parent =>
            rw [hparent, Option.map_some, Option.getD_some] at h
            exact .head (baseOf?_eq_some.mp hparent) (ih h)

/-! ## The search -/

/-- The answer of a search for a base type that is about to look at a name, or has come to the end
of the chain, and has looked at a number of names before. It counts every name that is not the right
one, and gives up when they are more than the definitions. -/
inductive Answers (p : Program) (base : String) :
    (current : Option String) → (looked : Nat) → Bool → Prop
  | ends {looked : Nat} : Answers p base none looked false
  | finds {looked : Nat} : Answers p base (some base) looked true
  | givesUp {name : String} {looked : Nat} : name ≠ base → p.types.size < looked + 1 →
      Answers p base (some name) looked false
  | goesOn {name : String} {looked : Nat} {answer : Bool} : name ≠ base →
      looked + 1 ≤ p.types.size → Answers p base (p.baseOf? name) (looked + 1) answer →
      Answers p base (some name) looked answer

/-- A search has one answer. -/
theorem Answers.unique {current : Option String} {looked : Nat} {answer answer' : Bool}
    (h : p.Answers base current looked answer) (h' : p.Answers base current looked answer') :
    answer = answer' := by
  induction h with
  | ends =>
      cases h' with
      | ends => rfl
  | finds =>
      cases h' with
      | finds => rfl
      | givesUp hne => exact absurd rfl hne
      | goesOn hne => exact absurd rfl hne
  | givesUp hne hmany =>
      cases h' with
      | finds => exact absurd rfl hne
      | givesUp => rfl
      | goesOn _ hfew => exact absurd hfew (Nat.not_le_of_gt hmany)
  | goesOn hne hfew _ ih =>
      cases h' with
      | finds => exact absurd rfl hne
      | givesUp _ hmany => exact absurd hfew (Nat.not_le_of_gt hmany)
      | goesOn _ _ h' => exact ih h'

/-- A search that has looked at some names takes the steps that are left. -/
theorem answers_derivesWithin {looked steps : Nat} (h : looked + steps = p.types.size) :
    p.Answers base (some name) looked (p.derivesWithin base steps name) := by
  induction steps generalizing name looked with
  | zero =>
      by_cases hname : name = base
      · rw [hname, derivesWithin_self]
        exact .finds
      · rw [derivesWithin_zero_of_ne hname]
        exact .givesUp hname (by omega)
  | succ steps ih =>
      by_cases hname : name = base
      · rw [hname, derivesWithin_self]
        exact .finds
      · rw [derivesWithin_succ_of_ne hname]
        refine .goesOn hname (by omega) ?_
        cases p.baseOf? name with
        | none => exact .ends
        | some parent => exact ih (by omega)

/-- **A type derives from exactly what its base types lead to.** For all names and in any program,
the search along the base types ends, and `derivesFrom` is its one answer. It is yes exactly when
base types lead from one name to the other, in no, one or more steps. -/
theorem derivesFrom_exact (p : Program) (name base : String) :
    (∀ answer, p.Answers base (some name) 0 answer ↔ answer = p.derivesFrom name base) ∧
      (p.derivesFrom name base = true ↔ p.Derives name base) := by
  have hanswers : p.Answers base (some name) 0 (p.derivesFrom name base) :=
    answers_derivesWithin (Nat.zero_add _)
  refine ⟨fun answer => ⟨fun h => h.unique hanswers, fun h => h ▸ hanswers⟩, ?_, fun h => ?_⟩
  · exact derives_of_derivesWithin
  · -- The search may give up before the chain ends, but not before a chain without repetition does.
    obtain ⟨passed, hnodup, hchain⟩ := h.exists_nodup
    exact hchain.derivesWithin (hchain.length_le_size hnodup)

/-- A boss passes all definitions on its way to a base type without definition. -/
example :
    let enemies := ((empty "Game").addType ⟨"Boss", .object, some "Enemy", []⟩).addType
      ⟨"Enemy", .object, some "UnityEngine.MonoBehaviour", []⟩
    enemies.derivesFrom "Boss" "UnityEngine.MonoBehaviour" = true ∧
      enemies.derivesFrom "Enemy" "Boss" = false := by
  decide +kernel

end PlayerPaths.IL.Program
