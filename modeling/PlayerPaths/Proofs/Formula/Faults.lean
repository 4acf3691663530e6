import PlayerPaths.Proofs.Formula.Structure
import PlayerPaths.Proofs.Outcomes
import PlayerPaths.SmtLib.Printer

/-!
# Faults of formulas

Looking at a formula, for its sort or for its text, fails by a fault or not at all: no other error
comes from there, however ill sorted the formula is.
-/

namespace PlayerPaths.Formula

/-- A computation that can only fail by a fault. -/
def Faults {α : Type} (x : Result α) : Prop := Meets (fun e => e.isFault = true) (fun _ => True) x

variable {a : Formula}

theorem size_faults {n : Nat} : Faults (Word.size n) := by
  unfold Word.size
  split
  · exact trivial
  · exact .throw rfl

theorem sort_faults (e : Formula) : Faults e.sort := by
  induction e with
  | var name s => exact trivial
  | lit v => exact trivial
  | unary f a ih =>
      cases f with
      | neg => exact ih
      | extract high low =>
          rw [Formula.sort]
          split
          · exact .throw rfl
          · exact size_faults.bind fun _ _ => .pure trivial
      | zeroExtend extra | signExtend extra =>
          rw [Formula.sort]
          exact ih.bind fun _ _ => size_faults.bind fun _ _ => .pure trivial
      | _ => exact trivial
  | binary f a b iha ihb =>
      cases f with
      | bits op | arith op => exact iha
      | concat =>
          rw [Formula.sort]
          exact iha.bind fun _ _ => ihb.bind fun _ _ => size_faults.bind fun _ _ => .pure trivial
      | _ => exact trivial
  | ite k a b _ iha _ => exact iha
  | nary f es _ => cases f <;> exact trivial

theorem smt_faults {f : BinaryFunction} : Faults (f.smt a) := by
  unfold BinaryFunction.smt
  split
  case h_4 => exact (sort_faults a).bind fun _ _ => .pure trivial
  all_goals exact trivial

theorem texts_faults_of {es : List Formula} (h : ∀ e ∈ es, Faults e.text) : Faults (texts es) := by
  induction es with
  | nil => exact trivial
  | cons e es ih =>
      obtain ⟨he, hes⟩ := List.forall_mem_cons.mp h
      rw [texts]
      exact he.bind fun _ _ => (ih hes).bind fun _ _ => .pure trivial

theorem text_faults (e : Formula) : Faults e.text := by
  induction e with
  | var name s => exact trivial
  | lit v => exact trivial
  | unary f a ih =>
      rw [text]
      exact ih.bind fun _ _ => .pure trivial
  | binary f a b iha ihb =>
      rw [text]
      exact smt_faults.bind fun _ _ => iha.bind fun _ _ => ihb.bind fun _ _ => .pure trivial
  | ite k a b ihk iha ihb =>
      rw [text]
      exact ihk.bind fun _ _ => iha.bind fun _ _ => ihb.bind fun _ _ => .pure trivial
  | nary f es ih =>
      rw [text]
      exact (texts_faults_of ih).bind fun _ _ => .pure trivial

theorem texts_faults (es : List Formula) : Faults (texts es) :=
  texts_faults_of fun e _ => text_faults e

end PlayerPaths.Formula
