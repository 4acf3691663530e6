import PlayerPaths.Execution.Machine
import PlayerPaths.Proofs.Formula.Faults

/-!
# Errors about the call stack

Some errors say that the call stack is broken: it has no frame, a frame has no return slot, a call
has no result when its value is needed, or a frame stands at no instruction. Computing with formulas
raises none of them (`Context.Safe`), so they can only come from the few places that look at the
stack, or from the solver, which may answer with any error (`Context.Harmless`).
-/

namespace PlayerPaths

open IL Formula

/-- Errors that say that the call stack is broken. -/
inductive StackError : Error → Prop
  | noFrames : StackError (.custom "state has no frames")
  | noFrame : StackError (.custom "return without a frame")
  | noSlot : StackError (.custom "callee frame without a return slot")
  | notMade (call : String) : StackError (.custom (call ++ " has not been made"))
  | notPart (call : String) : StackError (.custom (call ++ " is not part of the instruction"))
  | noInstruction (block index : Nat) : StackError (.instructionNotFound block index)

/-- The kinds of errors of which some are about the stack. -/
def Error.mayConcernStack : Error → Bool
  | .custom _ | .instructionNotFound .. => true
  | _ => false

namespace Context

variable {c : Context} {e a b : Formula}

/-- Not an error about the stack, unless it is an answer of the solver. -/
def Harmless (c : Context) (e : Error) : Prop :=
  StackError e → ∃ query, c.solver query = .error e

/-- Errors of other kinds are harmless. -/
theorem harmless (c : Context) {e : Error} (h : e.mayConcernStack = false) : c.Harmless e := by
  intro hstack
  cases hstack <;> cases h

/-- A computation that does not say that the stack is broken. -/
def Safe {α : Type} (c : Context) (x : Result α) : Prop := Meets c.Harmless (fun _ => True) x

/-- The error of a call without a receiver ends in another letter than those about the stack. -/
theorem harmless_receiver (method : String) :
    c.Harmless (.custom ("call to " ++ method ++ " without a receiver")) := by
  intro h
  have hlast : ("call to " ++ method ++ " without a receiver").toList.getLast? = some 'r' := by
    rw [String.toList_append, List.getLast?_append]
    rfl
  generalize "call to " ++ method ++ " without a receiver" = text at h hlast
  cases h <;> simp at hlast

/-! ## Formulas -/

/-- A fault says nothing about the stack. -/
theorem harmless_of_fault {e : Error} (h : e.isFault = true) : c.Harmless e := by
  intro hstack
  cases hstack <;> cases h

theorem safe_size {n : Nat} : c.Safe (Word.size n) := size_faults.weaken fun _ => harmless_of_fault

theorem safe_sort (e : Formula) : c.Safe e.sort := (sort_faults e).weaken fun _ => harmless_of_fault

theorem safe_text (e : Formula) : c.Safe e.text := (text_faults e).weaken fun _ => harmless_of_fault

theorem safe_texts (es : List Formula) : c.Safe (texts es) :=
  (texts_faults es).weaken fun _ => harmless_of_fault

/-- A message that quotes a formula. -/
theorem quoted_meets {α : Type} {Q : α → Prop} {message : String → Error}
    (h : ∀ text, c.Harmless (message text)) :
    Meets c.Harmless Q (do throw (message (← e.text)) : Result α) :=
  (safe_text e).bind fun text _ => .throw (h text)

theorem safe_foldOr {constant : Bool} {value : Evaluation Formula} {otherwise : Formula} :
    c.Safe (foldOr constant value otherwise) := by
  unfold foldOr
  split
  · split
    · exact trivial
    · exact trivial
    · exact .throw (c.harmless rfl)
  · exact trivial

theorem safe_simplify (e : Formula) : c.Safe e.simplify := by
  induction e with
  | var name s => exact trivial
  | lit v => exact trivial
  | unary f a ih =>
      rw [simplify]
      exact ih.bind fun a' _ => safe_foldOr
  | binary f a b iha ihb =>
      rw [simplify]
      refine iha.bind fun a' _ => ihb.bind fun b' _ => ?_
      unfold simplifyBinary
      split
      · exact trivial
      · exact safe_foldOr
  | ite k a b ihk iha ihb =>
      rw [simplify]
      exact ihk.bind fun _ _ => iha.bind fun _ _ => ihb.bind fun _ _ => .pure trivial
  | nary f es ih =>
      rw [simplify, simplifyAll_eq]
      refine (Meets.mapM ih).bind fun _ _ => ?_
      split <;> exact trivial

theorem safe_sortOf {sorts : Sorts} {t : Ty} : c.Safe (sorts.sort t) := by
  unfold Sorts.sort
  split
  case h_1 => exact .throw (c.harmless rfl)
  case h_7 =>
    split
    · exact trivial
    · exact .throw (c.harmless rfl)
  case h_8 =>
    split
    · exact trivial
    · exact .throw (c.harmless rfl)
  all_goals exact trivial

theorem safe_address {s : String} : c.Safe (Address.read s) := by
  unfold Address.read
  split
  · exact trivial
  · exact .throw (c.harmless rfl)

/-! ## Checks -/

theorem safe_requireBool : c.Safe (Build.requireBool e) := by
  refine (safe_sort e).bind fun s _ => ?_
  split
  · exact trivial
  · exact quoted_meets fun _ => c.harmless rfl

theorem safe_requireSame : c.Safe (Build.requireSame a b) := by
  refine (safe_sort a).bind fun s _ => (safe_sort b).bind fun t _ => ?_
  split
  · exact trivial
  · exact (safe_text a).bind fun _ _ => quoted_meets fun _ => c.harmless rfl

theorem safe_requireBits : c.Safe (Build.requireBits e) := by
  refine (safe_sort e).bind fun s _ => ?_
  split
  · exact trivial
  · exact quoted_meets fun _ => c.harmless rfl

theorem safe_requireSort {s : SmtSort} : c.Safe (Build.requireSort s e) := by
  refine (safe_sort e).bind fun t _ => ?_
  split
  · exact quoted_meets fun _ => c.harmless rfl
  · exact trivial

theorem safe_requireArithmetic {s : SmtSort} : c.Safe (Build.requireArithmetic s e) := by
  unfold Build.requireArithmetic
  split
  · exact quoted_meets fun _ => c.harmless rfl
  · exact trivial

theorem safe_requireExtensible {extra : Nat} : c.Safe (Build.requireExtensible extra e) := by
  refine safe_requireBits.bind fun w _ => safe_size.bind fun n _ => ?_
  split
  · exact .throw (c.harmless rfl)
  · exact trivial

theorem safe_requireRecord : c.Safe (Build.requireRecord e) := by
  refine (safe_sort e).bind fun s _ => ?_
  split
  · exact trivial
  · exact .throw (c.harmless rfl)

end Context

end PlayerPaths
