import PlayerPaths.Proofs.Collections
import PlayerPaths.Proofs.SmtLib.Constructed

/-!
# Outcomes of reading, piece by piece

A text is cut into expressions without a fault, and a literal in them is no longer than the text, so
that its width is a size. Literals, names and sorts are read as constructed formulas and as sorts of
sizes. A function applied to constructed formulas gives one or refuses them without a fault, except
for a concatenation (`apply_outcome`) or an extension (`applyIndexed_outcome`) that is too wide.
-/

namespace PlayerPaths.SmtLib

open Std Formula

/-! ## Literals are no longer than their text -/

mutual

/-- No literal in an expression has more characters. -/
def SExpr.Within (n : Nat) : SExpr → Prop
  | .literal l => l.length ≤ n
  | .list items => SExpr.AllWithin n items
  | _ => True

def SExpr.AllWithin (n : Nat) : List SExpr → Prop
  | [] => True
  | e :: es => e.Within n ∧ SExpr.AllWithin n es

end

theorem SExpr.allWithin_iff {n : Nat} {es : List SExpr} :
    SExpr.AllWithin n es ↔ ∀ e ∈ es, e.Within n := by
  induction es with
  | nil => simp [SExpr.AllWithin]
  | cons e es ih => simp [SExpr.AllWithin, ih]

theorem SExpr.within_list {n : Nat} {es : List SExpr} :
    (SExpr.list es).Within n ↔ ∀ e ∈ es, e.Within n := SExpr.allWithin_iff

theorem SExpr.Within.mono {e : SExpr} {m n : Nat} (h : e.Within m) (hle : m ≤ n) :
    e.Within n := by
  induction e with
  | symbol name => trivial
  | literal l => exact Nat.le_trans h hle
  | str s => trivial
  | list items ih =>
      rw [within_list] at h ⊢
      exact fun e he => ih e he (h e he)

/-- A token without a literal of more characters. -/
def Token.Within (n : Nat) : Token → Prop
  | .leaf e => e.Within n
  | _ => True

theorem Token.Within.mono {t : Token} {m n : Nat} (h : t.Within m) (hle : m ≤ n) :
    t.Within n := by
  cases t with
  | leaf e => exact SExpr.Within.mono h hle
  | _ => trivial

namespace Mode

/-- The number of characters of an atom so far, which may become a literal. -/
def pending : Mode → Nat
  | atom chars => chars.length
  | _ => 0

theorem atomToken_within (chars : List Char) : (atomToken chars).Within chars.length := by
  have hliteral : Token.Within chars.length (.leaf (.literal (String.ofList chars.reverse))) := by
    simp [Token.Within, SExpr.Within]
  simp only [atomToken]
  split
  · split
    · exact hliteral
    · trivial
  · trivial

theorem start_within (n : Nat) (c : Char) :
    (∀ t ∈ (start c).1, t.Within n) ∧ (start c).2.pending ≤ 1 := by
  unfold start
  split_ifs <;> simp [pending, Token.Within]

/-- One character adds at most one character to an atom, and a literal is given out with the
characters that it has so far. -/
theorem step_within (m : Mode) (c : Char) :
    (∀ t ∈ (m.step c).1, t.Within m.pending) ∧ (m.step c).2.pending ≤ m.pending + 1 := by
  obtain ⟨hstart, hpending⟩ := start_within m.pending c
  have hpending := hpending.trans (Nat.le_add_left 1 m.pending)
  cases m with
  | between => exact ⟨hstart, hpending⟩
  | comment => simp only [step]; split <;> simp [pending]
  | quotedSymbol chars =>
      simp only [step]
      split <;> simp [pending, Token.Within, SExpr.Within]
  | string chars => simp only [step]; split <;> simp [pending]
  | stringQuote chars =>
      simp only [step]
      split
      · simp [pending]
      · exact ⟨List.forall_mem_cons.mpr ⟨trivial, hstart⟩, hpending⟩
  | atom chars =>
      simp only [step]
      split
      · exact ⟨List.forall_mem_cons.mpr ⟨atomToken_within chars, hstart⟩, hpending⟩
      · simp [pending]

theorem finish_within (m : Mode) : ∀ t ∈ m.finish, t.Within m.pending := by
  cases m with
  | atom chars => exact List.forall_mem_singleton.mpr (atomToken_within chars)
  | _ => simp [finish, Token.Within, SExpr.Within]

end Mode

theorem tokens_within (m : Mode) (cs : List Char) :
    ∀ t ∈ tokens m cs, t.Within (m.pending + cs.length) := by
  induction cs generalizing m with
  | nil => exact m.finish_within
  | cons c cs ih =>
      obtain ⟨hstep, hpending⟩ := m.step_within c
      intro t ht
      rcases List.mem_append.mp ht with ht | ht
      · exact (hstep t ht).mono (Nat.le_add_right _ _)
      · exact (ih _ t ht).mono (by simp only [List.length_cons]; omega)

theorem assemble_within {n : Nat} {ts : List Token} (hts : ∀ t ∈ ts, t.Within n)
    {stack : List (List SExpr)} {items : List SExpr} (hstack : ∀ es ∈ stack, ∀ e ∈ es, e.Within n)
    (hitems : ∀ e ∈ items, e.Within n) :
    NoFault (fun es => ∀ e ∈ es, e.Within n) (assemble stack items ts) := by
  induction ts generalizing stack items with
  | nil =>
      cases stack with
      | nil => exact .pure fun e he => hitems e (List.mem_reverse.mp he)
      | cons outer stack => exact .throw rfl
  | cons t ts ih =>
      obtain ⟨ht, hrest⟩ := List.forall_mem_cons.mp hts
      cases t with
      | opening =>
          rw [assemble_opening]
          exact ih hrest (List.forall_mem_cons.mpr ⟨hitems, hstack⟩) (by simp)
      | closing =>
          cases stack with
          | nil => exact .throw rfl
          | cons outer stack =>
              obtain ⟨houter, hstack⟩ := List.forall_mem_cons.mp hstack
              have hlist : (SExpr.list items.reverse).Within n :=
                SExpr.within_list.mpr fun e he => hitems e (List.mem_reverse.mp he)
              exact ih hrest hstack (List.forall_mem_cons.mpr ⟨hlist, houter⟩)
      | leaf e =>
          rw [assemble_leaf]
          exact ih hrest hstack (List.forall_mem_cons.mpr ⟨ht, hitems⟩)
      | unterminated what => cases stack <;> exact .throw rfl

/-- A text is cut into expressions without a fault, and their literals are no longer than the text. -/
theorem expressions_within (text : String) :
    NoFault (fun es => ∀ e ∈ es, e.Within text.length) (expressions text) := by
  refine assemble_within (fun t ht => ?_) (by simp) (by simp)
  simpa [Mode.pending, ← String.length_toList] using tokens_within .between text.toList t ht

/-! ## Names and literals -/

/-- The widths that a vocabulary speaks of are sizes. -/
structure Vocabulary.Sized (v : Vocabulary) : Prop where
  records : ∀ (name : String) (r : Record), v.records[name]? = some r → r.sort.isSized = true
  variableSorts : ∀ (name : String) (s : SmtSort), v.variableSorts[name]? = some s → s.isSized = true

namespace Vocabulary.Sized

variable {v : Vocabulary}

theorem addRecord (h : v.Sized) {r : Record} (hr : r.sort.isSized = true) :
    (v.addRecord r).Sized where
  records := by
    intro name r' hr'
    rw [Vocabulary.addRecord, TreeMap.getElem?_insert] at hr'
    split at hr'
    · obtain rfl := Option.some.inj hr'
      exact hr
    · exact h.records name r' hr'
  variableSorts := h.variableSorts

theorem addVariable (h : v.Sized) {name : String} {s : SmtSort} (hs : s.isSized = true) :
    (v.addVariable name s).Sized where
  records := h.records
  variableSorts := by
    intro name' s' hs'
    rw [Vocabulary.addVariable, TreeMap.getElem?_insert] at hs'
    split at hs'
    · obtain rfl := Option.some.inj hs'
      exact hs
    · exact h.variableSorts name' s' hs'

theorem constructor? (h : v.Sized) {name : String} {r : Record}
    (hr : v.constructor? name = some r) : r.sort.isSized = true := by
  obtain ⟨key, hkey⟩ := mem_values.mp (List.mem_of_find?_eq_some hr)
  exact h.records key r hkey

end Vocabulary.Sized

theorem numeral_noFault (l : String) :
    NoFault (fun n => numeral l = .ok n ∧ n < Word.limit) (numeral l) := by
  have hall : NoFault (· < Word.limit) (numeral l) := by
    unfold numeral
    split
    · next hn => exact .pure (Text.readNumeral?_lt hn)
    · exact .throw rfl
  exact hall.and_value fun n hn => ⟨hn, hall.value hn⟩

theorem readSort_noFault {v : Vocabulary} (hv : v.Sized) (e : SExpr) :
    NoFault (fun s => s.isSized = true) (readSort v e) := by
  unfold readSort
  split
  case h_5 =>
    split
    · next hr => exact .pure (hv.records _ _ hr)
    · exact .throw rfl
  case h_6 =>
    exact (numeral_noFault _).bind fun w hw => .pure (SmtSort.isSized_bitVec.mpr hw.2)
  case h_7 => exact .throw rfl
  all_goals exact .pure rfl

theorem constructed_bits {n w : Nat} (hw : w < Word.limit) : (Formula.bits n w).Constructed := by
  have hvalue : n % pow2 (min w 64) < pow2 (min w 64) := Nat.mod_lt n (Nat.pow_pos (by decide))
  exact .lit ((Bool.and_eq_true _ _).mpr ⟨decide_eq_true hw, decide_eq_true hvalue⟩) (by simp)

theorem constructed_int {n : Nat} (hn : n < pow2 63) : (Formula.int n).Constructed := by
  have hpow : pow2 63 = 9223372036854775808 := by decide
  have hmin : Word.minInt = -9223372036854775808 := by decide
  have hmax : Word.maxInt = 9223372036854775807 := by decide
  refine .lit ?_ fun heq => ?_
  · simp only [Literal.isSized, Word.inRange, Bool.and_eq_true, decide_eq_true_eq]
    omega
  · have heq : (n : Int) = Word.minInt := by simpa using heq
    omega

theorem readLiteral_noFault {l : String} (hl : 4 * l.length < Word.limit) :
    NoFault Constructed (readLiteral l) := by
  rw [← String.length_toList] at hl
  unfold readLiteral
  split
  · next cs heq =>
    rw [heq, List.length_cons, List.length_cons] at hl
    split
    · exact .pure (constructed_bits (by omega))
    · exact .throw rfl
  · next cs heq =>
    rw [heq, List.length_cons, List.length_cons] at hl
    split
    · exact .pure (constructed_bits (by omega))
    · exact .throw rfl
  · split
    · split
      · exact .pure (.lit rfl (by simp))
      · exact .throw rfl
    · split
      · next hn => exact .pure (constructed_int (Text.readNumeral?_lt hn))
      · exact .throw rfl

theorem readSymbol_noFault {v : Vocabulary} (hv : v.Sized) (name : String) :
    NoFault Constructed (readSymbol v name) := by
  unfold readSymbol
  split_ifs
  · exact .pure (.lit rfl (by simp))
  · exact .pure (.lit rfl (by simp))
  · split
    · next hs => exact .pure (.var (hv.variableSorts _ _ hs))
    · split
      · next hr => exact Build.make_noFault (hv.constructor? hr) (by simp)
      · exact .throw rfl

theorem readBits_noFault (items : List SExpr) : NoFault Constructed (readBits items) := by
  unfold readBits
  split
  · split
    · split
      · exact (numeral_noFault _).bind fun w hw => .pure (constructed_bits hw.2)
      · exact .throw rfl
    · exact .throw rfl
  · exact .throw rfl

/-! ## Functions -/

theorem oneArgument_noFault (function : String) {es : List Formula}
    (h : ∀ e ∈ es, e.Constructed) :
    NoFault (fun a => es = [a] ∧ a.Constructed) (oneArgument function es) := by
  unfold oneArgument
  split
  · exact .pure ⟨rfl, List.forall_mem_singleton.mp h⟩
  · exact .throw rfl

theorem twoArguments_noFault (function : String) {es : List Formula}
    (h : ∀ e ∈ es, e.Constructed) :
    NoFault (fun p => es = [p.1, p.2] ∧ p.1.Constructed ∧ p.2.Constructed)
      (twoArguments function es) := by
  unfold twoArguments
  split
  · obtain ⟨ha, hb⟩ := List.forall_mem_cons.mp h
    exact .pure ⟨rfl, ha, List.forall_mem_singleton.mp hb⟩
  · exact .throw rfl

theorem negated_noFault {a : Formula} (h : a.Constructed) : NoFault Constructed (negated a) := by
  unfold negated
  split
  · next i =>
    have hbalanced := negate_balanced h.balanced
    exact .pure ⟨wellSorted_lit _, hbalanced⟩
  · exact .pure (.lit rfl (by simp))
  · exact Build.neg_noFault h

/-- Only the concatenation of two bit vectors can fault. -/
theorem apply_outcome {v : Vocabulary} (hv : v.Sized) {function : String} {es : List Formula}
    (hes : ∀ e ∈ es, e.Constructed) :
    OverflowsIf (function = "concat" ∧
      ∃ a b n, es = [a, b] ∧ b.sort = .ok (.bitVec n) ∧ a.Exceeds n)
      Constructed (apply v function es) := by
  have hone := oneArgument_noFault function hes
  have htwo := twoArguments_noFault function hes
  unfold apply
  split
  · exact .of_noFault (htwo.bind fun p hp => Build.bits_noFault hp.2.1 hp.2.2)
  split
  · exact .of_noFault (htwo.bind fun p hp => Build.compareBits_noFault hp.2.1 hp.2.2)
  split
  · exact .of_noFault (htwo.bind fun p hp => Build.compareArith_noFault hp.2.1 hp.2.2)
  split
  · exact .of_noFault (hone.bind fun a ha => Build.not_noFault ha.2)
  · exact .of_noFault (Build.and_noFault hes)
  · exact .of_noFault (Build.or_noFault hes)
  · exact .of_noFault (htwo.bind fun p hp => Build.eq_noFault hp.2.1 hp.2.2)
  · obtain ⟨hc, ha, hb⟩ : _ ∧ _ ∧ _ := by simpa using hes
    exact .of_noFault (Build.ite_noFault hc ha hb)
  · exact .throw (by simp [Error.isFault])
  · exact .of_noFault (negated_noFault (List.forall_mem_singleton.mp hes))
  · refine (OverflowsIf.of_noFault htwo).bind fun p hp =>
      (Build.concat_outcome hp.2.1 hp.2.2).because ?_
    rintro ⟨n, hn, hsum⟩
    exact ⟨rfl, p.1, p.2, n, hp.1, hn, hsum⟩
  · exact .of_noFault (hone.bind fun a ha => Build.bitsToInt_noFault ha.2)
  · exact .of_noFault (hone.bind fun a ha => Build.toReal_noFault ha.2)
  · exact .of_noFault (hone.bind fun a ha => Build.toInt_noFault ha.2)
  · refine .of_noFault ?_
    split
    · obtain ⟨ha, hrest⟩ := List.forall_mem_cons.mp hes
      exact .foldlM ha fun a ha b hb => Build.arith_noFault ha (hrest b hb)
    · exact .throw rfl
    · split
      · next hr => exact Build.make_noFault (hv.constructor? hr) hes
      · exact hone.bind fun a ha => Build.get_noFault ha.2
      · exact .throw rfl

/-- Only an extension of a bit vector can fault. -/
theorem applyIndexed_outcome {function : List SExpr} {es : List Formula}
    (hes : ∀ e ∈ es, e.Constructed) :
    OverflowsIf (∃ name k n a, function = [.symbol "_", .symbol name, .literal k] ∧
      (name = "zero_extend" ∨ name = "sign_extend") ∧ numeral k = .ok n ∧ es = [a] ∧ a.Exceeds n)
      Constructed (applyIndexed function es) := by
  rcases es with _ | ⟨a, _ | ⟨b, rest⟩⟩
  · unfold applyIndexed
    split <;> exact .throw_bind (by simp [Error.isFault])
  · have ha := List.forall_mem_singleton.mp hes
    unfold applyIndexed
    split
    · refine .of_noFault ((numeral_noFault _).bind fun high _ => ?_)
      exact (numeral_noFault _).bind fun low _ => Build.extract_noFault ha
    · next name k =>
      refine (OverflowsIf.of_noFault (numeral_noFault k)).bind fun n hn => ?_
      split
      · exact (Build.zeroExtend_outcome ha).because fun hsum =>
          ⟨_, k, n, a, rfl, .inl rfl, hn.1, rfl, hsum⟩
      · exact (Build.signExtend_outcome ha).because fun hsum =>
          ⟨_, k, n, a, rfl, .inr rfl, hn.1, rfl, hsum⟩
      · exact OverflowsIf.of_noFault (Build.intToBits_noFault hn.2 ha)
      · exact .throw (by simp [Error.isFault])
    · exact .throw (by simp [Error.isFault])
  · unfold applyIndexed
    split <;> exact .throw_bind (by simp [Error.isFault])

end PlayerPaths.SmtLib
