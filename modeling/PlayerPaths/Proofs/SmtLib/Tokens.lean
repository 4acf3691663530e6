import Mathlib.Data.List.Forall2
import PlayerPaths.Proofs.Number.Numerals
import PlayerPaths.SmtLib.Printer
import PlayerPaths.SmtLib.SExpr

/-!
# Texts and the expressions that they spell

A text *spells* an expression when the automaton cuts it into the tokens of the expression,
whatever stands behind it: the end, a blank, or the end of a list (`Writes`). Every piece that the
printer writes spells something, and so do lists of such pieces, so a script of them is read as the
list of their expressions (`expressions_script`).
-/

namespace PlayerPaths.SmtLib

/-! ## Expressions from tokens -/

/-- Induction over expressions. -/
@[elab_as_elim, induction_eliminator]
theorem SExpr.ind {motive : SExpr → Prop} (symbol : ∀ name, motive (.symbol name))
    (literal : ∀ l, motive (.literal l)) (str : ∀ s, motive (.str s))
    (list : ∀ items, (∀ e ∈ items, motive e) → motive (.list items)) (e : SExpr) : motive e :=
  @SExpr.rec motive (fun items => ∀ e ∈ items, motive e) symbol literal str list
    (by simp) (fun _ _ he hes => List.forall_mem_cons.mpr ⟨he, hes⟩) e

mutual

def SExpr.tokens : SExpr → List Token
  | .symbol name => [.leaf (.symbol name)]
  | .literal l => [.leaf (.literal l)]
  | .str s => [.leaf (.str s)]
  | .list items => .opening :: (SExpr.tokensAll items ++ [.closing])

def SExpr.tokensAll : List SExpr → List Token
  | [] => []
  | e :: es => e.tokens ++ SExpr.tokensAll es

end

section

variable {stack : List (List SExpr)} {items : List SExpr} {ts : List Token}

theorem assemble_leaf (e : SExpr) :
    assemble stack items (.leaf e :: ts) = assemble stack (e :: items) ts := by
  cases stack <;> rfl

theorem assemble_opening :
    assemble stack items (.opening :: ts) = assemble (items :: stack) [] ts := by
  cases stack <;> rfl

theorem assemble_tokens_of_forall {es : List SExpr}
    (h : ∀ e ∈ es, ∀ stack items ts,
      assemble stack items (e.tokens ++ ts) = assemble stack (e :: items) ts) :
    assemble stack items (SExpr.tokensAll es ++ ts) =
      assemble stack (es.reverse ++ items) ts := by
  induction es generalizing items with
  | nil => rfl
  | cons e es ih =>
      obtain ⟨he, hes⟩ := List.forall_mem_cons.mp h
      rw [SExpr.tokensAll, List.append_assoc, he, ih hes]
      simp

/-- The tokens of an expression are put together to the expression. -/
theorem assemble_tokens (e : SExpr) (stack : List (List SExpr)) (items : List SExpr)
    (ts : List Token) :
    assemble stack items (e.tokens ++ ts) = assemble stack (e :: items) ts := by
  induction e generalizing stack items ts with
  | symbol name => exact assemble_leaf _
  | literal l => exact assemble_leaf _
  | str s => exact assemble_leaf _
  | list es ih =>
      rw [SExpr.tokens, List.cons_append, assemble_opening, List.append_assoc,
        assemble_tokens_of_forall ih]
      simp [assemble]

theorem assemble_tokensAll (es : List SExpr) :
    assemble [] [] (SExpr.tokensAll es) = .ok es := by
  have h : assemble [] [] (SExpr.tokensAll es ++ []) = assemble [] (es.reverse ++ []) [] :=
    assemble_tokens_of_forall fun e _ => assemble_tokens e
  rw [List.append_nil, List.append_nil] at h
  rw [h, assemble, List.reverse_reverse]
  rfl

end

/-! ## One piece of text -/

/-- What stands behind a piece of text ends it: the end, a blank, or the end of a list. -/
def Delimited (rest : List Char) : Prop := ∀ c ∈ rest.head?, Text.isBlank c = true ∨ c = ')'

theorem delimited_blank {c : Char} (h : Text.isBlank c = true) (rest : List Char) :
    Delimited (c :: rest) := by
  simp [Delimited, h]

theorem delimited_closing (rest : List Char) : Delimited (')' :: rest) := by simp [Delimited]

theorem Delimited.endsAtom {c : Char} {rest : List Char} (h : Delimited (c :: rest)) :
    Mode.endsAtom c = true := by
  rcases h c rfl with h | rfl
  · simp [Mode.endsAtom, h]
  · decide

theorem Delimited.ne_quote {c : Char} {rest : List Char} (h : Delimited (c :: rest)) :
    c ≠ '"' := by
  rintro rfl
  rcases h _ rfl with h | h
  · exact absurd h (by decide)
  · exact absurd h (by decide)

/-- A text that is cut into the tokens of an expression. -/
def Writes (text : String) (e : SExpr) : Prop :=
  ∀ rest, Delimited rest → tokens .between (text.toList ++ rest) = e.tokens ++ tokens .between rest

theorem tokens_blank {c : Char} (h : Text.isBlank c = true) (cs : List Char) :
    tokens .between (c :: cs) = tokens .between cs := by
  have hne : ∀ d, Text.isBlank d = false → (c == d) = false := by
    intro d hd
    rw [beq_eq_false_iff_ne]
    rintro rfl
    simp [h] at hd
  have hstart : Mode.start c = ([], .between) := by
    simp only [Mode.start, hne ';' (by decide), hne '(' (by decide), hne ')' (by decide),
      hne '|' (by decide), hne '"' (by decide), h]
    rfl
  simp [tokens, Mode.step, hstart]

theorem start_of_not_endsAtom {c : Char} (h : Mode.endsAtom c = false) :
    Mode.start c = ([], .atom [c]) := by
  obtain ⟨hblank, hne⟩ : Text.isBlank c = false ∧ ¬ c ∈ "()|\";".toList := by
    simpa [Mode.endsAtom] using h
  have hne : ∀ d ∈ "()|\";".toList, (c == d) = false := by
    intro d hd
    rw [beq_eq_false_iff_ne]
    rintro rfl
    exact hne hd
  simp only [Mode.start, hne ';' (by decide), hne '(' (by decide), hne ')' (by decide),
    hne '|' (by decide), hne '"' (by decide), hblank]
  rfl

theorem tokens_atom {chars cs rest : List Char} (h : ∀ c ∈ cs, Mode.endsAtom c = false)
    (hrest : Delimited rest) :
    tokens (.atom chars) (cs ++ rest) =
      Mode.atomToken (cs.reverse ++ chars) :: tokens .between rest := by
  induction cs generalizing chars with
  | nil =>
      cases rest with
      | nil => rfl
      | cons c rest => simp [tokens, Mode.step, hrest.endsAtom]
  | cons c cs ih =>
      obtain ⟨hc, hcs⟩ := List.forall_mem_cons.mp h
      have hstep : Mode.step (.atom chars) c = ([], .atom (c :: chars)) := by simp [Mode.step, hc]
      rw [List.cons_append, tokens, hstep, ih hcs]
      simp

/-- A text without separators is one token. -/
theorem tokens_word {text : String} {c : Char} {cs rest : List Char} (htext : text.toList = c :: cs)
    (h : ∀ d ∈ text.toList, Mode.endsAtom d = false) (hrest : Delimited rest) :
    tokens .between (text.toList ++ rest) =
      (if c == '#' || c.isDigit then .leaf (.literal text) else .leaf (.symbol text)) ::
        tokens .between rest := by
  rw [htext] at h ⊢
  obtain ⟨hc, hcs⟩ := List.forall_mem_cons.mp h
  have hstep : Mode.step .between c = ([], .atom [c]) := start_of_not_endsAtom hc
  have hword : String.ofList (c :: cs) = text := by rw [← htext, String.ofList_toList]
  rw [List.cons_append, tokens, hstep, tokens_atom hcs hrest]
  simp [Mode.atomToken, hword, htext]

theorem writes_symbolWord {text : String} {c : Char} {cs : List Char} (htext : text.toList = c :: cs)
    (hc : c ≠ '#' ∧ c.isDigit = false) (h : ∀ d ∈ text.toList, Mode.endsAtom d = false) :
    Writes text (.symbol text) := by
  intro rest hrest
  rw [tokens_word htext h hrest]
  simp [hc, SExpr.tokens]

theorem writes_literal {text : String} {c : Char} {cs : List Char} (htext : text.toList = c :: cs)
    (hc : c.isDigit = true) (h : ∀ d ∈ text.toList, Mode.endsAtom d = false) :
    Writes text (.literal text) := by
  intro rest hrest
  rw [tokens_word htext h hrest]
  simp [hc, SExpr.tokens]

/-- Letters and digits are no blanks. -/
theorem not_isBlank_of_isAlphanum {c : Char} (h : c.isAlphanum = true) :
    Text.isBlank c = false := by
  have hrange : (65 ≤ c.toNat ∧ c.toNat ≤ 90) ∨ (97 ≤ c.toNat ∧ c.toNat ≤ 122) ∨
      (48 ≤ c.toNat ∧ c.toNat ≤ 57) := by
    delta Char.isAlphanum Char.isAlpha Char.isUpper Char.isLower Char.isDigit at h
    simp only [Bool.or_eq_true, Bool.and_eq_true, decide_eq_true_eq, ge_iff_le,
      UInt32.le_iff_toNat_le, or_assoc] at h
    exact h
  simp only [Text.isBlank, Text.inRanges, List.any_cons, List.any_nil, Bool.or_false,
    Bool.or_eq_false_iff, Bool.and_eq_false_iff, decide_eq_false_iff_not]
  omega

theorem endsAtom_of_isAlphanum {c : Char} (h : c.isAlphanum = true) :
    Mode.endsAtom c = false := by
  have hmem : c ∉ "()|\";".toList := by
    intro hmem
    have hall : ("()|\";".toList.all fun d => !d.isAlphanum) = true := by decide
    simpa [h] using List.all_eq_true.mp hall c hmem
  simpa [Mode.endsAtom, not_isBlank_of_isAlphanum h] using hmem

theorem endsAtom_of_isSimpleChar {c : Char} (h : isSimpleChar c = true) :
    Mode.endsAtom c = false := by
  rcases Bool.or_eq_true_iff.mp h with h | h
  · exact endsAtom_of_isAlphanum h
  · have hall : ("~!@$%^&*_-+=<>.?/".toList.all fun d => !Mode.endsAtom d) = true := by decide
    simpa using List.all_eq_true.mp hall c (List.contains_iff_mem.mp h)

/-- A simple symbol spells itself. -/
theorem writes_simple {name : String} (h : isSimple name = true) :
    Writes name (.symbol name) := by
  unfold isSimple at h
  split at h
  · simp at h
  · next c cs htext =>
    obtain ⟨hdigit, hall⟩ : c.isDigit = false ∧ ∀ d ∈ c :: cs, isSimpleChar d = true := by
      simpa using h
    refine writes_symbolWord htext ⟨?_, hdigit⟩ fun d hd =>
      endsAtom_of_isSimpleChar (hall d (htext ▸ hd))
    rintro rfl
    exact absurd (hall _ List.mem_cons_self) (by decide)

theorem tokens_quotedSymbol {chars cs rest : List Char} (h : '|' ∉ cs) :
    tokens (.quotedSymbol chars) (cs ++ '|' :: rest) =
      .leaf (.symbol (String.ofList (cs.reverse ++ chars).reverse)) :: tokens .between rest := by
  induction cs generalizing chars with
  | nil => simp [tokens, Mode.step]
  | cons c cs ih =>
      obtain ⟨hc, hcs⟩ : '|' ≠ c ∧ '|' ∉ cs := by simpa using h
      have hstep : Mode.step (.quotedSymbol chars) c = ([], .quotedSymbol (c :: chars)) := by
        simp [Mode.step, Ne.symm hc]
      rw [List.cons_append, tokens, hstep, ih hcs]
      simp

/-- A symbol spells its name, with or without bars. -/
theorem writes_symbol {name : String} (h : '|' ∉ name.toList) :
    Writes (symbol name) (.symbol name) := by
  unfold symbol
  split
  · next hsimple => exact writes_simple hsimple
  · intro rest hrest
    have hstep : Mode.step .between '|' = ([], .quotedSymbol []) := rfl
    have hchars : ("|" ++ name ++ "|").toList ++ rest = '|' :: (name.toList ++ '|' :: rest) := by
      simp
    rw [hchars, tokens, hstep, tokens_quotedSymbol h]
    simp [SExpr.tokens]

theorem tokens_string {chars cs rest : List Char} (hrest : Delimited rest) :
    tokens (.string chars) (cs.flatMap stringChar ++ '"' :: rest) =
      .leaf (.str (String.ofList (cs.reverse ++ chars).reverse)) :: tokens .between rest := by
  induction cs generalizing chars with
  | nil =>
      cases rest with
      | nil => rfl
      | cons c rest => simp [tokens, Mode.step, hrest.ne_quote]
  | cons c cs ih =>
      by_cases hc : c = '"'
      · subst hc
        simp only [List.flatMap_cons, stringChar, beq_self_eq_true, if_true, List.cons_append,
          List.nil_append, tokens, Mode.step, ih]
        simp
      · simp only [List.flatMap_cons, stringChar, beq_iff_eq, hc, if_false, List.cons_append,
          List.nil_append, tokens, Mode.step, ih]
        simp

theorem writes_string (s : String) : Writes (stringText s) (.str s) := by
  intro rest hrest
  have hstep : Mode.step .between '"' = ([], .string []) := rfl
  have hchars : (stringText s).toList ++ rest =
      '"' :: (s.toList.flatMap stringChar ++ '"' :: rest) := by
    simp [stringText]
  rw [hchars, tokens, hstep, tokens_string hrest]
  simp [SExpr.tokens]

/-! ## Lists -/

/-- Pieces with a blank between them. -/
theorem tokens_pieces {blank : String} {c : Char} (hblank : blank.toList = [c])
    (hc : Text.isBlank c = true) {texts : List String} {es : List SExpr}
    (h : List.Forall₂ Writes texts es) {rest : List Char} (hrest : Delimited rest) :
    tokens .between ((blank.intercalate texts).toList ++ rest) =
      SExpr.tokensAll es ++ tokens .between rest := by
  induction h with
  | nil => simp [SExpr.tokensAll]
  | @cons text e texts es he hes ih =>
      cases hes with
      | nil =>
          rw [String.intercalate_singleton, he rest hrest]
          simp [SExpr.tokensAll]
      | @cons text' e' texts es he' hes =>
          -- The first piece is delimited by the blank in front of the second one.
          rw [String.intercalate_cons_cons]
          simp only [String.toList_append, hblank, List.append_assoc, List.cons_append,
            List.nil_append]
          rw [he _ (delimited_blank hc _), tokens_blank hc, ih, ← List.append_assoc]
          rfl

theorem writes_list {texts : List String} {es : List SExpr} (h : List.Forall₂ Writes texts es) :
    Writes ("(" ++ " ".intercalate texts ++ ")") (.list es) := by
  intro rest _
  have hchars : ("(" ++ " ".intercalate texts ++ ")").toList ++ rest =
      '(' :: ((" ".intercalate texts).toList ++ ')' :: rest) := by
    simp
  rw [hchars]
  show .opening :: tokens .between _ = _
  rw [tokens_pieces rfl (by decide) h (delimited_closing rest)]
  simp [SExpr.tokens, tokens, Mode.step, Mode.start]

theorem writes_application {function : String} {arguments : List String} {e : SExpr}
    {es : List SExpr} (hf : Writes function e) (h : List.Forall₂ Writes arguments es) :
    Writes (application function arguments) (.list (e :: es)) :=
  writes_list (.cons hf h)

/-- A script of one line per expression is read as the expressions. -/
theorem expressions_script {lines : List String} {es : List SExpr}
    (h : List.Forall₂ Writes lines es) : expressions ("\n".intercalate lines ++ "\n") = .ok es := by
  have hblank : Text.isBlank '\n' = true := by decide
  have htokens : tokens .between ("\n".intercalate lines ++ "\n").toList = SExpr.tokensAll es := by
    have hend : tokens .between (("\n".intercalate lines).toList ++ ['\n']) =
        SExpr.tokensAll es ++ tokens .between ['\n'] :=
      tokens_pieces rfl hblank h (delimited_blank hblank [])
    rw [tokens_blank hblank] at hend
    rw [String.toList_append]
    simpa [tokens, Mode.finish] using hend
  rw [expressions, htokens, assemble_tokensAll]

/-! ## Numerals -/

theorem writes_numeral (n : Nat) : Writes (toString n) (.literal (toString n)) := by
  obtain ⟨c, cs, htext⟩ : ∃ c cs, (toString n).toList = c :: cs := by
    rw [Text.toList_toString]
    exact List.exists_cons_of_ne_nil Nat.toDigits_ne_nil
  have hdigit : ∀ d ∈ (toString n).toList, d.isDigit = true := fun d =>
    Text.isDigit_of_mem_toString
  refine writes_literal htext (hdigit c (htext ▸ List.mem_cons_self)) fun d hd => ?_
  exact endsAtom_of_isAlphanum (by simp [Char.isAlphanum, hdigit d hd])

end PlayerPaths.SmtLib
