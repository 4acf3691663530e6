import PlayerPaths.Proofs.SmtLib.Applications

/-!
# Reading ends, and where it faults

Every text of a possible length is read as a script or refused with an error, and the one fault that
reading can end in is an overflow in the sum of two widths (`readScript_fault_iff`). The terms where
it happens are told apart by `Overflowing`, and the texts by `Overflows`.
-/

namespace PlayerPaths.SmtLib

open Formula

/-! ## Terms -/

/-- What can stand in front of arguments: a name, or a function with indices. -/
def SExpr.isFunction : SExpr → Bool
  | .symbol name => name != "_"
  | .list _ => true
  | _ => false

/-- Expressions whose reading adds two widths beyond the range of sizes: a concatenation or an
extension whose operands are read to bit vectors that wide, or an application with such an argument
behind arguments that are read. -/
inductive Overflowing (v : Vocabulary) : SExpr → Prop
  | concat {x y : SExpr} {a b : Formula} {n : Nat} :
      readTerm v x = .ok a → readTerm v y = .ok b → b.sort = .ok (.bitVec n) → a.Exceeds n →
      Overflowing v (.list [.symbol "concat", x, y])
  | extend {name k : String} {n : Nat} {x : SExpr} {a : Formula} :
      name = "zero_extend" ∨ name = "sign_extend" → numeral k = .ok n → readTerm v x = .ok a →
      a.Exceeds n → Overflowing v (.list [.list [.symbol "_", .symbol name, .literal k], x])
  | argument {function x : SExpr} {before after : List SExpr} {es : List Formula} :
      function.isFunction = true → before.mapM (readTerm v) = .ok es → Overflowing v x →
      Overflowing v (.list (function :: (before ++ x :: after)))

variable {v : Vocabulary}

theorem readTerms_outcome {xs : List SExpr}
    (h : ∀ x ∈ xs, OverflowsIf (Overflowing v x) Constructed (readTerm v x)) :
    OverflowsIf (∃ before x after es, xs = before ++ x :: after ∧
      before.mapM (readTerm v) = .ok es ∧ Overflowing v x)
      (fun es => xs.mapM (readTerm v) = .ok es ∧ ∀ e ∈ es, e.Constructed) (readTerms v xs) := by
  rw [readTerms_eq]
  cases hxs : xs.mapM (readTerm v) with
  | ok es =>
      refine ⟨rfl, fun e he => ?_⟩
      obtain ⟨x, hx, hread⟩ := mem_of_mapM_eq_ok hxs he
      exact (h x hx).value hread
  | error err =>
      intro hfault
      obtain ⟨before, x, after, es, rfl, hbefore, hx⟩ := mapM_eq_error.mp hxs
      obtain ⟨hoverflow, hoverflowing⟩ := (h x (by simp)).error hx hfault
      exact ⟨hoverflow, before, x, after, es, rfl, hbefore, hoverflowing⟩

/-- Every expression whose literals are not too long is read as a constructed formula, refused
without a fault, or overflows for a reason. -/
theorem readTerm_outcome (hv : v.Sized) {n : Nat} (hn : 4 * n < Word.limit) {x : SExpr}
    (hx : x.Within n) : OverflowsIf (Overflowing v x) Constructed (readTerm v x) := by
  induction x with
  | str s => exact .pure (.lit rfl (by simp))
  | literal l =>
      have hl : l.length ≤ n := hx
      exact .of_noFault (readLiteral_noFault (by omega))
  | symbol name => exact .of_noFault (readSymbol_noFault hv name)
  | list items ih =>
      replace ih := fun x hmem => ih x hmem (SExpr.within_list.mp hx x hmem)
      clear hx
      rw [readTerm]
      unfold readApplication
      split
      · exact .throw (by simp [Error.isFault])
      · next function rest =>
        have hrest := readTerms_outcome fun x hmem => ih x (List.mem_cons_of_mem _ hmem)
        refine (hrest.because ?_).bind fun es hes => (applyIndexed_outcome hes.2).because ?_
        · rintro ⟨before, x, after, es, rfl, hbefore, hoverflowing⟩
          exact .argument rfl hbefore hoverflowing
        · rintro ⟨name, k, n, a, rfl, hname, hk, rfl, hsum⟩
          obtain ⟨x, hread, rfl⟩ : ∃ x, readTerm v x = .ok a ∧ rest = [x] := by
            simpa [List.forall₂_cons_right_iff] using mapM_eq_ok.mp hes.1
          exact .extend hname hk hread hsum
      · exact .of_noFault (readBits_noFault _)
      · next function rest hmark =>
        have hrest := readTerms_outcome fun x hmem => ih x (List.mem_cons_of_mem _ hmem)
        refine (hrest.because ?_).bind fun es hes => (apply_outcome hv hes.2).because ?_
        · rintro ⟨before, x, after, es, rfl, hbefore, hoverflowing⟩
          exact .argument (by simpa [SExpr.isFunction] using hmark) hbefore hoverflowing
        · rintro ⟨rfl, a, b, n, rfl, hb, hsum⟩
          obtain ⟨x, hx, y, hy, rfl⟩ : ∃ x, readTerm v x = .ok a ∧ ∃ y, readTerm v y = .ok b ∧
              rest = [x, y] := by simpa [List.forall₂_cons_right_iff] using mapM_eq_ok.mp hes.1
          exact .concat hx hy hb hsum
      · exact .throw (by simp [Error.isFault])

/-- What overflows does so whatever the vocabulary and the length of the literals. -/
theorem Overflowing.readTerm_eq {x : SExpr} (h : Overflowing v x) :
    readTerm v x = .error (.fault .overflow) := by
  induction h with
  | @concat x y a b n hx hy hb hsum =>
      have hread : readTerms v [x, y] = .ok [a, b] := by simp [readTerms, hx, hy]
      rw [readTerm_apply (by decide) hread]
      exact Build.concat_overflow hb hsum
  | @extend name k n x a hname hk hx hsum =>
      have hread : readTerms v [x] = .ok [a] := by simp [readTerms, hx]
      rw [readTerm_indexed hread]
      have hextend := Build.requireExtensible_overflow hsum
      rcases hname with rfl | rfl
      · show (numeral k >>= fun n => Build.zeroExtend n a) = _
        rw [hk]
        show (Build.requireExtensible n a >>= _) = _
        rw [hextend]
        rfl
      · show (numeral k >>= fun n => Build.signExtend n a) = _
        rw [hk]
        show (Build.requireExtensible n a >>= _) = _
        rw [hextend]
        rfl
  | @argument function x before after es hfunction hbefore _ ih =>
      have hread : readTerms v (before ++ x :: after) = .error (.fault .overflow) := by
        rw [readTerms_eq]
        exact mapM_eq_error.mpr ⟨before, x, after, es, rfl, hbefore, ih⟩
      cases function with
      | symbol name =>
          rw [readTerm_symbol (by simpa [SExpr.isFunction] using hfunction), hread]
          rfl
      | list items =>
          rw [readTerm_list, hread]
          rfl
      | literal l => cases hfunction
      | str s => cases hfunction

/-! ## Scripts -/

theorem readField_noFault (hv : v.Sized) (name : String) (x : SExpr) :
    NoFault (fun f => f.2.isSized = true) (readField v name x) := by
  unfold readField
  split
  · exact (readSort_noFault hv _).bind fun s hs => .pure hs
  · exact .throw rfl

theorem readRecord_noFault (hv : v.Sized) (name body : SExpr) :
    NoFault (fun r => r.sort.isSized = true) (readRecord v name body) := by
  unfold readRecord
  split
  · split
    · refine (Meets.mapM fun x _ => readField_noFault hv _ x).bind fun fields hfields => ?_
      exact .pure (SmtSort.isSized_record.mpr hfields)
    · exact rfl
  · split <;> exact rfl

/-- A script whose declarations are of sizes and whose assertions are constructed. -/
structure Script.Formed (s : Script) : Prop where
  vocabulary : s.vocabulary.Sized
  assertions : ∀ e ∈ s.assertions, e.Constructed

namespace Script

variable {s : Script}

theorem formed_empty : Formed {} where
  vocabulary := ⟨by simp, by simp⟩
  assertions := by simp

theorem declareRecords_noFault (hs : s.Formed) (command : List SExpr) :
    NoFault Formed (s.declareRecords command) := by
  unfold declareRecords
  split
  · split
    · refine Meets.foldlM hs fun s hs p _ => ?_
      refine (readRecord_noFault hs.vocabulary p.1 p.2).bind fun r hr => .pure ?_
      exact ⟨hs.vocabulary.addRecord hr, hs.assertions⟩
    · exact rfl
  · split <;> exact rfl

theorem declareVariable_noFault (hs : s.Formed) (name : String) (sort : Option SExpr) :
    NoFault Formed (s.declareVariable name sort) := by
  unfold declareVariable
  split
  · refine (readSort_noFault hs.vocabulary _).bind fun t ht => .pure ?_
    exact ⟨hs.vocabulary.addVariable ht, hs.assertions⟩
  · exact .throw rfl

theorem declaredName_noFault (command : List SExpr) :
    NoFault (fun _ => True) (declaredName command) := by
  unfold declaredName
  split
  · exact .pure trivial
  · exact .throw rfl

/-- A command with a name and an argument. -/
theorem exists_eq_cons_cons {command : List SExpr} {name : String} {x : SExpr}
    (hname : command.head?.bind SExpr.symbol? = some name) (hx : command[1]? = some x) :
    ∃ rest, command = .symbol name :: x :: rest := by
  rcases command with _ | ⟨head, _ | ⟨y, rest⟩⟩
  · cases hx
  · cases hx
  · obtain rfl := Option.some.inj hx
    cases head with
    | symbol head =>
        obtain rfl := Option.some.inj hname
        exact ⟨rest, rfl⟩
    | _ => cases hname

/-- One command keeps the declarations and the assertions in order, and only an assertion
overflows. -/
theorem run_outcome (hs : s.Formed) {n : Nat} (hn : 4 * n < Word.limit) {command : List SExpr}
    (hcommand : ∀ x ∈ command, x.Within n) :
    OverflowsIf (∃ x rest, command = .symbol "assert" :: x :: rest ∧ Overflowing s.vocabulary x)
      Formed (s.run command) := by
  unfold run
  split
  · exact .of_noFault (declareRecords_noFault hs command)
  · refine .of_noFault ((declaredName_noFault command).bind fun name _ => ?_)
    split
    · exact declareVariable_noFault hs name _
    · exact .throw rfl
  · exact .of_noFault ((declaredName_noFault command).bind fun name _ =>
      declareVariable_noFault hs name _)
  · next hhead =>
    split
    · next x hx =>
      have hread := readTerm_outcome hs.vocabulary hn (hcommand x (List.mem_of_getElem? hx))
      refine (hread.because fun hoverflowing => ?_).bind fun e he => .pure ?_
      · obtain ⟨rest, rfl⟩ := exists_eq_cons_cons hhead hx
        exact ⟨x, rest, rfl, hoverflowing⟩
      · refine ⟨hs.vocabulary, fun a ha => ?_⟩
        rcases List.mem_append.mp ha with ha | ha
        · exact hs.assertions a ha
        · obtain rfl := List.mem_singleton.mp ha
          exact he
    · exact .throw (by simp [Error.isFault])
  · exact .pure hs

/-- What is read of a script one command after another. -/
def readCommand (s : Script) : SExpr → Result Script
  | .list command => s.run command
  | x => throw (.parse ("expected a command, found " ++ x.text))

theorem readCommand_outcome (hs : s.Formed) {n : Nat} (hn : 4 * n < Word.limit) {x : SExpr}
    (hx : x.Within n) :
    OverflowsIf (∃ y rest, x = .list (.symbol "assert" :: y :: rest) ∧ Overflowing s.vocabulary y)
      Formed (s.readCommand x) := by
  cases x with
  | list command =>
      refine (run_outcome hs hn (SExpr.within_list.mp hx)).because ?_
      rintro ⟨y, rest, rfl, hy⟩
      exact ⟨y, rest, rfl, hy⟩
  | _ => exact .throw (by simp [Error.isFault])

/-- An assertion of an overflowing term overflows. -/
theorem readCommand_overflow {y : SExpr} {rest : List SExpr}
    (hy : Overflowing s.vocabulary y) :
    s.readCommand (.list (.symbol "assert" :: y :: rest)) = .error (.fault .overflow) := by
  show (readTerm s.vocabulary y >>= _) = _
  rw [hy.readTerm_eq]
  rfl

end Script

theorem readScript_eq_foldlM (text : String) :
    readScript text = expressions text >>= fun xs => xs.foldlM Script.readCommand {} := rfl

/-- A text that is computed to be read as a script with a property. -/
theorem exists_readScript (text : String) (P : Script → Prop) [DecidablePred P]
    (h : ((readScript text).toOption.any fun s => decide (P s)) = true) :
    ∃ s, readScript text = .ok s ∧ P s := by
  cases hread : readScript text with
  | error err => simp [hread, Except.toOption] at h
  | ok s =>
      rw [hread] at h
      exact ⟨s, rfl, of_decide_eq_true h⟩

/-- A text that asserts an overflowing term behind commands that are read. -/
def Overflows (text : String) : Prop :=
  ∃ before x rest after s, expressions text =
      .ok (before ++ .list (.symbol "assert" :: x :: rest) :: after) ∧
    before.foldlM Script.readCommand {} = .ok s ∧ Overflowing s.vocabulary x

theorem formed_of_foldlM {n : Nat} (hn : 4 * n < Word.limit) {xs : List SExpr} {s : Script}
    (hxs : ∀ x ∈ xs, x.Within n) (h : xs.foldlM Script.readCommand {} = .ok s) : s.Formed :=
  foldlM_induction (P := Script.Formed)
    (fun _ x hx hs _ hread => (Script.readCommand_outcome hs hn (hxs x hx)).value hread)
    Script.formed_empty h

/-- What is read of a script is formed, and what overflows is a term that it asserts. -/
theorem readScript_outcome {text : String} (h : 4 * text.length < Word.limit) :
    OverflowsIf (Overflows text) Script.Formed (readScript text) := by
  have hexpressions := expressions_within text
  rw [readScript_eq_foldlM]
  cases hxs : expressions text with
  | error err =>
      have herr := hexpressions.error hxs
      exact fun hfault => absurd hfault (by simp [herr])
  | ok xs =>
      have hwithin := hexpressions.value hxs
      show OverflowsIf _ _ (xs.foldlM Script.readCommand {})
      cases hread : xs.foldlM Script.readCommand {} with
      | ok s => exact formed_of_foldlM h hwithin hread
      | error err =>
          intro hfault
          obtain ⟨before, x, after, s, rfl, hbefore, hx⟩ := foldlM_eq_error.mp hread
          have hs : s.Formed := formed_of_foldlM h
            (fun y hy => hwithin y (List.mem_append_left _ hy)) hbefore
          obtain ⟨rfl, y, rest, rfl, hy⟩ :=
            (Script.readCommand_outcome hs h (hwithin x (by simp))).error hx hfault
          exact ⟨rfl, before, y, rest, after, s, hxs, hbefore, hy⟩

theorem Overflows.readScript_eq {text : String} (h : Overflows text) :
    readScript text = .error (.fault .overflow) := by
  obtain ⟨before, x, rest, after, s, hxs, hbefore, hx⟩ := h
  rw [readScript_eq_foldlM, hxs]
  exact foldlM_eq_error.mpr ⟨before, _, after, s, rfl, hbefore, Script.readCommand_overflow hx⟩

/-- **Reading ends in a script, in an error or in an overflow**, and it overflows exactly where an
asserted term adds two widths beyond the range of sizes. What is read is well sorted, and its
literals and widths fit machine words. -/
theorem readScript_fault_iff {text : String} (h : 4 * text.length < Word.limit) :
    (∀ s, readScript text = .ok s → s.Formed) ∧
      ∀ reason, readScript text = .error (.fault reason) ↔ reason = .overflow ∧ Overflows text := by
  refine ⟨fun s hs => (readScript_outcome h).value hs, fun reason => ⟨fun hread => ?_, ?_⟩⟩
  · obtain ⟨heq, hoverflows⟩ := (readScript_outcome h).error hread rfl
    exact ⟨Error.fault.inj heq, hoverflows⟩
  · rintro ⟨rfl, hoverflows⟩
    exact hoverflows.readScript_eq

/-- A variable of eight bits is extended by the largest size. -/
def extendedScript : String :=
  "(declare-const x (_ BitVec 8)) (assert (= ((_ zero_extend 18446744073709551615) x) x))"

theorem extendedScript_fault_iff : 4 * extendedScript.length < Word.limit ∧
    (∀ s, readScript extendedScript = .ok s → s.Formed) ∧
      ∀ reason, readScript extendedScript = .error (.fault reason) ↔
        reason = .overflow ∧ Overflows extendedScript := by
  have hlength : 4 * extendedScript.length < Word.limit := by decide +kernel
  exact ⟨hlength, readScript_fault_iff hlength⟩

/-- The width is not refused as one beyond 64 bits: the sum overflows before it is compared. -/
theorem extension_overflows : readScript extendedScript = .error (.fault .overflow) := by
  have hread : (fun _ => ()) <$> readScript extendedScript = .error (.fault .overflow) := by
    decide +kernel
  exact map_eq_error.mp hread

end PlayerPaths.SmtLib
