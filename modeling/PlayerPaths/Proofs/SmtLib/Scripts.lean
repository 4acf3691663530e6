import PlayerPaths.Proofs.Formula.NormalForm
import PlayerPaths.Proofs.SmtLib.Declarations
import PlayerPaths.Proofs.SmtLib.Reread

/-!
# Scripts that are read back

A script is a line for every record, variable and assertion, each of which spells a command. Read
in turn, the commands tell a vocabulary about the records and the variables, and the assertions are
read with all of them known (`readScript_script`).
-/

namespace PlayerPaths

open Std SmtLib Formula

/-! ## Commands -/

def fieldSexpr (r : Record) (f : String × SmtSort) : SExpr :=
  .list [.symbol (r.accessorName f.1), f.2.sexpr]

def recordCommand (r : Record) : List SExpr :=
  [.symbol "declare-datatypes", .list [.list [.symbol r.name, .literal "0"]],
    .list [.list [.list (.symbol r.constructorName :: r.fields.map (fieldSexpr r))]]]

def variableCommand (x : String × SmtSort) : List SExpr :=
  [.symbol "declare-fun", .symbol x.1, .list [], x.2.sexpr]

def assertCommand (e : Formula) : List SExpr := [.symbol "assert", e.sexpr]

theorem field_writes {r : Record} (h : r.BarFree) {f : String × SmtSort} (hf : f ∈ r.fields)
    (hsort : ∀ r', f.2.record? = some r' → barFree r'.name) :
    Writes ("(" ++ symbol (r.accessorName f.1) ++ " " ++ f.2.smt ++ ")") (fieldSexpr r f) := by
  have htext : "(" ++ symbol (r.accessorName f.1) ++ " " ++ f.2.smt ++ ")" =
      application (symbol (r.accessorName f.1)) [f.2.smt] := by
    simp [application, String.intercalate_cons_cons, String.append_assoc]
  rw [htext]
  exact writes_application (writes_symbol (h.accessorName hf))
    (.cons (SmtSort.smt_writes hsort) .nil)

/-- A declaration with one name and one constructor. -/
theorem declaration_writes {name constructor : String} {n c : SExpr} (hn : Writes name n)
    (hc : Writes constructor c) :
    Writes ("(declare-datatypes ((" ++ name ++ " 0)) ((" ++ constructor ++ ")))")
      (.list [.symbol "declare-datatypes", .list [.list [n, .literal "0"]],
        .list [.list [c]]]) := by
  have hkeyword : Writes "declare-datatypes" (.symbol "declare-datatypes") :=
    writes_simple (by decide)
  have hzero : Writes "0" (.literal "0") := writes_numeral 0
  have hsorts := writes_list (.cons (writes_list (.cons hn (.cons hzero .nil))) .nil)
  have hconstructors := writes_list (.cons (writes_list (.cons hc .nil)) .nil)
  have hcommand := writes_list (.cons hkeyword (.cons hsorts (.cons hconstructors .nil)))
  have htext : "(declare-datatypes ((" ++ name ++ " 0)) ((" ++ constructor ++ ")))" =
      "(" ++ " ".intercalate ["declare-datatypes",
        "(" ++ " ".intercalate ["(" ++ " ".intercalate [name, "0"] ++ ")"] ++ ")",
        "(" ++ " ".intercalate ["(" ++ " ".intercalate [constructor] ++ ")"] ++ ")"] ++ ")" := by
    apply String.toList_inj.mp
    simp [String.intercalate_cons_cons]
  rw [htext]
  exact hcommand

theorem declareRecord_writes {r : Record} (h : r.BarFree)
    (hfields : ∀ f ∈ r.fields, ∀ r', f.2.record? = some r' → barFree r'.name) :
    Writes (declareRecord r) (.list (recordCommand r)) := by
  have hfield : List.Forall₂ Writes
      (r.fields.map fun f => "(" ++ symbol (r.accessorName f.1) ++ " " ++ f.2.smt ++ ")")
      (r.fields.map (fieldSexpr r)) := by
    rw [List.forall₂_map_left_iff, List.forall₂_map_right_iff, List.forall₂_same]
    exact fun f hf => field_writes h hf (hfields f hf)
  exact declaration_writes (writes_symbol h.name)
    (writes_list (.cons (writes_symbol h.constructorName) hfield))

theorem declareVariable_writes {x : String × SmtSort} (h : barFree x.1)
    (hsort : ∀ r, x.2.record? = some r → barFree r.name) :
    Writes (declareVariable x.1 x.2) (.list (variableCommand x)) := by
  have hkeyword : Writes "declare-fun" (.symbol "declare-fun") := writes_simple (by decide)
  have hnothing := writes_list (List.Forall₂.nil (R := Writes))
  have hcommand := writes_list (.cons hkeyword (.cons (writes_symbol h)
    (.cons hnothing (.cons (SmtSort.smt_writes hsort) .nil))))
  have htext : declareVariable x.1 x.2 = "(" ++ " ".intercalate
      ["declare-fun", symbol x.1, "(" ++ " ".intercalate [] ++ ")", x.2.smt] ++ ")" := by
    apply String.toList_inj.mp
    show ("(declare-fun " ++ symbol x.1 ++ " () " ++ x.2.smt ++ ")").toList = _
    simp [String.intercalate_cons_cons]
  rw [htext]
  exact hcommand

theorem assert_writes {e : Formula} {t : String} (h : Writes t e.sexpr) :
    Writes ("(assert " ++ t ++ ")") (.list (assertCommand e)) := by
  have hkeyword : Writes "assert" (.symbol "assert") := writes_simple (by decide)
  have hcommand := writes_list (.cons hkeyword (.cons h .nil))
  have htext : "(assert " ++ t ++ ")" = "(" ++ " ".intercalate ["assert", t] ++ ")" := by
    apply String.toList_inj.mp
    simp [String.intercalate_cons_cons]
  rw [htext]
  exact hcommand

/-! ## Running commands -/

theorem readField_fieldSexpr {v : Vocabulary} {r : Record} {f : String × SmtSort}
    (h : readSort v f.2.sexpr = .ok f.2) : readField v r.name (fieldSexpr r f) = .ok f := by
  have haccessor : (r.accessorName f.1).toList = (r.name ++ ".").toList ++ f.1.toList := by
    simp [Record.accessorName]
  have hstart : (r.name ++ ".").toList.isPrefixOf ((r.name ++ ".").toList ++ f.1.toList) = true :=
    List.isPrefixOf_iff_prefix.mpr (List.prefix_append _ _)
  simp only [readField, fieldSexpr, haccessor, hstart, if_true, h, List.drop_left,
    String.ofList_toList]
  rfl

theorem run_recordCommand {s : Script} {r : Record}
    (h : ∀ f ∈ r.fields, readSort s.vocabulary f.2.sexpr = .ok f.2) :
    s.run (recordCommand r) =
      .ok { s with records := s.records ++ [r], vocabulary := s.vocabulary.addRecord r } := by
  have hfields : (r.fields.map (fieldSexpr r)).mapM (readField s.vocabulary r.name) =
      .ok r.fields := by
    rw [mapM_eq_ok, List.forall₂_map_left_iff, List.forall₂_same]
    exact fun f hf => readField_fieldSexpr (h f hf)
  have hrecord : readRecord s.vocabulary (.list [.symbol r.name, .literal "0"])
      (.list [.list (.symbol r.constructorName :: r.fields.map (fieldSexpr r))]) = .ok r := by
    show ((r.fields.map (fieldSexpr r)).mapM (readField s.vocabulary r.name) >>= fun fields =>
      pure (⟨r.name, fields⟩ : Record)) = _
    rw [hfields]
    rfl
  show ((readRecord s.vocabulary (.list [.symbol r.name, .literal "0"])
      (.list [.list (.symbol r.constructorName :: r.fields.map (fieldSexpr r))]) >>= fun r =>
    pure { s with records := s.records ++ [r], vocabulary := s.vocabulary.addRecord r }) >>=
    fun s => pure s) = _
  rw [hrecord]
  rfl

theorem run_variableCommand {s : Script} {x : String × SmtSort}
    (h : readSort s.vocabulary x.2.sexpr = .ok x.2) : s.run (variableCommand x) =
      .ok { s with vocabulary := s.vocabulary.addVariable x.1 x.2 } := by
  show (readSort s.vocabulary x.2.sexpr >>= fun t =>
    pure { s with vocabulary := s.vocabulary.addVariable x.1 t }) = _
  rw [h]
  rfl

theorem run_assertCommand {s : Script} {e e' : Formula}
    (h : readTerm s.vocabulary e.sexpr = .ok e') : s.run (assertCommand e) =
      .ok { s with assertions := s.assertions ++ [e'] } := by
  show (readTerm s.vocabulary e.sexpr >>= fun e =>
    pure { s with assertions := s.assertions ++ [e] }) = _
  rw [h]
  rfl

/-! ## Running scripts -/

theorem readScript_eq {text : String} {commands : List (List SExpr)}
    (h : expressions text = .ok (commands.map .list)) :
    readScript text = commands.foldlM Script.run {} := by
  rw [readScript, h]
  show (commands.map SExpr.list).foldlM _ _ = _
  rw [List.foldlM_map]

section

variable {rs : List Record} (hdistinct : (rs.map Record.name).Nodup)
  (hbuiltin : ∀ r ∈ rs, r.name ∉ builtinSorts)
include hdistinct hbuiltin

/-- The records are declared one behind another. -/
theorem run_records (h : Ordered rs) : (rs.map recordCommand).foldlM Script.run {} =
    .ok { records := rs, vocabulary := told rs [] } := by
  induction h with
  | nil => rfl
  | @snoc rs r h hfields ih =>
      have hdistinct' : (rs.map Record.name).Nodup := by
        rw [List.map_append] at hdistinct
        exact hdistinct.of_append_left
      have hbuiltin' : ∀ r ∈ rs, r.name ∉ builtinSorts :=
        fun r hr => hbuiltin r (List.mem_append_left _ hr)
      rw [List.map_append, List.foldlM_append, ih hdistinct' hbuiltin']
      have hrun := run_recordCommand (s := { records := rs, vocabulary := told rs [] }) (r := r)
        fun f hf => readSort_sexpr hdistinct' hbuiltin' (hfields f hf).1 (hfields f hf).2
      rw [told_snoc_record]
      show [recordCommand r].foldlM Script.run _ = _
      rw [List.foldlM_cons, hrun]
      rfl

/-- The variables are declared one behind another. -/
theorem run_variables {vars : List (String × SmtSort)}
    (hvars : ∀ x ∈ vars, x.2.isSized = true ∧ x.2.Declared rs) :
    (vars.map variableCommand).foldlM Script.run { records := rs, vocabulary := told rs [] } =
      .ok { records := rs, vocabulary := told rs vars } := by
  induction vars using List.reverseRecOn with
  | nil => rfl
  | append_singleton vars x ih =>
      obtain ⟨hvars, hx⟩ := List.forall_mem_append.mp hvars
      obtain ⟨hsized, hdeclared⟩ := hx x (List.mem_singleton_self x)
      rw [List.map_append, List.foldlM_append, ih hvars]
      have hrun := run_variableCommand (s := { records := rs, vocabulary := told rs vars }) (x := x)
        (readSort_sexpr hdistinct hbuiltin hsized hdeclared)
      rw [told_snoc_variable]
      show [variableCommand x].foldlM Script.run _ = _
      rw [List.foldlM_cons, hrun]
      rfl

end

/-- Assertions are collected in their order. -/
theorem run_assertions {s : Script} {es : List Formula}
    (h : ∀ e ∈ es, readTerm s.vocabulary e.sexpr = .ok e.reread) :
    (es.map assertCommand).foldlM Script.run s =
      .ok { s with assertions := s.assertions ++ es.map reread } := by
  induction es generalizing s with
  | nil => simp
  | cons e es ih =>
      obtain ⟨he, hes⟩ := List.forall_mem_cons.mp h
      rw [List.map_cons, List.foldlM_cons, run_assertCommand he]
      have hrest := ih (s := { s with assertions := s.assertions ++ [e.reread] }) hes
      simpa using hrest

/-! ## Scripts of formulas -/

def scriptCommands (rs : List Record) (vars : List (String × SmtSort)) (es : List Formula) :
    List (List SExpr) :=
  rs.map recordCommand ++ vars.map variableCommand ++ es.map assertCommand

/-- Formulas whose text can be read back, up to the spelling of constants: they are well sorted,
every variable has one sort, and no two of their names can be mixed up. -/
structure Interchangeable (es : List Formula) : Prop where
  sorted : ∀ e ∈ es, e.WellSorted ∧ e.Sized
  functional : Functional (es.flatMap occurrences)
  names : ∀ rs, records es = .ok rs → Unambiguous rs (es.flatMap occurrences)

instance (e : Formula) : Decidable e.WellSorted :=
  decidable_of_iff (e.sort?.isSome = true) Option.isSome_iff_exists

theorem interchangeable_iff {es : List Formula} : Interchangeable es ↔
    (∀ e ∈ es, e.WellSorted ∧ e.Sized) ∧ Functional (es.flatMap occurrences) ∧
      ∀ rs ∈ (records es).toOption, Unambiguous rs (es.flatMap occurrences) := by
  have hrecords : ∀ rs, rs ∈ (records es).toOption ↔ records es = .ok rs := by
    intro rs
    cases records es <;> simp [Except.toOption]
  constructor
  · intro h
    exact ⟨h.sorted, h.functional, fun rs hrs => h.names rs ((hrecords rs).mp hrs)⟩
  · rintro ⟨hsorted, hfunctional, hnames⟩
    exact ⟨hsorted, hfunctional, fun rs hrs => hnames rs ((hrecords rs).mpr hrs)⟩

instance (es : List Formula) : Decidable (Interchangeable es) :=
  decidable_of_iff _ interchangeable_iff.symm

section

variable {es : List Formula} {rs : List Record}
  (hdeclared : ∀ p ∈ partsAll es, ∀ s, p.HasSort s → s.Declared rs)

theorem Unambiguous.of_subset {vars vars' : List (String × SmtSort)} (h : Unambiguous rs vars)
    (hsub : vars' ⊆ vars) : Unambiguous rs vars' :=
  { h with names := fun x hx => h.names x (hsub hx) }

theorem mem_partsAll_of_part {e p : Formula} (he : e ∈ es) (hp : p ∈ e.parts) :
    p ∈ partsAll es := by
  rw [partsAll_eq]
  exact List.mem_flatMap.mpr ⟨e, he, hp⟩

include hdeclared

/-- The records that a part mentions itself are declared. -/
theorem node_declared {e p : Formula} (he : e ∈ es) (hs : e.WellSorted) (hp : p ∈ e.parts) :
    (∀ r i a, p = .unary (.get r i) a → r ∈ rs) ∧ ∀ r es, p = .nary (.make r) es → r ∈ rs := by
  obtain ⟨t, ht⟩ := hs
  obtain ⟨s, hs⟩ := ht.part hp
  constructor
  · rintro r i a rfl
    obtain ⟨u, hu, hget⟩ := hasSort_unary.mp hs
    obtain ⟨rfl, -⟩ := result?_get.mp hget
    have ha : a ∈ e.parts := mem_parts_trans (mem_parts_unary.mpr (.inr (mem_parts_self a))) hp
    exact hdeclared a (mem_partsAll_of_part he ha) _ hu r rfl
  · rintro r as rfl
    obtain ⟨rfl, -⟩ := hasSort_make.mp hs
    exact hdeclared _ (mem_partsAll_of_part he hp) _ hs r rfl

end

/-- Every declared variable has a sort that is known. -/
theorem occurrence_declared {es : List Formula} {rs : List Record}
    (hes : ∀ e ∈ es, e.WellSorted ∧ e.Sized)
    (hdeclared : ∀ p ∈ partsAll es, ∀ s, p.HasSort s → s.Declared rs) {x : String × SmtSort}
    (hx : x ∈ es.flatMap occurrences) : x.2.isSized = true ∧ x.2.Declared rs := by
  obtain ⟨e, he, hx⟩ := List.mem_flatMap.mp hx
  have hp : .var x.1 x.2 ∈ e.parts := mem_occurrences.mp hx
  exact ⟨(hes e he).2 _ hp, hdeclared _ (mem_partsAll_of_part he hp) _ rfl⟩

namespace Interchangeable

variable {es : List Formula} {rs : List Record}

/-- The lines of a script spell its commands. -/
theorem script_eq_ok (h : Interchangeable es) (hrs : records es = .ok rs) (hordered : Ordered rs)
    (hdeclared : ∀ p ∈ partsAll es, ∀ s, p.HasSort s → s.Declared rs) :
    ∃ text, script es = .ok text ∧
      expressions text = .ok ((scriptCommands rs (variablesOf es).toList es).map .list) := by
  have hnames := h.names rs hrs
  have hbars : ∀ {s : SmtSort}, s.Declared rs → ∀ r, s.record? = some r → barFree r.name :=
    fun hs r hr => (hnames.records r (hs r hr)).1.name
  have hrecords : List.Forall₂ Writes (rs.map declareRecord)
      (rs.map fun r => .list (recordCommand r)) := by
    rw [List.forall₂_map_left_iff, List.forall₂_map_right_iff, List.forall₂_same]
    intro r hr
    exact declareRecord_writes (hnames.records r hr).1
      fun f hf => hbars (hordered.declared hr hf)
  have hvariables : List.Forall₂ Writes
      ((variablesOf es).toList.map fun x => declareVariable x.1 x.2)
      ((variablesOf es).toList.map fun x => .list (variableCommand x)) := by
    rw [List.forall₂_map_left_iff, List.forall₂_map_right_iff, List.forall₂_same]
    intro x hx
    have hx : x ∈ es.flatMap occurrences := (mem_toList_ofList h.functional).mp hx
    exact declareVariable_writes (hnames.names x hx).1
      (hbars (occurrence_declared h.sorted hdeclared hx).2)
  obtain ⟨texts, htexts, hwrites⟩ : ∃ texts, es.mapM text = .ok texts ∧
      List.Forall₂ (fun t e => Writes t (sexpr e)) texts (es.map id) := by
    refine exists_mapM_eq_ok fun e he => ?_
    obtain ⟨⟨s, hs⟩, hz⟩ := h.sorted e he
    refine text_writes hs hz fun p hp => ?_
    obtain ⟨hget, hmake⟩ := node_declared hdeclared he ⟨s, hs⟩ hp
    refine ⟨?_, fun r i a heq => (hnames.records r (hget r i a heq)).1,
      fun r as heq => (hnames.records r (hmake r as heq)).1⟩
    rintro name s rfl
    exact (hnames.names (name, s) (List.mem_flatMap.mpr ⟨e, he, mem_occurrences.mpr hp⟩)).1
  have hasserts : List.Forall₂ Writes (texts.map fun t => "(assert " ++ t ++ ")")
      (es.map fun e => .list (assertCommand e)) := by
    rw [List.map_id] at hwrites
    rw [List.forall₂_map_left_iff, List.forall₂_map_right_iff]
    exact hwrites.imp fun t e ht => assert_writes ht
  have hlines := List.rel_append (List.rel_append hrecords hvariables) hasserts
  have hscript : script es = .ok ("\n".intercalate (rs.map declareRecord ++
      ((variablesOf es).toList.map fun x => declareVariable x.1 x.2) ++
      texts.map fun t => "(assert " ++ t ++ ")") ++ "\n") := by
    rw [script, hrs, texts_eq, htexts]
    rfl
  refine ⟨_, hscript, ?_⟩
  rw [scriptCommands, List.map_append, List.map_append, List.map_map, List.map_map, List.map_map]
  exact expressions_script hlines

/-- **A script of formulas is read back**, up to the spelling of constants. -/
theorem readScript_script (h : Interchangeable es) (hr : ∀ e ∈ es, e.Every NodeReadable) :
    ∃ text s, script es = .ok text ∧ readScript text = .ok s ∧ records es = .ok s.records ∧
      s.declarations.toList = (variablesOf es).toList ∧ s.assertions = es.map reread := by
  obtain ⟨rs, hrs, hordered, hdeclared⟩ := records_eq_ok h.sorted
  obtain ⟨text, htext, hcommands⟩ := h.script_eq_ok hrs hordered hdeclared
  have hmem : ∀ x, x ∈ (variablesOf es).toList ↔ x ∈ es.flatMap occurrences :=
    fun x => mem_toList_ofList h.functional
  have hnames : Unambiguous rs (variablesOf es).toList :=
    (h.names rs hrs).of_subset fun x hx => (hmem x).mp hx
  have hbuiltin : ∀ r ∈ rs, r.name ∉ builtinSorts := fun r hr => (hnames.records r hr).2
  have hfunctional : Functional (variablesOf es).toList :=
    fun key v w hv hw => h.functional key v w ((hmem _).mp hv) ((hmem _).mp hw)
  have hread : ∀ e ∈ es, readTerm (told rs (variablesOf es).toList) e.sexpr = .ok e.reread := by
    intro e he
    obtain ⟨⟨s, hs⟩, hz⟩ := h.sorted e he
    refine readTerm_sexpr hs hz (hr e he) fun p hp => ?_
    obtain ⟨hget, hmake⟩ := node_declared hdeclared he ⟨s, hs⟩ hp
    refine ⟨?_, fun r i a heq => hnames.knows hfunctional (hget r i a heq),
      fun r as heq => hnames.knows hfunctional (hmake r as heq)⟩
    rintro name s rfl
    have hx : (name, s) ∈ (variablesOf es).toList :=
      (hmem _).mpr (List.mem_flatMap.mpr ⟨e, he, mem_occurrences.mpr hp⟩)
    obtain ⟨-, htrue, hfalse, -⟩ := hnames.names _ hx
    exact ⟨(getElem?_variableSorts_told hfunctional).mpr hx, htrue, hfalse⟩
  refine ⟨text, ⟨rs, told rs (variablesOf es).toList, es.map reread⟩, htext, ?_, hrs, ?_, rfl⟩
  · have hrecords := run_records hnames.distinct hbuiltin hordered
    have hvariables := run_variables hnames.distinct hbuiltin fun x hx =>
      occurrence_declared h.sorted hdeclared ((hmem x).mp hx)
    have hassertions := run_assertions (s := ⟨rs, told rs (variablesOf es).toList, []⟩) hread
    rw [readScript_eq hcommands, scriptCommands, List.foldlM_append, List.foldlM_append, hrecords]
    show ((variablesOf es).toList.map variableCommand).foldlM Script.run _ >>= _ = _
    rw [hvariables]
    exact hassertions
  · show (told rs (variablesOf es).toList).variableSorts.toList = _
    rw [variableSorts_told, toList_insertMany_toList]

end Interchangeable

/-! ## Round trips -/

/-- **A script of canonical formulas is read as the formulas**, with the records that it was written
with and a declaration for each of their variables. Doubles are assumed to be read back from the
digits that they are written with. -/
theorem readScript_script_of_canonical {es : List Formula} (h : Interchangeable es)
    (hcanonical : ∀ e ∈ es, e.Every NodeCanonical)
    (hdisplay : ∀ x, .lit (.real x) ∈ partsAll es →
      Decimal.read? (Decimal.exact x.abs) = some x.abs) :
    ∃ text s, script es = .ok text ∧ readScript text = .ok s ∧ s.assertions = es ∧
      records es = .ok s.records ∧ s.declarations.toList = (variablesOf es).toList ∧
      ∀ name t, s.declarations[name]? = some t ↔ ∃ e ∈ es, .var name t ∈ e.parts := by
  have hreadable : ∀ e ∈ es, e.Every NodeReadable := by
    intro e he p hp
    refine (hcanonical e he p hp).readable ?_
    rintro x rfl
    exact hdisplay x (mem_partsAll_of_part he hp)
  obtain ⟨text, s, htext, hs, hrecords, hvariables, hassertions⟩ :=
    h.readScript_script hreadable
  refine ⟨text, s, htext, hs, ?_, hrecords, hvariables, fun name t => ?_⟩
  · rw [hassertions]
    exact (List.map_congr_left fun e he => reread_eq_self (hcanonical e he)).trans (List.map_id es)
  · rw [← TreeMap.mem_toList_iff_getElem?_eq_some, hvariables, variablesOf,
      mem_toList_ofList h.functional, List.mem_flatMap]
    simp only [mem_occurrences]

/-- Formulas with a record, a quoted name, a quote in a string, a negative integer and a negative
real number. -/
def canonicalExample : List Formula :=
  let point : Record := ⟨"Point", [("x", .real), ("label", .string)]⟩
  let p : Formula := .var "the point" point.sort
  [.binary (.compareArith .lt) (.unary (.get point 0) p) (.lit (.real (-1.5))),
    .nary .or [.binary .eq p (.nary (.make point) [.lit (.real 0.25), .lit (.str "say \"x\"")]),
      .binary .eq (.var "n" .int) (.int (-3))],
    .binary (.compareBits .slt) (.unary (.signExtend 4) (.var "b" (.bitVec 4)))
      (.lit (.bits 200 8))]

theorem canonicalExample_read_back : ∃ text s, script canonicalExample = .ok text ∧
    readScript text = .ok s ∧ s.assertions = canonicalExample ∧
    records canonicalExample = .ok s.records ∧
    s.declarations.toList = (variablesOf canonicalExample).toList := by
  have hcanonical : ∀ e ∈ canonicalExample, e.Every NodeCanonical := by
    have hnegative : Double.isFinite (-1.5) = true ∧ Double.normal (-1.5) = -1.5 := ⟨rfl, rfl⟩
    have hpositive : Double.isFinite 0.25 = true ∧ Double.normal 0.25 = 0.25 := ⟨rfl, rfl⟩
    have hint : (-3 : Int) ≠ Word.minInt := by decide
    simp only [canonicalExample, List.forall_mem_cons, every_binary, every_unary, every_nary,
      every_lit, every_var, NodeCanonical, Formula.int]
    simp [hnegative, hpositive, hint]
  have hdisplay : ∀ x, .lit (.real x) ∈ partsAll canonicalExample →
      Decimal.read? (Decimal.exact x.abs) = some x.abs := by
    intro x hx
    have hx : x = -1.5 ∨ x = 0.25 := by simpa [canonicalExample, partsAll, parts] using hx
    rcases hx with rfl | rfl <;> rfl
  obtain ⟨text, s, htext, hs, hassertions, hrecords, hvariables, -⟩ :=
    readScript_script_of_canonical (by decide) hcanonical hdisplay
  exact ⟨text, s, htext, hs, hassertions, hrecords, hvariables⟩

/-- **A script of formulas is read as formulas of the same meaning**, whatever their spelling, as
long as the least integer is not among them: infinities and NaN lose their value, and every other
formula keeps it. -/
theorem readScript_script_preserves_meaning {es : List Formula} (h : Interchangeable es)
    (hreadable : ∀ e ∈ es, e.Every NodeReadable) :
    ∃ text s, script es = .ok text ∧ readScript text = .ok s ∧
      List.Forall₂ (fun a e => (∀ σ, a.eval σ = e.definite.eval σ) ∧ a.Refines e ∧
        (e.Every NodeFinite → ∀ σ, a.eval σ = e.eval σ)) s.assertions es := by
  obtain ⟨text, s, htext, hs, -, -, hassertions⟩ := h.readScript_script hreadable
  refine ⟨text, s, htext, hs, ?_⟩
  rw [hassertions, List.forall₂_map_left_iff, List.forall₂_same]
  intro e he
  have hbalanced : e.Every NodeBalanced :=
    fun p hp => (hreadable e he p hp).balanced ((h.sorted e he).2 p hp)
  have hmeaning := eval_reread hbalanced
  refine ⟨hmeaning, ?_, fun hfinite σ => ?_⟩
  · intro σ v hv
    rw [hmeaning σ] at hv
    exact definite_refines e hv
  · rw [hmeaning σ, definite_eq_self hfinite]

def infinity : Float := Float.ofBits 0x7FF0000000000000

/-- A minus sign in front of a literal, a conjunction of nothing and an infinity. -/
def spellingExample : List Formula :=
  [.binary .eq (.unary .neg (.int 5)) (.var "n" .int), .nary .and [],
    .binary (.compareArith .lt) (.var "x" .real) (.lit (.real infinity))]

theorem spellingExample_preserved : ∃ text s, script spellingExample = .ok text ∧
    readScript text = .ok s ∧
    List.Forall₂ (fun a e => (∀ σ, a.eval σ = e.definite.eval σ) ∧ a.Refines e ∧
      (e.Every NodeFinite → ∀ σ, a.eval σ = e.eval σ)) s.assertions spellingExample := by
  refine readScript_script_preserves_meaning (by decide) ?_
  have hreal : Literal.Readable (.real infinity) := ⟨rfl, fun hfinite => absurd hfinite (by decide)⟩
  have hint : Literal.Readable (.int 5) := show (5 : Int) ≠ Word.minInt by decide
  simp [spellingExample, NodeReadable, hreal, hint]

def leastInteger : Formula := .binary .eq (.int Word.minInt) (.int Word.minInt)

def infiniteReal : Formula := .binary .eq (.lit (.real infinity)) (.lit (.real infinity))

/-- The magnitude of the least integer is no integer, and an infinity is written as a quotient
without a value: both formulas are true, one cannot be read back, and the other becomes undefined. -/
theorem meaning_lost_by_extremes :
    (Interchangeable [leastInteger] ∧ (∀ σ, leastInteger.eval σ = .ok (.bool true)) ∧
      ∃ text, script [leastInteger] = .ok text ∧
        readScript text = .error (.parse "bad numeral 9223372036854775808")) ∧
    Interchangeable [infiniteReal] ∧ (∀ σ, infiniteReal.eval σ = .ok (.bool true)) ∧
      ∃ text s a, script [infiniteReal] = .ok text ∧ readScript text = .ok s ∧
        s.assertions = [a] ∧ ∀ σ, a.eval σ = .error .undefined := by
  have hinteger : Interchangeable [leastInteger] := by decide
  have hreal : Interchangeable [infiniteReal] := by decide
  refine ⟨⟨hinteger, fun σ => rfl, ?_⟩, hreal, fun σ => rfl, ?_⟩
  · obtain ⟨rs, hrs, hordered, hdeclared⟩ := records_eq_ok hinteger.sorted
    obtain ⟨text, htext, hcommands⟩ := hinteger.script_eq_ok hrs hordered hdeclared
    obtain rfl := Except.ok.inj hrs
    refine ⟨text, htext, ?_⟩
    rw [readScript_eq hcommands]
    rfl
  · have hreadable : Literal.Readable (.real infinity) :=
      ⟨rfl, fun hfinite => absurd hfinite (by decide)⟩
    obtain ⟨text, s, htext, hs, -, -, hassertions⟩ := hreal.readScript_script
      (by simp [infiniteReal, NodeReadable, hreadable])
    exact ⟨text, s, infiniteReal.reread, htext, hs, hassertions, fun σ => rfl⟩

end PlayerPaths
