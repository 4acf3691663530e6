import PlayerPaths.Proofs.Collections
import PlayerPaths.Proofs.SmtLib.Reading

/-!
# Declarations

Records are declared behind those that their fields need (`Ordered`), so the sort of every field is
known when it is read. Where no two names can be mixed up (`Unambiguous`), a vocabulary that has
been told about the records and the variables finds each of them again under its own names.
-/

namespace PlayerPaths

open Std SmtLib

/-! ## The records of formulas -/

/-- The record that a sort is, if it is one, belongs to a list. -/
def SmtSort.Declared (rs : List Record) (s : SmtSort) : Prop := ∀ r, s.record? = some r → r ∈ rs

theorem SmtSort.Declared.mono {rs rs' : List Record} {s : SmtSort} (h : s.Declared rs)
    (hsub : rs ⊆ rs') : s.Declared rs' :=
  fun r hr => hsub (h r hr)

/-- Every record has fields of sizes and stands behind those that its fields need. -/
inductive Ordered : List Record → Prop
  | nil : Ordered []
  | snoc {rs : List Record} {r : Record} (h : Ordered rs)
      (hfields : ∀ f ∈ r.fields, f.2.isSized = true ∧ f.2.Declared rs) : Ordered (rs ++ [r])

theorem Ordered.declared {rs : List Record} (h : Ordered rs) {r : Record} (hr : r ∈ rs)
    {f : String × SmtSort} (hf : f ∈ r.fields) : f.2.Declared rs := by
  induction h with
  | nil => simp at hr
  | snoc h hfields ih =>
      rcases List.mem_append.mp hr with hr | hr
      · exact (ih hr).mono (List.subset_append_left _ _)
      · obtain rfl := List.mem_singleton.mp hr
        exact (hfields f hf).2.mono (List.subset_append_left _ _)

/-- What it means that a list of records has been extended by the needs of some sorts. -/
structure Extends (known rs : List Record) (sorts : List SmtSort) : Prop where
  ordered : Ordered rs
  sub : known ⊆ rs
  declared : ∀ s ∈ sorts, s.Declared rs

theorem addFieldRecords_extends {fields : List (String × SmtSort)}
    (ih : ∀ f ∈ fields, ∀ known, Ordered known → Extends known (addRecords known f.2) [f.2])
    {known : List Record} (h : Ordered known) :
    Extends known (addFieldRecords known fields) (fields.map Prod.snd) := by
  induction fields generalizing known with
  | nil => exact ⟨h, List.Subset.refl _, by simp⟩
  | cons f fields ihfields =>
      obtain ⟨hf, hfields⟩ := List.forall_mem_cons.mp ih
      have hfirst := hf known h
      have hrest := ihfields hfields hfirst.ordered
      refine ⟨hrest.ordered, List.Subset.trans hfirst.sub hrest.sub, ?_⟩
      rw [List.map_cons, List.forall_mem_cons]
      exact ⟨(hfirst.declared f.2 (by simp)).mono hrest.sub, hrest.declared⟩

/-- The records that a sort needs are added behind each other. -/
theorem addRecords_extends {s : SmtSort} (hs : s.isSized = true) {known : List Record}
    (h : Ordered known) : Extends known (addRecords known s) [s] := by
  induction s generalizing known with
  | record name fields ih =>
      rw [addRecords]
      split
      · next hmem =>
        refine ⟨h, List.Subset.refl _, ?_⟩
        simpa [SmtSort.Declared, SmtSort.record?] using hmem
      · have hsized := SmtSort.isSized_record.mp hs
        have hfields := addFieldRecords_extends (fun f hf known h => ih f hf (hsized f hf) h) h
        refine ⟨hfields.ordered.snoc fun f hf => ?_, ?_, ?_⟩
        · exact ⟨hsized f hf, hfields.declared f.2 (List.mem_map_of_mem hf)⟩
        · exact List.Subset.trans hfields.sub (List.subset_append_left _ _)
        · simp [SmtSort.Declared, SmtSort.record?]
  | _ => exact ⟨h, List.Subset.refl _, by simp [SmtSort.Declared, SmtSort.record?]⟩

/-- The records that the sorts of formulas need are added behind each other. -/
theorem foldlM_addRecords {ps : List Formula} {sorts : List SmtSort} {known : List Record}
    (h : Ordered known)
    (hps : List.Forall₂ (fun p s => p.sort = .ok s ∧ s.isSized = true) ps sorts) :
    ∃ rs, ps.foldlM (fun known e => do return addRecords known (← e.sort)) known =
      (.ok rs : Result (List Record)) ∧ Extends known rs sorts := by
  induction hps generalizing known with
  | nil => exact ⟨known, rfl, h, List.Subset.refl _, by simp⟩
  | @cons p s ps sorts hp hps ih =>
      have hfirst := addRecords_extends hp.2 h
      obtain ⟨rs, hrs, hrest⟩ := ih hfirst.ordered
      refine ⟨rs, ?_, hrest.ordered, List.Subset.trans hfirst.sub hrest.sub, ?_⟩
      · rw [List.foldlM_cons, hp.1]
        exact hrs
      · rw [List.forall_mem_cons]
        exact ⟨(hfirst.declared s (by simp)).mono hrest.sub, hrest.declared⟩

/-- The records of well-sorted formulas can be listed, and the record of every part is. -/
theorem records_eq_ok {es : List Formula} (hes : ∀ e ∈ es, e.WellSorted ∧ e.Sized) :
    ∃ rs, records es = .ok rs ∧ Ordered rs ∧
      ∀ p ∈ Formula.partsAll es, ∀ s, p.HasSort s → s.Declared rs := by
  have hparts : ∀ p ∈ Formula.partsAll es, ∃ s, p.sort = .ok s ∧
      p.sort = .ok s ∧ s.isSized = true := by
    intro p hp
    rw [Formula.partsAll_eq] at hp
    obtain ⟨e, he, hp⟩ := List.mem_flatMap.mp hp
    obtain ⟨⟨t, ht⟩, hz⟩ := hes e he
    obtain ⟨s, hs⟩ := ht.part hp
    exact ⟨s, (Formula.sort_sized hs (hz.part hp)).1, Formula.sort_sized hs (hz.part hp)⟩
  obtain ⟨sorts, -, hsorts⟩ := exists_mapM_eq_ok (f := Formula.sort) (g := id)
    (R := fun s p => p.sort = .ok s ∧ s.isSized = true) hparts
  rw [List.map_id] at hsorts
  obtain ⟨rs, hrs, hextends⟩ := foldlM_addRecords .nil hsorts.flip
  refine ⟨rs, hrs, hextends.ordered, fun p hp s hs => ?_⟩
  obtain ⟨t, ht, hsort⟩ := forall₂_exists_of_mem_left hsorts.flip hp
  rw [← Formula.sort_agrees hs hsort.1]
  exact hextends.declared t ht

/-! ## Names -/

/-- The sorts that need no declaration. -/
def builtinSorts : List String := ["Bool", "Int", "Real", "String"]

/-- No two names of some records and variables can be mixed up, with each other or with the names
that SMT-LIB has itself. -/
structure Unambiguous (rs : List Record) (vars : List (String × SmtSort)) : Prop where
  /-- Variables can be written, and are neither truth values nor constructors. -/
  names : ∀ x ∈ vars, barFree x.1 ∧ x.1 ≠ "true" ∧ x.1 ≠ "false" ∧
    ∀ r ∈ rs, x.1 ≠ r.constructorName
  records : ∀ r ∈ rs, r.BarFree ∧ r.name ∉ builtinSorts
  distinct : (rs.map Record.name).Nodup
  fields : ∀ r ∈ rs, (r.fields.map Prod.fst).Nodup ∧ ∀ f ∈ r.fields, '.' ∉ f.1.toList
  accessors : ∀ r ∈ rs, ∀ f ∈ r.fields, ∀ r' ∈ rs, r.accessorName f.1 ≠ r'.constructorName

instance (rs : List Record) (vars : List (String × SmtSort)) : Decidable (Unambiguous rs vars) :=
  decidable_of_iff ((∀ x ∈ vars, barFree x.1 ∧ x.1 ≠ "true" ∧ x.1 ≠ "false" ∧
      ∀ r ∈ rs, x.1 ≠ r.constructorName) ∧ (∀ r ∈ rs, r.BarFree ∧ r.name ∉ builtinSorts) ∧
      (rs.map Record.name).Nodup ∧
      (∀ r ∈ rs, (r.fields.map Prod.fst).Nodup ∧ ∀ f ∈ r.fields, '.' ∉ f.1.toList) ∧
      ∀ r ∈ rs, ∀ f ∈ r.fields, ∀ r' ∈ rs, r.accessorName f.1 ≠ r'.constructorName)
    ⟨fun h => ⟨h.1, h.2.1, h.2.2.1, h.2.2.2.1, h.2.2.2.2⟩,
      fun h => ⟨h.names, h.records, h.distinct, h.fields, h.accessors⟩⟩

/-- The vocabulary that has been told about records and variables. -/
def told (rs : List Record) (vars : List (String × SmtSort)) : Vocabulary :=
  vars.foldl (fun v x => v.addVariable x.1 x.2) (rs.foldl Vocabulary.addRecord {})

theorem told_snoc_record (rs : List Record) (r : Record) :
    told (rs ++ [r]) [] = (told rs []).addRecord r := by
  simp [told]

theorem told_snoc_variable (rs : List Record) (vars : List (String × SmtSort))
    (x : String × SmtSort) : told rs (vars ++ [x]) = (told rs vars).addVariable x.1 x.2 := by
  simp [told]

theorem records_told (rs : List Record) (vars : List (String × SmtSort)) :
    (told rs vars).records = (∅ : TreeMap String Record).insertMany (rs.map fun r => (r.name, r)) := by
  have hvars : ∀ v : Vocabulary, (vars.foldl (fun v x => v.addVariable x.1 x.2) v).records =
      v.records := by
    induction vars with
    | nil => exact fun v => rfl
    | cons x vars ih => exact fun v => ih _
  have hrecords : ∀ v : Vocabulary, (rs.foldl Vocabulary.addRecord v).records =
      rs.foldl (fun m r => m.insert r.name r) v.records := by
    induction rs with
    | nil => exact fun v => rfl
    | cons r rs ih => exact fun v => ih _
  rw [told, hvars, hrecords]
  exact foldl_insert (fun r => (r.name, r)) rs ∅

theorem variableSorts_told (rs : List Record) (vars : List (String × SmtSort)) :
    (told rs vars).variableSorts = (∅ : TreeMap String SmtSort).insertMany vars := by
  have hvars : ∀ v : Vocabulary,
      (vars.foldl (fun v x => v.addVariable x.1 x.2) v).variableSorts =
        vars.foldl (fun m x => m.insert x.1 x.2) v.variableSorts := by
    induction vars with
    | nil => exact fun v => rfl
    | cons x vars ih => exact fun v => ih _
  have hrecords : ∀ v : Vocabulary, (rs.foldl Vocabulary.addRecord v).variableSorts =
      v.variableSorts := by
    induction rs with
    | nil => exact fun v => rfl
    | cons r rs ih => exact fun v => ih _
  rw [told, hvars, hrecords]
  simpa using foldl_insert (fun x : String × SmtSort => x) vars ∅

section

variable {rs : List Record} {vars : List (String × SmtSort)}

theorem eq_of_name_eq (h : (rs.map Record.name).Nodup) {r r' : Record} (hr : r ∈ rs)
    (hr' : r' ∈ rs) (heq : r.name = r'.name) : r = r' :=
  List.inj_on_of_nodup_map h hr hr' heq

theorem getElem?_records_told (h : (rs.map Record.name).Nodup) {name : String} {r : Record} :
    (told rs vars).records[name]? = some r ↔ r ∈ rs ∧ r.name = name := by
  have hfunctional : Functional (rs.map fun r => (r.name, r)) := by
    intro key v w hv hw
    obtain ⟨r, hr, hv⟩ := List.mem_map.mp hv
    obtain ⟨r', hr', hw⟩ := List.mem_map.mp hw
    obtain ⟨rfl, rfl⟩ := Prod.mk.inj hv
    obtain ⟨heq, rfl⟩ := Prod.mk.inj hw
    exact eq_of_name_eq h hr hr' heq.symm
  rw [records_told, getElem?_insertMany hfunctional]
  simp

theorem getElem?_variableSorts_told (h : Functional vars) {name : String} {s : SmtSort} :
    (told rs vars).variableSorts[name]? = some s ↔ (name, s) ∈ vars := by
  rw [variableSorts_told, getElem?_insertMany h]
  simp

theorem mem_values_told (h : (rs.map Record.name).Nodup) {r : Record} :
    r ∈ (told rs vars).records.values ↔ r ∈ rs := by
  rw [mem_values]
  constructor
  · rintro ⟨key, hkey⟩
    exact ((getElem?_records_told h).mp hkey).1
  · intro hr
    exact ⟨r.name, (getElem?_records_told h).mpr ⟨hr, rfl⟩⟩

end

/-- A text determines what stands behind its last point. -/
theorem append_point_inj {as bs cs ds : List Char} (h : as ++ '.' :: bs = cs ++ '.' :: ds)
    (hb : '.' ∉ bs) (hd : '.' ∉ ds) : bs = ds := by
  have hlast : ∀ (xs : List Char) {ys : List Char}, '.' ∉ ys →
      (xs ++ '.' :: ys).reverse.takeWhile (· != '.') = ys.reverse := by
    intro xs ys hys
    have hall : ∀ c ∈ ys.reverse, (c != '.') = true := by
      intro c hc
      have hne : c ≠ '.' := fun heq => hys (heq ▸ List.mem_reverse.mp hc)
      simpa using hne
    rw [List.reverse_append, List.reverse_cons, List.append_assoc, List.takeWhile_append_of_pos hall]
    simp
  have hreverse := hlast as hb
  rw [h, hlast cs hd] at hreverse
  exact (List.reverse_injective hreverse).symm

namespace Unambiguous

variable {rs : List Record} {vars : List (String × SmtSort)}

theorem constructor?_eq_some (h : Unambiguous rs vars) {r : Record} (hr : r ∈ rs) :
    (told rs vars).constructor? r.constructorName = some r := by
  unfold Vocabulary.constructor?
  cases hfind : (told rs vars).records.values.find? fun r' =>
      r'.constructorName == r.constructorName with
  | none =>
      have hnone := List.find?_eq_none.mp hfind r ((mem_values_told h.distinct).mpr hr)
      simp at hnone
  | some r' =>
      have hr' := (mem_values_told h.distinct).mp (List.mem_of_find?_eq_some hfind)
      have hname : r'.constructorName = r.constructorName := by
        simpa using List.find?_some hfind
      have hname : r'.name = r.name := by simpa [Record.constructorName] using hname
      rw [eq_of_name_eq h.distinct hr' hr hname]

/-- An accessor is found as the field that it reads: other accessors of the same name, if there
were any, would have the same field behind the last point. -/
theorem accessor?_eq_some (h : Unambiguous rs vars) {r : Record} (hr : r ∈ rs)
    {f : String × SmtSort} (hf : f ∈ r.fields) :
    (told rs vars).accessor? (r.accessorName f.1) = some f.1 := by
  have hfound : ∀ r' ∈ rs, ∀ g ∈ r'.fields, r'.accessorName g.1 = r.accessorName f.1 →
      g.1 = f.1 := by
    intro r' hr' g hg heq
    have hchars := congrArg String.toList heq
    simp only [Record.accessorName, String.toList_append, List.append_assoc] at hchars
    exact String.toList_inj.mp (append_point_inj hchars ((h.fields r' hr').2 g hg)
      ((h.fields r hr).2 f hf))
  unfold Vocabulary.accessor?
  cases hfind : (told rs vars).records.values.findSome? fun r' =>
      (r'.fields.find? fun g => r'.accessorName g.1 == r.accessorName f.1).map Prod.fst with
  | none =>
      have hnone := List.findSome?_eq_none_iff.mp hfind r ((mem_values_told h.distinct).mpr hr)
      rw [Option.map_eq_none_iff, List.find?_eq_none] at hnone
      simpa using hnone f hf
  | some field =>
      obtain ⟨r', hr', hfield⟩ := List.exists_of_findSome?_eq_some hfind
      obtain ⟨g, hg, rfl⟩ := Option.map_eq_some_iff.mp hfield
      have hname : r'.accessorName g.1 = r.accessorName f.1 := by
        simpa using List.find?_some hg
      rw [hfound r' ((mem_values_told h.distinct).mp hr') g (List.mem_of_find?_eq_some hg) hname]

/-- Every record is found under its own names. -/
theorem knows (h : Unambiguous rs vars) (hvars : Functional vars) {r : Record} (hr : r ∈ rs) :
    (told rs vars).Knows r where
  construct := h.constructor?_eq_some hr
  constant := by
    rw [Option.eq_none_iff_forall_ne_some]
    intro s hs
    have hmem := (getElem?_variableSorts_told hvars).mp hs
    exact (h.names _ hmem).2.2.2 r hr rfl
  access := by
    intro f hf
    refine ⟨?_, h.accessor?_eq_some hr hf⟩
    rw [Vocabulary.constructor?, List.find?_eq_none]
    intro r' hr'
    have hne := h.accessors r hr f hf r' ((mem_values_told h.distinct).mp hr')
    simpa using hne.symm
  fields := (h.fields r hr).1

end Unambiguous

/-! ## Sorts -/

def SmtSort.sexpr : SmtSort → SExpr
  | .bool => .symbol "Bool"
  | .bitVec width => .list [.symbol "_", .symbol "BitVec", .literal (toString width)]
  | .int => .symbol "Int"
  | .real => .symbol "Real"
  | .string => .symbol "String"
  | .record name _ => .symbol name

theorem SmtSort.smt_writes {s : SmtSort} (h : ∀ r, s.record? = some r → barFree r.name) :
    Writes s.smt s.sexpr := by
  cases s with
  | bitVec width =>
      have htext : (SmtSort.bitVec width).smt = application "_" ["BitVec", toString width] := by
        apply String.toList_inj.mp
        simp [SmtSort.smt, SmtSort.text, application, String.intercalate_cons_cons]
      rw [htext]
      exact writes_application (writes_simple (by decide))
        (.cons (writes_simple (by decide)) (.cons (writes_numeral width) .nil))
  | record name fields => exact writes_symbol (h ⟨name, fields⟩ rfl)
  | _ => exact writes_simple (by decide)

/-- A declared sort is read back. -/
theorem readSort_sexpr {rs : List Record} {vars : List (String × SmtSort)} {s : SmtSort}
    (hdistinct : (rs.map Record.name).Nodup) (hbuiltin : ∀ r ∈ rs, r.name ∉ builtinSorts)
    (hs : s.isSized = true) (hdeclared : s.Declared rs) :
    readSort (told rs vars) s.sexpr = .ok s := by
  cases s with
  | bitVec width =>
      show (numeral (toString width) >>= fun w => pure (SmtSort.bitVec w)) = _
      rw [numeral_toString (SmtSort.isSized_bitVec.mp hs)]
      rfl
  | record name fields =>
      have hmem := hdeclared ⟨name, fields⟩ rfl
      have hlookup : (told rs vars).records[name]? = some ⟨name, fields⟩ :=
        (getElem?_records_told hdistinct).mpr ⟨hmem, rfl⟩
      have hne : ∀ other ∈ builtinSorts, name ≠ other := by
        rintro other hother rfl
        exact hbuiltin _ hmem hother
      rw [SmtSort.sexpr, readSort, hlookup]
      · rfl
      · exact hne "Bool" (by decide)
      · exact hne "Int" (by decide)
      · exact hne "Real" (by decide)
      · exact hne "String" (by decide)
  | _ => rfl

end PlayerPaths
