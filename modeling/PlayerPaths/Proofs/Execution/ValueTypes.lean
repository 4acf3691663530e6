import Mathlib.Logic.Relation
import PlayerPaths.Execution.Sorts
import PlayerPaths.Proofs.Collections
import PlayerPaths.Proofs.Outcomes

/-!
# Records of value types

The sorts of a program exist when its value types can be laid out: whatever they hold in instance
fields is defined, no type is inside itself, and no field is void (`Program.WellNested`). The limit
on the nesting is met on a cycle only, as it takes more types inside each other than there are
definitions. The records are then those of the value types and of what is inside them, each with
the instance fields of its definition (`Sorts.Faithful`).
-/

namespace PlayerPaths

open IL Relation

namespace IL.Program

/-- Every type is kept under its own name. -/
def Named (p : Program) : Prop :=
  ∀ (key : String) d, p.types[key]? = some d → d.name = key

theorem named_empty (mainModule : String) : (Program.empty mainModule).Named := by
  intro key d hd
  simp [Program.empty] at hd

theorem Named.addType {p : Program} (hp : p.Named) (d : TypeDefinition) : (p.addType d).Named := by
  intro key d' hd'
  simp only [Program.addType, Std.TreeMap.getElem?_insert] at hd'
  split at hd'
  · next heq =>
    obtain rfl := Option.some.inj hd'
    exact Std.LawfulEqCmp.eq_of_compare heq
  · exact hp key d' hd'

/-- The values of a type hold a value of a second one in an instance field. -/
def Contains (p : Program) (outer inner : String) : Prop :=
  ∃ d, p.type? outer = some d ∧ ∃ f ∈ d.instanceFields, f.type = .struct inner

/-- Types with values that are, or are inside, values of a value type. -/
def Embedded (p : Program) (name : String) : Prop :=
  ∃ d ∈ p.typeList, d.kind = .struct ∧ ReflTransGen p.Contains d.name name

/-- A type contains itself, directly or through others. -/
def Recursive (p : Program) (name : String) : Prop := TransGen p.Contains name name

/-- The value types of a program can be laid out. -/
structure WellNested (p : Program) : Prop where
  defined : ∀ name, p.Embedded name → ∃ d, p.type? name = some d
  acyclic : ∀ name, p.Embedded name → ¬ p.Recursive name
  inhabited : ∀ name d, p.Embedded name → p.type? name = some d →
    ∀ f ∈ d.instanceFields, f.type ≠ .void

/-- What is wrong with value types that cannot be laid out, and the error that reports it. -/
inductive NestingFault (p : Program) : Error → Prop where
  | missing (name : String) : p.Embedded name → p.type? name = none →
    NestingFault p (.typeNotFound name)
  | cyclic (cycle name : String) : p.Embedded cycle → p.Recursive cycle →
    ReflTransGen p.Contains cycle name →
    NestingFault p (.unsupported ("recursive value type " ++ name))
  | void (name : String) (d : TypeDefinition) (f : FieldDefinition) : p.Embedded name →
    p.type? name = some d → f ∈ d.instanceFields → f.type = .void →
    NestingFault p (.sort "void has no sort")

variable {p : Program}

theorem embedded_of_mem {d : TypeDefinition} (hd : d ∈ p.typeList) (hkind : d.kind = .struct) :
    p.Embedded d.name :=
  ⟨d, hd, hkind, .refl⟩

theorem Embedded.contains {outer inner : String} (h : p.Embedded outer)
    (hin : p.Contains outer inner) : p.Embedded inner := by
  obtain ⟨d, hd, hkind, hreach⟩ := h
  exact ⟨d, hd, hkind, hreach.tail hin⟩

theorem contains_of_mem {name inner : String} {d : TypeDefinition} {f : FieldDefinition}
    (hd : p.type? name = some d) (hf : f ∈ d.instanceFields) (htype : f.type = .struct inner) :
    p.Contains name inner :=
  ⟨d, hd, f, hf, htype⟩

theorem NestingFault.not_wellNested {e : Error} (h : p.NestingFault e) : ¬ p.WellNested := by
  intro hp
  cases h with
  | missing name hname hnone =>
      obtain ⟨d, hd⟩ := hp.defined name hname
      rw [hnone] at hd
      cases hd
  | cyclic cycle _ hcycle hself _ => exact hp.acyclic cycle hcycle hself
  | void name d f hname hd hf hvoid => exact hp.inhabited name d hname hd f hf hvoid

theorem NestingFault.not_fault {e : Error} (h : p.NestingFault e) : e.isFault = false := by
  cases h <;> rfl

/-- The types around a type, the innermost first: all are defined and embedded, and each contains
those before it. -/
structure Chain (p : Program) (around : List String) (name : String) : Prop where
  defined : ∀ a ∈ around, a ∈ p.types
  embedded : ∀ a ∈ around, p.Embedded a
  contains : (name :: around).Pairwise fun inner outer => TransGen p.Contains outer inner

namespace Chain

variable {around : List String} {name : String}

theorem nil : p.Chain [] name :=
  ⟨by simp, by simp, List.pairwise_singleton _ _⟩

/-- One step further inside. -/
theorem cons {inner : String} (h : p.Chain around name) (hname : p.Embedded name)
    (hin : p.Contains name inner) : p.Chain (name :: around) inner := by
  obtain ⟨d, hd, -⟩ := id hin
  have hmem : name ∈ p.types := mem_iff_exists_getElem?.mpr ⟨d, hd⟩
  obtain ⟨houter, -⟩ := List.pairwise_cons.mp h.contains
  refine ⟨List.forall_mem_cons.mpr ⟨hmem, h.defined⟩, List.forall_mem_cons.mpr ⟨hname, h.embedded⟩,
    List.pairwise_cons.mpr ⟨List.forall_mem_cons.mpr ⟨.single hin, fun a ha => ?_⟩, h.contains⟩⟩
  exact (houter a ha).tail hin

/-- Among more types than there are definitions, one is inside itself. -/
theorem exists_recursive (h : p.Chain around name) (hlength : p.types.size < around.length) :
    ∃ cycle, p.Embedded cycle ∧ p.Recursive cycle ∧ ReflTransGen p.Contains cycle name := by
  obtain ⟨hname, houters⟩ := List.pairwise_cons.mp h.contains
  by_contra hnone
  -- Otherwise all are different definitions, of which there are not that many.
  have hnodup : around.Nodup := by
    refine List.Pairwise.imp_of_mem (fun {a b} ha _ hab => ?_) houters
    rintro rfl
    exact hnone ⟨a, h.embedded a ha, hab, (hname a ha).to_reflTransGen⟩
  have hle := length_le_size_of_nodup hnodup h.defined
  omega

end Chain

end IL.Program

namespace Sorts

variable {p : Program} {s t u : Sorts}

/-! ## Records of definitions -/

/-- An entry of a record stands for a field: it has its name, and the sort of its type. -/
def Stands (s : Sorts) (f : FieldDefinition) (entry : String × SmtSort) : Prop :=
  entry.1 = f.name ∧ s.sort f.type = .ok entry.2

/-- A record stands for a definition: it has its name, and its instance fields in the order of
declaration. -/
def Describes (s : Sorts) (d : TypeDefinition) (r : Record) : Prop :=
  r.name = d.name ∧ List.Forall₂ s.Stands d.instanceFields r.fields

/-- All records stand for types that value types are made of. -/
def Faithful (s : Sorts) (p : Program) : Prop :=
  ∀ (name : String) (r : Record), s.records[name]? = some r →
    p.Embedded name ∧ ∃ d, p.type? name = some d ∧ r.name = name ∧
      List.Forall₂ s.Stands d.instanceFields r.fields

def Within (s t : Sorts) : Prop :=
  ∀ (name : String) (r : Record), s.records[name]? = some r → t.records[name]? = some r

theorem Within.refl : s.Within s := fun _ _ h => h

theorem Within.trans (h : s.Within t) (h' : t.Within u) : s.Within u :=
  fun name r hr => h' name r (h name r hr)

theorem sort_struct_eq_ok {name : String} {v : SmtSort} :
    s.sort (.struct name) = .ok v ↔ ∃ r : Record, s.records[name]? = some r ∧ r.sort = v := by
  cases hr : s.records[name]? <;> simp [sort, hr]

theorem Within.sort (h : s.Within t) {ty : Ty} {v : SmtSort} (hv : s.sort ty = .ok v) :
    t.sort ty = .ok v := by
  cases ty with
  | struct name =>
      obtain ⟨r, hr, rfl⟩ := sort_struct_eq_ok.mp hv
      exact sort_struct_eq_ok.mpr ⟨r, h name r hr, rfl⟩
  | _ => exact hv

theorem Within.stands (h : s.Within t) {f : FieldDefinition} {entry : String × SmtSort}
    (hf : s.Stands f entry) : t.Stands f entry :=
  ⟨hf.1, h.sort hf.2⟩

theorem Within.all_stand (h : s.Within t) {fields : List FieldDefinition}
    {entries : List (String × SmtSort)} (hs : List.Forall₂ s.Stands fields entries) :
    List.Forall₂ t.Stands fields entries :=
  hs.imp fun _ _ => h.stands

/-- The fields of a type determine the entries that stand for them. -/
theorem entries_unique {fields : List FieldDefinition} {entries entries' : List (String × SmtSort)}
    (h : List.Forall₂ s.Stands fields entries) (h' : List.Forall₂ s.Stands fields entries') :
    entries = entries' := by
  refine List.right_unique_forall₂' (fun f a b ha hb => ?_) h h'
  exact Prod.ext (ha.1.trans hb.1.symm) (Except.ok.inj (ha.2.symm.trans hb.2))

/-- Only void has no sort, and value types without record. -/
theorem sort_meets {ty : Ty} (hstruct : ∀ name, ty ≠ .struct name) :
    Meets (fun e => ty = .void ∧ e = .sort "void has no sort") (fun _ => True) (s.sort ty) := by
  cases ty with
  | struct name => exact absurd rfl (hstruct name)
  | void => exact ⟨rfl, rfl⟩
  | _ => trivial

/-! ## Building records -/

/-- What is known of sorts that were made of others on the way: they are faithful, and nothing that
was there is lost. -/
def Grown (s : Sorts) (p : Program) (t : Sorts) : Prop := t.Faithful p ∧ s.Within t

theorem Grown.trans (h : s.Grown p t) (h' : t.Grown p u) : s.Grown p u :=
  ⟨h'.1, h.2.trans h'.2⟩

/-- The record of a type takes nothing away: where the type has one, it is the same. -/
theorem Faithful.insert (hs : s.Faithful p) {name : String} {d : TypeDefinition}
    {fields : List (String × SmtSort)} (hname : p.Embedded name) (hd : p.type? name = some d)
    (hfields : List.Forall₂ s.Stands d.instanceFields fields) :
    s.Grown p ⟨s.records.insert name ⟨name, fields⟩⟩ := by
  have hwithin : s.Within ⟨s.records.insert name ⟨name, fields⟩⟩ := by
    intro name' r' hr'
    rw [Std.TreeMap.getElem?_insert]
    split
    · next heq =>
      obtain rfl := Std.LawfulEqCmp.eq_of_compare heq
      obtain ⟨-, d', hd', hname', hfields'⟩ := hs name r' hr'
      obtain rfl := Option.some.inj (hd.symm.trans hd')
      obtain ⟨rname, rfields⟩ := r'
      obtain rfl : rname = name := hname'
      rw [entries_unique hfields hfields']
    · exact hr'
  refine ⟨fun name' r' hr' => ?_, hwithin⟩
  rw [Std.TreeMap.getElem?_insert] at hr'
  split at hr'
  · next heq =>
    obtain rfl := Std.LawfulEqCmp.eq_of_compare heq
    obtain rfl := Option.some.inj hr'
    exact ⟨hname, d, hd, rfl, hwithin.all_stand hfields⟩
  · obtain ⟨hname', d', hd', heq, hfields'⟩ := hs name' r' hr'
    exact ⟨hname', d', hd', heq, hwithin.all_stand hfields'⟩

/-- Entries that are made field by field stand for the fields, also when sorts grow on the way. -/
theorem fields_meet {E : Error → Prop}
    {step : Sorts × List (String × SmtSort) → FieldDefinition →
      Result (Sorts × List (String × SmtSort))} {fields : List FieldDefinition}
    (hstep : ∀ s entries, s.Faithful p → ∀ f ∈ fields, Meets E (fun out =>
      s.Grown p out.1 ∧ ∃ entry, out.2 = entries ++ [entry] ∧ out.1.Stands f entry)
      (step (s, entries) f))
    (hs : s.Faithful p) (entries : List (String × SmtSort)) :
    Meets E (fun out => s.Grown p out.1 ∧
      ∃ more, out.2 = entries ++ more ∧ List.Forall₂ out.1.Stands fields more)
      (fields.foldlM step (s, entries)) := by
  induction fields generalizing s entries with
  | nil => exact .pure ⟨⟨hs, .refl⟩, [], (List.append_nil _).symm, .nil⟩
  | cons f fields ih =>
      rw [List.foldlM_cons]
      refine (hstep s entries hs f List.mem_cons_self).bind ?_
      rintro ⟨t, _⟩ ⟨ht, entry, rfl, hentry⟩
      have hrest := ih (fun s entries hs f hf => hstep s entries hs f (List.mem_cons_of_mem _ hf))
        ht.1 (entries ++ [entry])
      refine hrest.imp ?_
      rintro ⟨u, _⟩ ⟨hu, more, rfl, hmore⟩
      exact ⟨ht.trans hu, entry :: more, by simp, .cons (hu.2.stands hentry) hmore⟩

/-- A record is added for a type, or something is wrong inside it. -/
theorem addRecord_meets {depth : Nat} {name : String} {around : List String} (hs : s.Faithful p)
    (hname : p.Embedded name) (hchain : p.Chain around name)
    (hdepth : around.length + depth = p.types.size + 1) :
    Meets p.NestingFault (fun out => s.Grown p out.1 ∧ out.1.records[name]? = some out.2)
      (addRecord p depth s name) := by
  induction depth generalizing s name around with
  | zero =>
      unfold addRecord
      split
      · next r hr => exact ⟨⟨hs, .refl⟩, hr⟩
      · obtain ⟨cycle, hcycle, hself, hreach⟩ := hchain.exists_recursive (by omega)
        exact .cyclic cycle name hcycle hself hreach
  | succ depth ih =>
      unfold addRecord
      split
      · next r hr => exact ⟨⟨hs, .refl⟩, hr⟩
      · cases hd : p.type? name with
        | none =>
            simp only [Program.requireType, hd]
            exact .missing name hname hd
        | some d =>
            simp only [Program.requireType, hd]
            refine (fields_meet (fun s entries hs f hf => ?_) hs []).bind ?_
            · dsimp only
              split
              · next inner htype =>
                have hin := Program.contains_of_mem hd hf htype
                have hinner := ih hs (hname.contains hin) (hchain.cons hname hin) (by simp; omega)
                refine hinner.bind ?_
                rintro ⟨t, r⟩ ⟨ht, hr⟩
                refine .pure ⟨ht, _, rfl, rfl, ?_⟩
                rw [htype]
                exact sort_struct_eq_ok.mpr ⟨r, hr, rfl⟩
              · next hother =>
                refine ((sort_meets (s := s) hother).eq_ok.weaken ?_).bind fun v hv =>
                  .pure ⟨⟨hs, .refl⟩, _, rfl, rfl, hv⟩
                rintro _ ⟨hvoid, rfl⟩
                exact .void name d f hname hd hf hvoid
            · rintro ⟨t, entries⟩ ⟨ht, more, hmore, hstand⟩
              obtain rfl : entries = more := hmore
              refine .pure ⟨ht.trans (ht.1.insert hname hd hstand), ?_⟩
              exact Std.TreeMap.getElem?_insert_self

/-- The records of several types are added one after the other, and stay. -/
theorem records_meet {structs : List TypeDefinition} (hembedded : ∀ d ∈ structs, p.Embedded d.name)
    (hs : s.Faithful p) :
    Meets p.NestingFault (fun t => s.Grown p t ∧ ∀ d ∈ structs, d.name ∈ t.records)
      (structs.foldlM (fun s d => do return (← addRecord p (p.types.size + 1) s d.name).1) s) := by
  induction structs generalizing s with
  | nil => exact .pure ⟨⟨hs, .refl⟩, by simp⟩
  | cons d structs ih =>
      obtain ⟨hd, hstructs⟩ := List.forall_mem_cons.mp hembedded
      rw [List.foldlM_cons, bind_assoc]
      refine (addRecord_meets hs hd .nil (by simp)).bind fun ⟨t, r⟩ ⟨ht, hr⟩ => ?_
      refine (ih hstructs ht.1).imp fun u ⟨hu, hothers⟩ => ⟨ht.trans hu, ?_⟩
      have hd : d.name ∈ u.records := mem_iff_exists_getElem?.mpr ⟨r, hu.2 _ r hr⟩
      exact List.forall_mem_cons.mpr ⟨hd, hothers⟩

/-- All value types of a program get their records, or something is wrong inside one of them. -/
theorem ofProgram_meets : Meets p.NestingFault (fun s => s.Faithful p ∧
    ∀ d ∈ p.typeList, d.kind = .struct → d.name ∈ s.records) (ofProgram p) := by
  have hempty : Faithful {} p := fun name r hr => by simp at hr
  refine (records_meet (fun d hd => ?_) hempty).imp fun s ⟨hs, hmem⟩ => ⟨hs.1, fun d hd hkind => ?_⟩
  · obtain ⟨hd, hkind⟩ := List.mem_filter.mp hd
    exact Program.embedded_of_mem hd (of_decide_eq_true hkind)
  · exact hmem d (List.mem_filter.mpr ⟨hd, decide_eq_true hkind⟩)

/-! ## What records say of their program -/

/-- Inside a record are the records of what its type contains. -/
theorem Faithful.contained (hs : s.Faithful p) {outer inner : String} {r : Record}
    (hr : s.records[outer]? = some r) (hin : p.Contains outer inner) :
    ∃ r' : Record, s.records[inner]? = some r' ∧ sizeOf r'.sort < sizeOf r.sort := by
  obtain ⟨d, hd, f, hf, htype⟩ := hin
  obtain ⟨-, d', hd', -, hfields⟩ := hs outer r hr
  obtain rfl := Option.some.inj (hd.symm.trans hd')
  obtain ⟨⟨name, v⟩, hentry, -, hv⟩ := forall₂_exists_of_mem_left hfields hf
  rw [htype] at hv
  obtain ⟨r', hr', rfl⟩ := sort_struct_eq_ok.mp hv
  have hlt := List.sizeOf_lt_of_mem hentry
  refine ⟨r', hr', ?_⟩
  simp only [Prod.mk.sizeOf_spec] at hlt
  simp only [Record.sort, SmtSort.record.sizeOf_spec] at hlt ⊢
  omega

theorem Faithful.contained_trans (hs : s.Faithful p) {outer inner : String} {r : Record}
    (hr : s.records[outer]? = some r) (hin : TransGen p.Contains outer inner) :
    ∃ r' : Record, s.records[inner]? = some r' ∧ sizeOf r'.sort < sizeOf r.sort := by
  induction hin with
  | single hin => exact hs.contained hr hin
  | tail _ hin ih =>
      obtain ⟨r', hr', hlt⟩ := ih
      obtain ⟨r'', hr'', hlt'⟩ := hs.contained hr' hin
      exact ⟨r'', hr'', Nat.lt_trans hlt' hlt⟩

/-- What value types are made of has records when they have. -/
theorem Faithful.exists_record (hs : s.Faithful p)
    (hstructs : ∀ d ∈ p.typeList, d.kind = .struct → d.name ∈ s.records) {name : String}
    (hname : p.Embedded name) : ∃ r : Record, s.records[name]? = some r := by
  obtain ⟨d, hd, hkind, hreach⟩ := hname
  obtain ⟨r, hr⟩ := mem_iff_exists_getElem?.mp (hstructs d hd hkind)
  rcases reflTransGen_iff_eq_or_transGen.mp hreach with rfl | htrans
  · exact ⟨r, hr⟩
  · obtain ⟨r', hr', -⟩ := hs.contained_trans hr htrans
    exact ⟨r', hr'⟩

/-- Records can be built only where they are finite. -/
theorem Faithful.wellNested (hs : s.Faithful p)
    (hstructs : ∀ d ∈ p.typeList, d.kind = .struct → d.name ∈ s.records) : p.WellNested where
  defined name hname := by
    obtain ⟨r, hr⟩ := hs.exists_record hstructs hname
    obtain ⟨-, d, hd, -⟩ := hs name r hr
    exact ⟨d, hd⟩
  acyclic name hname hself := by
    obtain ⟨r, hr⟩ := hs.exists_record hstructs hname
    obtain ⟨r', hr', hlt⟩ := hs.contained_trans hr hself
    obtain rfl := Option.some.inj (hr.symm.trans hr')
    exact Nat.lt_irrefl _ hlt
  inhabited name d hname hd f hf hvoid := by
    obtain ⟨r, hr⟩ := hs.exists_record hstructs hname
    obtain ⟨-, d', hd', -, hfields⟩ := hs name r hr
    obtain rfl := Option.some.inj (hd.symm.trans hd')
    obtain ⟨entry, -, -, hentry⟩ := forall₂_exists_of_mem_left hfields hf
    rw [hvoid] at hentry
    cases hentry

/-- **Sorts are built exactly for value types that can be laid out**: those that hold defined types
only, none of which is inside itself, and no void. They then have the records of the value types and
of all that is inside them; the record of a value type has its name and its instance fields in the
order of declaration, each with the sort of its type. Whatever is wrong otherwise is reported. -/
theorem ofProgram_builds (hp : p.Named) :
    ((∃ s, ofProgram p = .ok s) ↔ p.WellNested) ∧
      (∀ e, ofProgram p = .error e → p.NestingFault e ∧ e.isFault = false) ∧
      ∀ s, ofProgram p = .ok s → (∀ name, name ∈ s.records ↔ p.Embedded name) ∧
        ∀ d ∈ p.typeList, d.kind = .struct →
          ∃ r : Record, s.sort (.struct d.name) = .ok r.sort ∧ s.Describes d r := by
  have hmeets := ofProgram_meets (p := p)
  refine ⟨⟨fun ⟨s, hs⟩ => ?_, fun hnested => ?_⟩, fun e he => ?_, fun s hs => ⟨fun name => ?_,
    fun d hd hkind => ?_⟩⟩
  · obtain ⟨hfaithful, hstructs⟩ := hmeets.value hs
    exact hfaithful.wellNested hstructs
  · cases hresult : ofProgram p with
    | error e => exact absurd hnested (hmeets.error hresult).not_wellNested
    | ok s => exact ⟨s, rfl⟩
  · exact ⟨hmeets.error he, (hmeets.error he).not_fault⟩
  · obtain ⟨hfaithful, hstructs⟩ := hmeets.value hs
    rw [mem_iff_exists_getElem?]
    exact ⟨fun ⟨r, hr⟩ => (hfaithful name r hr).1, hfaithful.exists_record hstructs⟩
  · obtain ⟨hfaithful, hstructs⟩ := hmeets.value hs
    obtain ⟨r, hr⟩ := mem_iff_exists_getElem?.mp (hstructs d hd hkind)
    obtain ⟨-, d', hd', hname, hfields⟩ := hfaithful d.name r hr
    have hkept : p.type? d.name = some d := by
      obtain ⟨key, hkey⟩ := mem_values.mp hd
      rwa [hp key d hkey]
    obtain rfl := Option.some.inj (hkept.symm.trans hd')
    exact ⟨r, sort_struct_eq_ok.mpr ⟨r, hr, rfl⟩, hname, hfields⟩

/-- A box has a corner, and points have a static field of their own type. -/
def boxed : Program :=
  ((Program.empty "Game").addType ⟨"Point", .struct, none,
    [⟨"x", .single, false⟩, ⟨"y", .single, false⟩, ⟨"zero", .struct "Point", true⟩]⟩).addType
    ⟨"Box", .struct, none, [⟨"corner", .struct "Point", false⟩, ⟨"count", .int32, false⟩]⟩

theorem boxed_builds : boxed.Named ∧ boxed.WellNested ∧ ∃ s, ofProgram boxed = .ok s ∧
    (∀ name, name ∈ s.records ↔ boxed.Embedded name) ∧ s.sort (.struct "Box") =
      .ok (.record "Box" [("corner", .record "Point" [("x", .real), ("y", .real)]),
        ("count", .bitVec 32)]) ∧
    ∀ d ∈ boxed.typeList, d.kind = .struct →
      ∃ r : Record, s.sort (.struct d.name) = .ok r.sort ∧ s.Describes d r := by
  have hnamed : boxed.Named := ((Program.named_empty _).addType _).addType _
  obtain ⟨hiff, -, hrecords⟩ := ofProgram_builds hnamed
  have hs : ∃ s, ofProgram boxed = .ok s ∧ s.sort (.struct "Box") = .ok (.record "Box"
      [("corner", .record "Point" [("x", .real), ("y", .real)]), ("count", .bitVec 32)]) :=
    ⟨_, rfl, rfl⟩
  obtain ⟨s, hs, hbox⟩ := hs
  obtain ⟨hnames, hdescribed⟩ := hrecords s hs
  exact ⟨hnamed, hiff.mp ⟨s, hs⟩, s, hs, hnames, hbox, hdescribed⟩

/-- A value type that is inside itself is refused, at whatever depth that shows. -/
example : (ofProgram (((Program.empty "Game").addType ⟨"A", .struct, none,
    [⟨"b", .struct "B", false⟩]⟩).addType ⟨"B", .struct, none, [⟨"a", .struct "A", false⟩]⟩)).map
      (fun s => s.records.keys) = .error (.unsupported "recursive value type B") := by
  rfl

end Sorts

end PlayerPaths
