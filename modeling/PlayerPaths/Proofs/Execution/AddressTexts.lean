import PlayerPaths.Proofs.Execution.Addresses
import PlayerPaths.Proofs.Execution.Memory
import Std.Data.String.ToNat

/-!
# Texts of addresses

Memory knows its slots by the texts of their addresses. The segments of an address determine it
(`Address.segments_inj`), and its text determines the segments if no name in it has a separator
(`Address.text_inj`). Whatever the address of an object looks like, its fields have different texts
when they have different names (`Address.field_text_inj`).

Texts are read from the front, and the segments so far say what the next one is: a keyword, a number
or a name. So names may look like keywords, and the text of an address without separators in its
names is read back (`Address.text_faithful`).
-/

namespace PlayerPaths

open IL

namespace Address

variable {a b : Address}

/-! ## Segments -/

/-- The first segment says how many segments belong to the root. -/
theorem root_segments_inj {r r' : Root} {xs ys : List String}
    (h : r.segments ++ xs = r'.segments ++ ys) : r = r' ∧ xs = ys := by
  cases r with
  | frame depth slot =>
      cases r' with
      | frame depth' slot' =>
          cases slot <;> cases slot' <;> simp_all [Root.segments, FrameSlot.segments]
      | _ => simp [Root.segments] at h
  | _ => cases r' <;> simp_all [Root.segments]

theorem suffix_segments_inj {xs ys : List Suffix}
    (h : xs.flatMap Suffix.segments = ys.flatMap Suffix.segments) : xs = ys := by
  induction xs generalizing ys with
  | nil =>
      cases ys with
      | nil => rfl
      | cons y ys => cases y <;> simp [Suffix.segments] at h
  | cons x xs ih =>
      cases ys with
      | nil => cases x <;> simp [Suffix.segments] at h
      | cons y ys =>
          cases x <;> cases y <;> simp only [List.flatMap_cons, Suffix.segments, List.cons_append,
            List.nil_append, List.cons.injEq, true_and, String.reduceEq, false_and] at h
          · rw [h.1, ih h.2]
          · rw [ih h]
          · rw [ih h]

theorem segments_inj (h : a.segments = b.segments) : a = b := by
  obtain ⟨r, xs⟩ := a
  obtain ⟨r', ys⟩ := b
  obtain ⟨hroot, hsuffixes⟩ :
      r = r' ∧ xs.flatMap Suffix.segments = ys.flatMap Suffix.segments := root_segments_inj h
  obtain rfl : xs = ys := suffix_segments_inj hsuffixes
  rw [hroot]

/-! ## Texts -/

/-- No segment has a separator. -/
def Plain (a : Address) : Prop := ∀ s ∈ a.segments, ':' ∉ s.toList

theorem segments_ne_nil (a : Address) : a.segments ≠ [] := by
  obtain ⟨r, xs⟩ := a
  cases r <;> simp [segments, Root.segments]

theorem pieces_text (h : a.Plain) : pieces a.text = a.segments := by
  have key : ∀ segments : List String, segments ≠ [] → (∀ s ∈ segments, ':' ∉ s.toList) →
      pieces (":".intercalate segments) = segments := by
    intro segments
    induction segments with
    | nil => simp
    | cons s segments ih =>
        intro _ hplain
        obtain ⟨hs, hrest⟩ := List.forall_mem_cons.mp hplain
        obtain ⟨rest, hpieces, htail⟩ := pieces_intercalate segments hs
        cases segments with
        | nil =>
            rw [pieces, String.intercalate_singleton, Text.pieces_self hs]
            simp
        | cons next more =>
            rw [hpieces, htail next more rfl, ih (by simp) hrest]
  exact key a.segments (segments_ne_nil a) h

/-- **Addresses without separators in their names are told apart by their texts.** -/
theorem text_inj (ha : a.Plain) (hb : b.Plain) : a.text = b.text ↔ a = b := by
  refine ⟨fun h => segments_inj ?_, fun h => by rw [h]⟩
  rw [← pieces_text ha, ← pieces_text hb, h]

theorem text_extend (a : Address) (s : Suffix) :
    (a.extend s).text = a.text ++ ":" ++ ":".intercalate s.segments := by
  have hsegments : (a.extend s).segments = a.segments ++ s.segments := by
    simp [segments, extend, List.flatMap_append]
  have hsuffix : s.segments ≠ [] := by cases s <;> simp [Suffix.segments]
  rw [text, hsegments, String.intercalate_append_of_ne_nil (segments_ne_nil a) hsuffix, text]

theorem text_field (a : Address) (name : String) :
    (a.field name).text = a.text ++ ":instancefield:" ++ name := by
  have hsuffix : ":".intercalate (Suffix.field name).segments = "instancefield:" ++ name := by
    rw [Suffix.segments, String.intercalate_cons_cons, String.intercalate_singleton]
    rfl
  have hkind : ":instancefield:" = ":" ++ "instancefield:" := rfl
  rw [field, text_extend, hsuffix, hkind]
  simp only [String.append_assoc]

theorem text_field_ne {name : String} : (a.field name).text ≠ a.text := by
  intro h
  have hlength := congrArg String.length (h ▸ text_field a name)
  have hkind : ":instancefield:".length = 15 := rfl
  simp only [String.length_append, hkind] at hlength
  omega

/-- The fields of an object are told apart by their names. -/
theorem field_text_inj {f g : String} : (a.field f).text = (a.field g).text ↔ f = g := by
  rw [text_field, text_field]
  exact String.append_right_inj _

theorem text_heapId (a : Address) : a.heapId.text = a.text ++ ":heapid" := by
  rw [heapId, text_extend, Suffix.segments, String.intercalate_singleton, String.append_assoc]
  rfl

/-- The name of the variable for the unknown value of a slot. -/
def variableName (a : Address) (t : Ty) : String := (if t.isReference then a.heapId else a).text

/-- The variables of two fields are told apart by the names of the fields, if these have no
separator. -/
theorem field_variableName_inj {f g : String} {t u : Ty} (hf : ':' ∉ f.toList)
    (hg : ':' ∉ g.toList) (h : (a.field f).variableName t = (a.field g).variableName u) :
    f = g := by
  -- Behind the part that they share, the names begin with the names of the fields.
  have hname : ∀ (name : String) (t : Ty), ':' ∉ name.toList → ∃ rest,
      (a.field name).variableName t = a.text ++ ":instancefield:" ++ rest ∧
        (pieces rest).head? = some name := by
    intro name t hplain
    unfold variableName
    split
    · refine ⟨name ++ ":heapid", ?_, ?_⟩
      · rw [text_heapId, text_field, String.append_assoc]
      · have hchars : (name ++ ":heapid").toList = name.toList ++ ':' :: "heapid".toList := by
          simp
        rw [pieces, hchars, Text.pieces_append hplain]
        simp
    · refine ⟨name, text_field a name, ?_⟩
      rw [pieces, Text.pieces_self hplain]
      simp
  obtain ⟨rest, hrest, hhead⟩ := hname f t hf
  obtain ⟨rest', hrest', hhead'⟩ := hname g u hg
  rw [hrest, hrest'] at h
  obtain rfl : rest = rest' := (String.append_right_inj _).mp h
  exact Option.some.inj (hhead.symm.trans hhead')

end Address

/-! ## Reading texts back -/

def FrameSlot.names : FrameSlot → List String
  | .local name | .stack name => [name]
  | .argument _ | .this => []

def Root.names : Root → List String
  | .frame _ slot => slot.names
  | .staticField name | .special name => [name]
  | .symcall _ | .heap _ => []

def Suffix.names : Suffix → List String
  | .field name => [name]
  | .length | .heapId => []

def FrameSlot.numbers : FrameSlot → List Nat
  | .argument index => [index]
  | .local _ | .this | .stack _ => []

def Root.numbers : Root → List Nat
  | .frame depth slot => depth :: slot.numbers
  | .symcall id | .heap id => [id]
  | .staticField _ | .special _ => []

namespace Address

variable {a b : Address}

/-- The names that the application chose. -/
def names (a : Address) : List String := a.root.names ++ a.suffixes.flatMap Suffix.names

/-- **No name has a separator**, and the numbers are sizes. A name may be empty, or a keyword. -/
structure Encodable (a : Address) : Prop where
  names : ∀ name ∈ a.names, ':' ∉ name.toList
  numbers : ∀ n ∈ a.root.numbers, n < Word.limit

/-- Keywords and numerals have no separator. -/
theorem plain_of_names (h : ∀ name ∈ a.names, ':' ∉ name.toList) : a.Plain := by
  have hnumeral : ∀ n : Nat, ':' ∉ (toString n).toList := fun n hmem =>
    absurd (Text.isDigit_of_mem_toString hmem) (by decide)
  obtain ⟨root, suffixes⟩ := a
  obtain ⟨hroot, hsuffixes⟩ := List.forall_mem_append.mp h
  refine List.forall_mem_append.mpr ⟨?_, List.forall_mem_flatMap.mpr fun suffix hsuffix => ?_⟩
  · rcases root with ⟨depth, _ | _ | _ | _⟩ | _ | _ | _ | _ <;>
      simp_all [Root.segments, FrameSlot.segments, Root.names, FrameSlot.names]
  · have hnames := List.forall_mem_flatMap.mp hsuffixes suffix hsuffix
    cases suffix <;> simp_all [Suffix.segments, Suffix.names]

/-- The root is read from its segments, whatever follows. -/
theorem readRoot?_segments {r : Root} (h : ∀ n ∈ r.numbers, n < Word.limit)
    (rest : List String) : readRoot? (r.segments ++ rest) = some (r, rest) := by
  have hnumber : ∀ {n : Nat}, n < Word.limit → number? n.repr = some n :=
    Text.readNumeral?_toString
  rcases r with ⟨depth, _ | index | _ | _⟩ | _ | id | _ | id
  case frame.argument =>
    have hdepth := hnumber (h depth (by simp [Root.numbers]))
    have hindex := hnumber (h index (by simp [Root.numbers, FrameSlot.numbers]))
    simp [Root.segments, FrameSlot.segments, readRoot?, hdepth, hindex]
  case symcall | heap =>
    have hid := hnumber (h id (by simp [Root.numbers]))
    simp [Root.segments, readRoot?, hid]
  case staticField | special => rfl
  all_goals
    have hdepth := hnumber (h depth (by simp [Root.numbers]))
    simp [Root.segments, FrameSlot.segments, readRoot?, hdepth]

/-- The first segment of a suffix says how many belong to it, so a name is not taken for a
keyword. -/
theorem readSuffixes?_segments (xs : List Suffix) :
    readSuffixes? (xs.flatMap Suffix.segments) = some xs := by
  induction xs with
  | nil => rfl
  | cons x xs ih => cases x <;> simp [Suffix.segments, readSuffixes?, ih]

/-- What is read from a text is made from its pieces. -/
theorem read?_eq_some {s : String} : read? s = some a ↔
    ∃ rest, readRoot? (pieces s) = some (a.root, rest) ∧ readSuffixes? rest = some a.suffixes := by
  have hread : read? s = (readRoot? (pieces s)).bind fun p =>
      (readSuffixes? p.2).bind fun suffixes => some ⟨p.1, suffixes⟩ := rfl
  obtain ⟨root, suffixes⟩ := a
  simp only [hread, Option.bind_eq_some_iff, Option.some.injEq, Address.mk.injEq, Prod.exists]
  constructor
  · rintro ⟨_, rest, hroot, _, hsuffixes, rfl, rfl⟩
    exact ⟨rest, hroot, hsuffixes⟩
  · rintro ⟨rest, hroot, hsuffixes⟩
    exact ⟨root, rest, hroot, suffixes, hsuffixes, rfl, rfl⟩

theorem Encodable.read?_text (h : a.Encodable) : read? a.text = some a := by
  refine read?_eq_some.mpr ⟨_, ?_, readSuffixes?_segments a.suffixes⟩
  rw [pieces_text (plain_of_names h.names)]
  exact readRoot?_segments h.numbers _

/-- The names of a root that is read are segments, and so is what is left. -/
theorem names_of_readRoot? {segments rest : List String} {r : Root}
    (h : readRoot? segments = some (r, rest)) (hplain : ∀ s ∈ segments, ':' ∉ s.toList) :
    (∀ name ∈ r.names, ':' ∉ name.toList) ∧ (∀ n ∈ r.numbers, n < Word.limit) ∧
      ∀ s ∈ rest, ':' ∉ s.toList := by
  have hnumber : ∀ {s : String} {n : Nat}, number? s = some n → n < Word.limit :=
    Text.readNumeral?_lt
  unfold readRoot? at h
  split at h
  · simp only [Option.bind_eq_bind, Option.bind_eq_some_iff] at h
    obtain ⟨depth, hdepth, h⟩ := h
    have hdepth := hnumber hdepth
    split at h
    case h_3 =>
      simp only [Option.bind_eq_some_iff, Option.pure_def, Option.some.injEq, Prod.mk.injEq] at h
      obtain ⟨index, hindex, rfl, rfl⟩ := h
      have hindex := hnumber hindex
      simp_all [Root.names, FrameSlot.names, Root.numbers, FrameSlot.numbers]
    case h_5 => cases h
    all_goals
      obtain ⟨rfl, rfl⟩ := Prod.mk.inj (Option.some.inj h)
      simp_all [Root.names, FrameSlot.names, Root.numbers, FrameSlot.numbers]
  case h_3 | h_5 =>
    simp only [Option.bind_eq_bind, Option.bind_eq_some_iff, Option.pure_def, Option.some.injEq,
      Prod.mk.injEq] at h
    obtain ⟨id, hid, rfl, rfl⟩ := h
    have hid := hnumber hid
    simp_all [Root.names, Root.numbers]
  case h_6 => cases h
  all_goals
    obtain ⟨rfl, rfl⟩ := Prod.mk.inj (Option.some.inj h)
    simp_all [Root.names, Root.numbers]

theorem names_of_readSuffixes? {segments : List String} {xs : List Suffix}
    (h : readSuffixes? segments = some xs) : xs.flatMap Suffix.names ⊆ segments := by
  induction segments using readSuffixes?.induct generalizing xs with
  | case1 =>
      obtain rfl := Option.some.inj h
      simp
  | case2 name rest ih =>
      obtain ⟨ys, hys, rfl⟩ := Option.map_eq_some_iff.mp h
      have hname : name :: ys.flatMap Suffix.names ⊆ name :: rest :=
        List.cons_subset_cons name (ih hys)
      exact List.subset_cons_of_subset _ hname
  | case3 rest ih =>
      obtain ⟨ys, hys, rfl⟩ := Option.map_eq_some_iff.mp h
      simpa [Suffix.names] using List.subset_cons_of_subset _ (ih hys)
  | case4 rest ih =>
      obtain ⟨ys, hys, rfl⟩ := Option.map_eq_some_iff.mp h
      simpa [Suffix.names] using List.subset_cons_of_subset _ (ih hys)
  | case5 => simp_all [readSuffixes?]

/-- A text that is read has an address without separators in its names. -/
theorem encodable_of_read? {s : String} (h : read? s = some a) : a.Encodable := by
  obtain ⟨rest, hroot, hsuffixes⟩ := read?_eq_some.mp h
  have hplain : ∀ piece ∈ pieces s, ':' ∉ piece.toList := by
    intro piece hpiece
    obtain ⟨p, hp, rfl⟩ := List.mem_map.mp hpiece
    simpa using Text.not_mem_of_mem_pieces hp
  obtain ⟨hnames, hnumbers, hrest⟩ := names_of_readRoot? hroot hplain
  exact ⟨List.forall_mem_append.mpr
    ⟨hnames, fun name hname => hrest name (names_of_readSuffixes? hsuffixes hname)⟩, hnumbers⟩

theorem read_eq_ok {s : String} : read s = .ok a ↔ read? s = some a := by
  unfold read
  cases h : read? s <;> simp

/-- **Texts are a faithful encoding of addresses** whose names have no separator: they are read
back, and so different addresses have different slots in memory. What is read from any text is such
an address. -/
theorem text_faithful :
    (∀ a : Address, a.Encodable → read a.text = .ok a) ∧
    (∀ a b : Address, a.Encodable → b.Encodable → a ≠ b → a.text ≠ b.text ∧
      ∀ (m : Memory) (sorts : Sorts) (t : Ty) (value : Formula),
        (m.write a value).read sorts b t = m.read sorts b t) ∧
    ∀ s a, read s = .ok a → read a.text = .ok a := by
  have hback : ∀ a : Address, a.Encodable → read a.text = .ok a :=
    fun a ha => read_eq_ok.mpr ha.read?_text
  refine ⟨hback, fun a b ha hb hne => ?_, fun s a h => ?_⟩
  · have htext : a.text ≠ b.text :=
      fun h => hne ((text_inj (plain_of_names ha.names) (plain_of_names hb.names)).mp h)
    exact ⟨htext, fun m sorts t value => Memory.read_write_of_ne htext⟩
  · exact hback a (encodable_of_read? (read_eq_ok.mp h))

/-- A field that is named like a keyword, behind one without a name. -/
def keywordField : Address :=
  ⟨.staticField "heapid", [.field "", .field "instancefield", .heapId]⟩

theorem keywordField_faithful :
    let index : Address := ⟨.frame 1 (.argument 7), [.heapId]⟩
    keywordField.text = "staticfield:heapid:instancefield::instancefield:instancefield:heapid" ∧
      read keywordField.text = .ok keywordField ∧ keywordField.text ≠ index.text ∧
      read "frame:+01:arg:007:heapid" = .ok index ∧ read index.text = .ok index := by
  intro index
  have hfield : keywordField.Encodable :=
    ⟨by simp [keywordField, names, Root.names, Suffix.names],
      by simp [keywordField, Root.numbers]⟩
  have hindex : index.Encodable :=
    ⟨by simp [index, names, Root.names, FrameSlot.names, Suffix.names],
      by simp [index, Root.numbers, FrameSlot.numbers, Word.limit]⟩
  have hread : read "frame:+01:arg:007:heapid" = .ok index := read_eq_ok.mpr (by decide +kernel)
  obtain ⟨hback, happart, hagain⟩ := text_faithful
  exact ⟨rfl, hback _ hfield, (happart _ _ hfield hindex (by decide)).1, hread, hagain _ _ hread⟩

end Address

end PlayerPaths
