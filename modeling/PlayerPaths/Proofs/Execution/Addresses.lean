import PlayerPaths.Execution.State
import PlayerPaths.Proofs.Computation
import PlayerPaths.Proofs.Number.Numerals

/-!
# Addresses of calls and of frames

A text that is read as an address of the result of a call was written for one: the first two
segments of such a text are `symcall` and the number of the call, whatever the names in an address
look like (`Address.root_of_read?`). So the numbers of the calls that a formula is about can be read
off its variables, and an address is *below* a number when it starts from no call with that number
or a later one.

The texts of the slots of a frame begin alike (`Address.frameStart`). Names may hold anything, also
separators, so a text may have been written for more than one address. But no name stands before the
depth of a frame, and the depth ends with a separator; so the beginning tells the frame
(`Address.frame?_eq_some_iff`). A name that spells it stands too far behind, and depths that begin
with the same digits part at the separator.
-/

namespace PlayerPaths

namespace Text

variable {separator : Char} {p rest : List Char}

theorem pieces_append (h : separator ∉ p) :
    pieces separator (p ++ separator :: rest) = p :: pieces separator rest := by
  induction p with
  | nil => simp [pieces]
  | cons c p ih =>
      obtain ⟨hc, hp⟩ := not_or.mp (List.mem_cons.not.mp h)
      rw [List.cons_append, pieces, if_neg (Ne.symm hc), ih hp]

theorem pieces_self (h : separator ∉ p) : pieces separator p = [p] := by
  induction p with
  | nil => rfl
  | cons c p ih =>
      obtain ⟨hc, hp⟩ := not_or.mp (List.mem_cons.not.mp h)
      rw [pieces, if_neg (Ne.symm hc), ih hp]

/-- A text is cut at every separator. -/
theorem not_mem_of_mem_pieces {cs : List Char} (h : p ∈ pieces separator cs) : separator ∉ p := by
  induction cs generalizing p with
  | nil =>
      obtain rfl := List.mem_singleton.mp h
      exact List.not_mem_nil
  | cons c cs ih =>
      unfold pieces at h
      split at h
      · rcases List.mem_cons.mp h with rfl | h
        · exact List.not_mem_nil
        · exact ih h
      · next hc =>
        split at h
        · obtain rfl := List.mem_singleton.mp h
          simpa using Ne.symm hc
        · next q qs hpieces =>
          rcases List.mem_cons.mp h with rfl | h
          · have hq : separator ∉ q := ih (hpieces ▸ List.mem_cons_self)
            simpa using ⟨Ne.symm hc, hq⟩
          · exact ih (hpieces ▸ List.mem_cons_of_mem _ h)

/-- A number is read from its own numeral only. -/
theorem eq_of_readNumeral?_toString {limit n k : Nat}
    (h : readNumeral? limit (toString n) = some k) : k = n := by
  have hlarge {l l' : Nat} {s : String} (hl : l ≤ l') (h : readNumeral? l s = some k) :
      readNumeral? l' s = some k := by
    simp only [readNumeral?, Option.ite_none_left_eq_some, Option.ite_none_right_eq_some] at h ⊢
    exact ⟨h.1, Nat.lt_of_lt_of_le h.2.1 hl, h.2.2⟩
  have hn : readNumeral? (limit + n + 1) (toString n) = some n :=
    readNumeral?_toString (by omega)
  exact Option.some.inj ((hlarge (by omega) h).symm.trans hn)

end Text

namespace Address

variable {a b : Address} {n : Nat}

def pieces (s : String) : List String := (Text.pieces ':' s.toList).map String.ofList

theorem pieces_intercalate {segment : String} (segments : List String)
    (h : ':' ∉ segment.toList) :
    ∃ rest, pieces (":".intercalate (segment :: segments)) = segment :: rest ∧
      ∀ next more, segments = next :: more → rest = pieces (":".intercalate segments) := by
  cases segments with
  | nil =>
      refine ⟨[], ?_, by simp⟩
      rw [pieces, String.intercalate_singleton, Text.pieces_self h]
      simp
  | cons next more =>
      refine ⟨pieces (":".intercalate (next :: more)), ?_, fun _ _ _ => rfl⟩
      have hchars : (":".intercalate (segment :: next :: more)).toList =
          segment.toList ++ ':' :: (":".intercalate (next :: more)).toList := by
        simp [String.intercalate_cons_cons]
      rw [pieces, hchars, Text.pieces_append h]
      simp [pieces]

/-- The text of a slot of a frame, or of what is reached from it. -/
theorem text_frame (depth : Nat) (slot : FrameSlot) (suffixes : List Suffix) :
    (Address.mk (.frame depth slot) suffixes).text =
      frameStart depth ++ ":".intercalate (slot.segments ++ suffixes.flatMap Suffix.segments) := by
  have hframe : "frame:" = "frame" ++ ":" := by decide
  have hne : slot.segments ++ suffixes.flatMap Suffix.segments ≠ [] := by
    cases slot <;> simp [FrameSlot.segments]
  obtain ⟨segment, segments, hsegments⟩ := List.exists_cons_of_ne_nil hne
  simp only [text, Address.segments, Root.segments, List.cons_append, hsegments, frameStart, hframe,
    String.intercalate_cons_cons, String.append_assoc]

theorem readRoot?_symcall {segments rest : List String} {id : Nat}
    (h : readRoot? segments = some (.symcall id, rest)) :
    ∃ numeral, segments = "symcall" :: numeral :: rest ∧ number? numeral = some id := by
  unfold readRoot? at h
  split at h
  · simp only [Option.bind_eq_bind, Option.bind_eq_some_iff] at h
    obtain ⟨depth, -, h⟩ := h
    split at h <;> simp [Option.bind_eq_some_iff] at h
  · simp at h
  · next numeral rest' =>
    simp only [Option.bind_eq_bind, Option.bind_eq_some_iff, Option.pure_def, Option.some.injEq,
      Prod.mk.injEq, Root.symcall.injEq] at h
    obtain ⟨id', hid, rfl, rfl⟩ := h
    exact ⟨numeral, rfl, hid⟩
  · simp at h
  · simp [Option.bind_eq_some_iff] at h
  · cases h

/-- An address that is read from the text of another one starts from a call only if the other one
starts from the same call. -/
theorem root_of_read? {id : Nat} (h : read? a.text = some b) (hb : b.root = .symcall id) :
    a.root = .symcall id := by
  obtain ⟨rest, hroot⟩ : ∃ rest, readRoot? (pieces a.text) = some (.symcall id, rest) := by
    simp only [read?, Option.bind_eq_bind, Option.bind_eq_some_iff, Option.pure_def,
      Option.some.injEq, Prod.exists] at h
    obtain ⟨root, rest, hroot, suffixes, -, rfl⟩ := h
    exact ⟨rest, hb ▸ hroot⟩
  obtain ⟨segment, next, more, htext, hsegment, hfirst⟩ : ∃ segment next more,
      a.text = ":".intercalate (segment :: next :: more) ∧ ':' ∉ segment.toList ∧
        (segment = "symcall" → ∃ k, a.root = .symcall k ∧ next = toString k) := by
    obtain ⟨root, suffixes⟩ := a
    cases root with
    | frame depth slot => exact ⟨"frame", _, _, rfl, by decide, by simp⟩
    | staticField signature => exact ⟨"staticfield", _, _, rfl, by decide, by simp⟩
    | symcall k => exact ⟨"symcall", _, _, rfl, by decide, fun _ => ⟨k, rfl, rfl⟩⟩
    | special name => exact ⟨"special", _, _, rfl, by decide, by simp⟩
    | heap k => exact ⟨"heap", _, _, rfl, by decide, by simp⟩
  obtain ⟨others, hpieces, hothers⟩ := pieces_intercalate (next :: more) hsegment
  obtain ⟨numeral, heq, hnumeral⟩ := readRoot?_symcall (htext ▸ hroot)
  rw [hpieces] at heq
  obtain ⟨rfl, rfl⟩ := List.cons.inj heq
  obtain ⟨k, hk, rfl⟩ := hfirst rfl
  have hdigits : ':' ∉ (toString k).toList := fun hmem =>
    absurd (Text.isDigit_of_mem_toString hmem) (by decide)
  obtain ⟨_, hsecond, -⟩ := pieces_intercalate more hdigits
  rw [← hothers _ _ rfl] at hsecond
  obtain ⟨rfl, -⟩ := List.cons.inj hsecond
  rw [hk, Text.eq_of_readNumeral?_toString hnumeral]

/-- The number of a call in a text fits a word. -/
theorem lt_limit_of_read? {name : String} {id : Nat} (h : read? name = some a)
    (ha : a.root = .symcall id) : id < Word.limit := by
  obtain ⟨rest, hroot⟩ : ∃ rest, readRoot? (pieces name) = some (.symcall id, rest) := by
    simp only [read?, Option.bind_eq_bind, Option.bind_eq_some_iff, Option.pure_def,
      Option.some.injEq, Prod.exists] at h
    obtain ⟨root, rest, hroot, suffixes, -, rfl⟩ := h
    exact ⟨rest, ha ▸ hroot⟩
  obtain ⟨numeral, -, hnumeral⟩ := readRoot?_symcall hroot
  simp only [number?, Text.readNumeral?, Option.ite_none_left_eq_some,
    Option.ite_none_right_eq_some] at hnumeral
  obtain ⟨-, hlt, heq⟩ := hnumeral
  exact Option.some.inj heq ▸ hlt

/-- The result of a call with a number that fits a word is read back from its text. -/
theorem read?_symcall {id : Nat} (h : id < Word.limit) :
    read? (symcall id).text = some (symcall id) := by
  have hdigits : ':' ∉ (toString id).toList := fun hmem =>
    absurd (Text.isDigit_of_mem_toString hmem) (by decide)
  have hsegment : ':' ∉ "symcall".toList := by decide
  obtain ⟨rest, hpieces, hrest⟩ := pieces_intercalate [toString id] hsegment
  have hlast : pieces (":".intercalate [toString id]) = [toString id] := by
    rw [pieces, String.intercalate_singleton, Text.pieces_self hdigits, List.map_singleton,
      String.ofList_toList]
  have hsegments : pieces (symcall id).text = ["symcall", toString id] := by
    rw [hrest _ _ rfl, hlast] at hpieces
    exact hpieces
  have hroot : readRoot? (pieces (symcall id).text) = some (.symcall id, []) := by
    rw [hsegments]
    have hnumber : number? (toString id) = some id := Text.readNumeral?_toString h
    simp only [readRoot?, hnumber]
    rfl
  exact Option.bind_eq_some_iff.mpr ⟨(.symcall id, []), hroot, rfl⟩

/-- An address that starts from no call with a number or a later one. -/
def Below (n : Nat) (a : Address) : Prop := ∀ id, a.root = .symcall id → id < n

theorem Below.mono {k : Nat} (h : a.Below n) (hle : n ≤ k) : a.Below k :=
  fun id hid => Nat.lt_of_lt_of_le (h id hid) hle

theorem Below.of_root (h : a.Below n) (hroot : b.root = a.root) : b.Below n := by
  intro id hid
  exact h id (hroot ▸ hid)

/-- A text that is read as no address of the result of a call with a number or a later one. -/
def NameBelow (n : Nat) (name : String) : Prop := ∀ a, read? name = some a → a.Below n

/-- What is read from the text of an address is below what the address is below. -/
theorem Below.name (h : a.Below n) : NameBelow n a.text :=
  fun _ hb id hid => h id (root_of_read? hb hid)

theorem below_symcall {id : Nat} (h : id < n) : (symcall id).Below n := by
  intro id' hid
  obtain rfl := Root.symcall.inj hid
  exact h

/-! ## Addresses of a frame -/

variable {depth : Nat}

/-- The depth of the frame that an address starts from. -/
def frame? (a : Address) : Option Nat :=
  match a.root with
  | .frame depth _ => some depth
  | _ => none

theorem separator_not_mem_toString (n : Nat) : ':' ∉ (toString n).toList := fun hmem =>
  absurd (Text.isDigit_of_mem_toString hmem) (by decide)

/-- What begins like the slots of a frame has the keyword and the depth as its first pieces. -/
theorem pieces_of_frameStart {s : String} (h : (frameStart depth).toList <+: s.toList) :
    ∃ rest, pieces s = "frame" :: toString depth :: rest := by
  obtain ⟨rest, hrest⟩ := h
  have hchars : s.toList =
      "frame".toList ++ ':' :: ((toString depth).toList ++ ':' :: rest) := by
    rw [← hrest]
    simp [frameStart]
  refine ⟨(Text.pieces ':' rest).map String.ofList, ?_⟩
  rw [pieces, hchars, Text.pieces_append (by decide),
    Text.pieces_append (separator_not_mem_toString depth), List.map_cons, List.map_cons,
    String.ofList_toList, String.ofList_toList]

/-- Only the texts of the slots of a frame begin with the keyword, and then with its depth. -/
theorem frame_of_pieces {numeral : String} {rest : List String}
    (h : pieces a.text = "frame" :: numeral :: rest) :
    ∃ depth, a.frame? = some depth ∧ numeral = toString depth := by
  -- The first piece is the keyword of the root.
  have hkeyword : ∀ {keyword : String} (segments : List String),
      a.text = ":".intercalate (keyword :: segments) → ':' ∉ keyword.toList → keyword = "frame" := by
    intro keyword segments htext hplain
    obtain ⟨others, hpieces, -⟩ := pieces_intercalate segments hplain
    rw [← htext, h] at hpieces
    exact (List.cons.inj hpieces).1.symm
  obtain ⟨root, suffixes⟩ := a
  cases root with
  | frame depth slot =>
      refine ⟨depth, rfl, ?_⟩
      have hframe : ':' ∉ "frame".toList := by decide
      obtain ⟨others, hpieces, hothers⟩ := pieces_intercalate
        (toString depth :: (slot.segments ++ suffixes.flatMap Suffix.segments)) hframe
      obtain ⟨more, hsecond, -⟩ := pieces_intercalate
        (slot.segments ++ suffixes.flatMap Suffix.segments) (separator_not_mem_toString depth)
      rw [hothers _ _ rfl, hsecond] at hpieces
      obtain ⟨-, htail⟩ := List.cons.inj (h.symm.trans hpieces)
      exact (List.cons.inj htail).1
  | staticField | symcall | special | heap =>
      exact absurd (hkeyword _ rfl (by decide)) (by decide)

/-- **The beginning of its text tells the frame of an address**, whatever its names are. -/
theorem frame?_eq_some_iff :
    a.frame? = some depth ↔ (frameStart depth).toList <+: a.text.toList := by
  constructor
  · intro h
    obtain ⟨root, suffixes⟩ := a
    cases root with
    | frame depth' slot =>
        obtain rfl := Option.some.inj h
        rw [text_frame, String.toList_append]
        exact List.prefix_append _ _
    | _ => cases h
  · intro h
    obtain ⟨rest, hpieces⟩ := pieces_of_frameStart h
    obtain ⟨depth', hframe, hnumeral⟩ := frame_of_pieces hpieces
    rw [hframe, Text.toString_injective hnumeral]

/-- Addresses with one text start from one frame, or from none. -/
theorem frame?_congr (h : a.text = b.text) : a.frame? = b.frame? := by
  refine Option.ext fun depth => ?_
  rw [frame?_eq_some_iff, frame?_eq_some_iff, h]

end Address

end PlayerPaths
