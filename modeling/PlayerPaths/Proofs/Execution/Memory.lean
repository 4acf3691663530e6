import PlayerPaths.Execution.State
import PlayerPaths.Proofs.Execution.Addresses
import PlayerPaths.Proofs.Execution.Values

/-!
# Reads of memory

A read of a slot depends on what the slot holds and on the type that it is read at. A slot that
holds a value of the sort of the type, or nothing, can be read (`Memory.Holds.exists_read`), and
what is written there is read back.

Leaving a frame forgets its slots, which are known by the beginning of their texts, and keeps all
others (`State.pop_forgets_frame`).
-/

namespace PlayerPaths

open IL Formula Std

/-- The default value of a sort is found to have the sort. -/
theorem SmtSort.zero_sort (s : SmtSort) : s.zero.sort = .ok s := by
  cases s <;> rfl

namespace Memory

variable {m : Memory} {sorts : Sorts} {a b : Address} {t : Ty} {s : SmtSort} {value : Formula}

/-- A slot is void of a value, or holds one of a sort. -/
def Holds (m : Memory) (a : Address) (s : SmtSort) : Prop :=
  ∀ value, m.slots[a.text]? = some value → value.sort = .ok s

theorem read_of_written (h : m.slots[a.text]? = some value) : m.read sorts a t = .ok value := by
  simp [read, h]

/-- The slot of an object that was allocated starts out as zero. -/
theorem read_of_allocated (hs : sorts.sort t = .ok s) (h : m.slots[a.text]? = none)
    (ha : a.isHeap = true) : m.read sorts a t = .ok s.zero := by
  have hvoid : t.isVoid = false := by cases t <;> first | rfl | cases hs
  simp [read, h, hvoid, ha, hs]

/-- All other slots start out as a variable. -/
theorem read_of_unwritten (hs : sorts.sort t = .ok s) (h : m.slots[a.text]? = none)
    (ha : a.isHeap = false) :
    m.read sorts a t = .ok (.var (if t.isReference then a.heapId else a).text s) := by
  have hvoid : t.isVoid = false := by cases t <;> first | rfl | cases hs
  simp [read, freshValue, h, hvoid, ha, hs]

theorem Holds.exists_read (h : m.Holds a s) (hs : sorts.sort t = .ok s) :
    ∃ value, m.read sorts a t = .ok value ∧ value.sort = .ok s := by
  cases hslot : m.slots[a.text]? with
  | some value => exact ⟨value, read_of_written hslot, h value hslot⟩
  | none =>
      cases ha : a.isHeap with
      | true => exact ⟨s.zero, read_of_allocated hs hslot ha, s.zero_sort⟩
      | false => exact ⟨_, read_of_unwritten hs hslot ha, rfl⟩

/-- What is written to a slot is read back. -/
theorem read_write_self : (m.write a value).read sorts a t = .ok value :=
  read_of_written (by simp [write])

/-- A slot with another address is read as before. -/
theorem read_write_of_ne (h : a.text ≠ b.text) :
    (m.write a value).read sorts b t = m.read sorts b t := by
  have hslot : (m.write a value).slots[b.text]? = m.slots[b.text]? := by
    simp [write, Std.TreeMap.getElem?_insert, h]
  simp only [read, hslot]

/-! ## Forgetting frames -/

/-- Every slot is known by the text of an address. -/
def Addressed (m : Memory) : Prop := ∀ key ∈ m.slots, ∃ a : Address, a.text = key

theorem addressed_empty : ({} : Memory).Addressed := by
  simp [Addressed]

theorem Addressed.write (h : m.Addressed) (a : Address) (value : Formula) :
    (m.write a value).Addressed := by
  intro key hkey
  rw [Memory.write, TreeMap.mem_insert] at hkey
  rcases hkey with heq | hkey
  · exact ⟨a, LawfulEqCmp.eq_of_compare heq⟩
  · exact h key hkey

theorem getElem?_dropFrame (m : Memory) (depth : Nat) (key : String) :
    (m.dropFrame depth).slots[key]? =
      if (Address.frameStart depth).toList <+: key.toList then none else m.slots[key]? := by
  rw [dropFrame, TreeMap.getElem?_filter']
  by_cases hbegins : (Address.frameStart depth).toList <+: key.toList
  · have htest := List.isPrefixOf_iff_prefix.mpr hbegins
    rw [if_pos hbegins]
    cases m.slots[key]? <;> simp [htest]
  · have htest : (Address.frameStart depth).toList.isPrefixOf key.toList = false :=
      Bool.eq_false_iff.mpr (mt List.isPrefixOf_iff_prefix.mp hbegins)
    rw [if_neg hbegins]
    cases m.slots[key]? <;> simp [htest]

/-- The slots of a frame are dropped, and the others stay. -/
theorem getElem?_dropFrame_text (m : Memory) (depth : Nat) (a : Address) :
    (m.dropFrame depth).slots[a.text]? =
      if a.frame? = some depth then none else m.slots[a.text]? := by
  simp only [getElem?_dropFrame, Address.frame?_eq_some_iff]

theorem Addressed.dropFrame (h : m.Addressed) (depth : Nat) : (m.dropFrame depth).Addressed := by
  intro key hkey
  refine h key (TreeMap.mem_iff_isSome_getElem?.mpr ?_)
  rw [TreeMap.mem_iff_isSome_getElem?, getElem?_dropFrame] at hkey
  split at hkey
  · cases hkey
  · exact hkey

end Memory

namespace State

variable {D : Type} {s : State D} {f : Frame} {callers : List Frame}

/-- **Leaving a frame forgets exactly its slots.** Where every slot is known by the text of an
address, the slots that are gone are those whose address starts from the frame, of all addresses
with that text alike. The others keep their values, and nothing else changes. -/
theorem pop_forgets_frame (hframes : s.frames = f :: callers) (hs : s.memory.Addressed) :
    ∃ t, s.pop? = some (f, t) ∧ t = { s with frames := callers, memory := t.memory } ∧
      t.memory.Addressed ∧
      (∀ a : Address, t.memory.slots[a.text]? =
        if a.frame? = some f.depth then none else s.memory.slots[a.text]?) ∧
      ∀ key value, t.memory.slots[key]? = some value ↔
        s.memory.slots[key]? = some value ∧
          ∀ a : Address, a.text = key → a.frame? ≠ some f.depth := by
  have hpop : s.pop? =
      some (f, { s with frames := callers, memory := s.memory.dropFrame f.depth }) := by
    simp only [pop?, hframes]
  have hslot := s.memory.getElem?_dropFrame_text f.depth
  refine ⟨_, hpop, rfl, hs.dropFrame f.depth, hslot, fun key value => ⟨fun hvalue => ?_, ?_⟩⟩
  · have hkey : key ∈ (s.memory.dropFrame f.depth).slots :=
      TreeMap.mem_iff_isSome_getElem?.mpr (Option.isSome_of_eq_some hvalue)
    obtain ⟨a, rfl⟩ := hs.dropFrame f.depth key hkey
    rw [hslot a] at hvalue
    split at hvalue
    · cases hvalue
    · next hother =>
      exact ⟨hvalue, fun b hb => Address.frame?_congr hb ▸ hother⟩
  · rintro ⟨hvalue, hother⟩
    have hkey : key ∈ s.memory.slots :=
      TreeMap.mem_iff_isSome_getElem?.mpr (Option.isSome_of_eq_some hvalue)
    obtain ⟨a, rfl⟩ := hs key hkey
    show (s.memory.dropFrame f.depth).slots[a.text]? = some value
    rw [hslot a, if_neg (hother a rfl), hvalue]

/-- Slots of a frame at depth 1. The local with a separator in its name has the text of the length of
another one. -/
def innerSlots : List Address :=
  [(Address.this 1).field "speed", ⟨.frame 1 (.local "a:length"), []⟩, .argument 1 10]

/-- Slots that look like those: at depths that begin with the same digit, and with names that spell
the beginning of a slot. -/
def outerSlots : List Address :=
  [.this 10, .argument 0 1, ⟨.frame 12 (.stack "frame:1:this"), []⟩, .special "frame:1:this",
    (Address.heap 1).field "frame:1:", ⟨.staticField "frame", [.field "1:local:x"]⟩]

def innerMemory : Memory :=
  (innerSlots ++ outerSlots).foldl (fun m a => m.write a (.int 0)) {}

def inner : State Unit where
  frames :=
    let frame (name : String) (depth : Nat) : Frame :=
      { method := ⟨⟨"Player", name, [], .void, 0⟩, [], "Game", none⟩, depth, location := .start 0 }
    [frame "Jump" 1, frame "Update" 0]
  memory := innerMemory
  data := ()

theorem inner_pop_forgets : inner.memory.Addressed ∧
    ∃ f t, inner.pop? = some (f, t) ∧ f.depth = 1 ∧
      (∀ a ∈ innerSlots, t.memory.slots[a.text]? = none) ∧
      ∀ a ∈ outerSlots, t.memory.slots[a.text]? = some (.int 0) := by
  have haddressed : ∀ (slots : List Address) (m : Memory), m.Addressed →
      (slots.foldl (fun m a => m.write a (.int 0)) m).Addressed := by
    intro slots
    induction slots with
    | nil => exact fun _ hm => hm
    | cons a slots ih => exact fun m hm => ih _ (hm.write a (.int 0))
  have hs : inner.memory.Addressed := haddressed _ _ Memory.addressed_empty
  have hstored : ∀ a ∈ outerSlots, innerMemory.slots[a.text]? = some (.int 0) := by decide +kernel
  obtain ⟨t, hpop, -, -, hslots, -⟩ := pop_forgets_frame rfl hs
  refine ⟨hs, _, t, hpop, rfl, fun a ha => ?_, fun a ha => ?_⟩
  · have hown : ∀ a ∈ innerSlots, a.frame? = some 1 := by decide
    rw [hslots a, if_pos (hown a ha)]
  · have hother : ∀ a ∈ outerSlots, a.frame? ≠ some 1 := by decide
    rw [hslots a, if_neg (hother a ha)]
    exact hstored a ha

end State

end PlayerPaths
