import PlayerPaths.Proofs.Execution.Steps
import PlayerPaths.Proofs.Execution.Stores

/-!
# Fields of objects

The fields of an object are slots whose addresses end in the names of the fields. So a store to a
field leaves the fields with other names alone, whatever is evaluated to the object afterwards
(`Evaluator.field_laws`), and fields that nobody wrote are different variables, except for the
objects that were allocated, whose fields start out as zero. The type that declares a field is not
part of the address, and fields with one name of a type and of its base type are one slot
(`Evaluator.redeclared_field`).
-/

namespace PlayerPaths

open IL Formula

/-- Only integers refer to objects. -/
theorem sort_of_objectOf {e : Formula} {o : Address} (h : objectOf e = .ok o) :
    e.sort = .ok .int := by
  unfold objectOf at h
  split at h
  · rfl
  · rfl
  · simp at h

/-- The types of references are those with integers for values. -/
theorem sort_eq_int_iff {sorts : Sorts} {t : Ty} {s : SmtSort} (hs : sorts.sort t = .ok s) :
    s = .int ↔ t.isReference = true := by
  cases t with
  | struct name =>
      simp only [Sorts.sort] at hs
      split at hs
      · next r hr =>
        obtain rfl : r.sort = s := by simpa using hs
        simp [Record.sort, Ty.isReference]
      · simp at hs
  | void => cases hs
  | _ =>
      obtain rfl := Except.ok.inj hs
      simp [Ty.isReference]

/-- The variables of two fields of an object are different. -/
theorem Address.field_variable_ne {sorts : Sorts} {a : Address} {f g : String} {t u : Ty}
    {s s' : SmtSort} (hs : sorts.sort t = .ok s) (hs' : sorts.sort u = .ok s') (hne : f ≠ g) :
    Formula.var ((a.field f).variableName t) s ≠ .var ((a.field g).variableName u) s' := by
  intro heq
  obtain ⟨hname, rfl⟩ := Formula.var.inj heq
  -- Types with one sort are both references, or none of them is.
  have hkind : t.isReference = u.isReference := by
    rw [Bool.eq_iff_iff, ← sort_eq_int_iff hs, ← sort_eq_int_iff hs']
  unfold variableName at hname
  rw [hkind] at hname
  by_cases href : u.isReference = true
  · rw [if_pos href, if_pos href, text_heapId, text_heapId] at hname
    exact hne (field_text_inj.mp ((String.append_left_inj _).mp hname))
  · rw [if_neg href, if_neg href] at hname
    exact hne (field_text_inj.mp hname)

namespace Evaluator

variable {v v' : Evaluator} {target again : Expression} {before before' : Nat} {e e' : Formula}
  {o a : Address} {f g : FieldRef} {w u : Formula} {s t : SmtSort}

theorem memberPlace_object {place : Unit → Result Place} (ho : objectOf e = .ok o) :
    memberPlace e place f = .ok (.slot (o.field f.name) f.type) := by
  unfold memberPlace
  rw [sort_of_objectOf ho]
  show (do return Place.slot ((← objectOf e).field f.name) f.type) = _
  rw [ho]
  rfl

/-- The place of a field of an object. -/
theorem fieldPlace_object (he : v.value before target = .ok e) (ho : objectOf e = .ok o) :
    v.fieldPlace before target f = .ok (.slot (o.field f.name) f.type) := by
  unfold fieldPlace
  rw [he]
  show memberPlace e (fun _ => v.place before target) f = _
  exact memberPlace_object ho

/-- A field of an object is read from its slot. -/
theorem value_field_object (he : v.value before target = .ok e) (ho : objectOf e = .ok o) :
    v.value before (.field target f) = v.memory.read v.sorts (o.field f.name) f.type := by
  rw [value, he]
  show (do v.readPlace (← memberPlace e _ f)) = _
  rw [memberPlace_object ho]
  rfl

/-- A store to a field of an object leaves a field with another name alone, whatever refers to the
object afterwards. -/
theorem value_field_after_store (he : v.value before target = .ok e) (ho : objectOf e = .ok o)
    (hne : f.name ≠ g.name) (hassign : v.assign (.slot (o.field f.name) f.type) u = .ok (a, w))
    (hsorts : v'.sorts = v.sorts) (hmemory : v'.memory = v.memory.write a w)
    (he' : v'.value before' again = .ok e') (ho' : objectOf e' = .ok o) :
    v'.value before' (.field again g) = v.value before (.field target g) := by
  -- The store is to the slot of the first field, whose text is not that of the second one.
  obtain rfl : o.field f.name = a := by
    simp only [assign, bind_eq_ok, pure_eq_ok] at hassign
    obtain ⟨w', -, heq⟩ := hassign
    exact congrArg Prod.fst heq
  have htext : (o.field f.name).text ≠ (o.field g.name).text := Address.field_text_inj.not.mpr hne
  rw [value_field_object he' ho', value_field_object he ho, hsorts, hmemory]
  exact Memory.read_write_of_ne htext

/-- The laws of two fields of the object at an address, which an expression refers to. -/
structure FieldLaws {D : Type} (st : State D) (v : Evaluator) (before : Nat) (target : Expression)
    (o : Address) (f g : FieldRef) : Prop where
  place : v.fieldPlace before target f = .ok (.slot (o.field f.name) f.type)
  stored : ∀ {s u}, v.sorts.sort f.type = .ok s → u.sort = .ok s →
    v.assign (.slot (o.field f.name) f.type) u = .ok (o.field f.name, u)
  /-- After any store to the first field, the second one of the same object is read as before. -/
  kept : ∀ {u a w}, v.assign (.slot (o.field f.name) f.type) u = .ok (a, w) →
    ∀ {st' : State D} {siteCount v'}, st'.memory = (st.write a w).memory →
      st'.evaluator v.sorts siteCount = .ok v' →
      ∀ {before' again e'}, v'.value before' again = .ok e' → objectOf e' = .ok o →
        v'.value before' (.field again g) = v.value before (.field target g)
  /-- The fields of an object that was allocated start out as zero. -/
  zeros : o.isHeap = true → ∀ {s t}, v.sorts.sort f.type = .ok s → v.sorts.sort g.type = .ok t →
    st.memory.slots[(o.field f.name).text]? = none →
    st.memory.slots[(o.field g.name).text]? = none →
    v.value before (.field target f) = .ok s.zero ∧ v.value before (.field target g) = .ok t.zero
  /-- The fields of any other object start out as different variables, with different names unless
  a name of a field has a separator. -/
  unknowns : o.isHeap = false → ∀ {s t}, v.sorts.sort f.type = .ok s →
    v.sorts.sort g.type = .ok t → st.memory.slots[(o.field f.name).text]? = none →
    st.memory.slots[(o.field g.name).text]? = none →
    ∃ x y, v.value before (.field target f) = .ok (.var x s) ∧
      v.value before (.field target g) = .ok (.var y t) ∧ Formula.var x s ≠ .var y t ∧
      (':' ∉ f.name.toList → ':' ∉ g.name.toList → x ≠ y)

/-- **Fields of an object with different names do not interfere.** -/
theorem field_laws {D : Type} {st : State D} {sorts : Sorts} {siteCount : Nat}
    (hv : st.evaluator sorts siteCount = .ok v) (he : v.value before target = .ok e)
    (ho : objectOf e = .ok o) (hne : f.name ≠ g.name) : v.FieldLaws st before target o f g := by
  obtain ⟨rfl, hmemory⟩ := evaluator_parts hv
  refine ⟨fieldPlace_object he ho, assign_slot, ?_, ?_, ?_⟩
  · intro u a w hassign st' siteCount' v' hwritten hv' before' again e' he' ho'
    obtain ⟨hsorts, hmemory'⟩ := evaluator_parts hv'
    have hstored : v'.memory = v.memory.write a w := by
      rw [hmemory', hwritten, hmemory]
      rfl
    exact value_field_after_store he ho hne hassign hsorts hstored he' ho'
  · intro hheap s t hs ht hf hg
    rw [← hmemory] at hf hg
    rw [value_field_object he ho, value_field_object he ho]
    exact ⟨Memory.read_of_allocated hs hf hheap, Memory.read_of_allocated ht hg hheap⟩
  · intro hheap s t hs ht hf hg
    rw [← hmemory] at hf hg
    refine ⟨(o.field f.name).variableName f.type, (o.field g.name).variableName g.type, ?_, ?_,
      Address.field_variable_ne hs ht hne, ?_⟩
    · rw [value_field_object he ho]
      exact Memory.read_of_unwritten hs hf hheap
    · rw [value_field_object he ho]
      exact Memory.read_of_unwritten ht hg hheap
    · intro hplainf hplaing heq
      exact hne (Address.field_variableName_inj hplainf hplaing heq)

end Evaluator

/-! ## The instruction -/

section

variable {D : Type} {m : Machine D} {st st' : State D} {l next : Location} {method : Method}
  {target e : Expression} {f g : FieldRef} {b : Body} {states : List (State D)} {v : Evaluator}

/-- The store of a field writes one slot, that of the place of the field. -/
theorem Machine.execute_storeField (hb : method.requireBody = .ok b)
    (hnext : b.resolve l.next = some next)
    (hv : st.evaluator m.sorts (Operation.storeField target f e).sites.length = .ok v)
    (h : m.execute st method l (.storeField target f e) = .ok states) :
    ∃ place u a w st', v.fieldPlace 0 target f = .ok place ∧ v.assign place u = .ok (a, w) ∧
      states = [st'] ∧ st'.memory = (st.write a w).memory := by
  simp only [execute, bind_eq_ok, pure_eq_ok] at h
  obtain ⟨b', hb', v', hv', raw, -, u, -, place, hplace, ⟨a, w⟩, hassign, st', hst', rfl⟩ := h
  obtain rfl : b = b' := Except.ok.inj (hb.symm.trans hb')
  obtain rfl : v = v' := Except.ok.inj (hv.symm.trans hv')
  refine ⟨place, u, a, w, st', hplace, hassign, rfl, ?_⟩
  rw [hnext] at hst'
  obtain ⟨frame, callers, -, rfl⟩ := State.modifyFrame_eq_ok.mp hst'
  rfl

/-- **The instruction that stores a field keeps the other fields of the object.** -/
theorem Machine.execute_keeps_field (hb : method.requireBody = .ok b)
    (hnext : b.resolve l.next = some next)
    (hv : st.evaluator m.sorts (Operation.storeField target f e).sites.length = .ok v)
    {reference : Formula} {o : Address} (hreference : v.value 0 target = .ok reference)
    (ho : objectOf reference = .ok o) (hne : f.name ≠ g.name)
    (h : m.execute st method l (.storeField target f e) = .ok states) :
    ∃ st', states = [st'] ∧ ∀ {siteCount v'}, st'.evaluator m.sorts siteCount = .ok v' →
      ∀ {before again reference'}, v'.value before again = .ok reference' →
        objectOf reference' = .ok o →
        v'.value before (.field again g) = v.value 0 (.field target g) := by
  obtain ⟨place, u, a, w, st', hplace, hassign, rfl, hwritten⟩ := execute_storeField hb hnext hv h
  obtain rfl := Except.ok.inj ((Evaluator.fieldPlace_object hreference ho).symm.trans hplace)
  obtain ⟨hsorts, hmemory⟩ := Evaluator.evaluator_parts hv
  refine ⟨st', rfl, fun hv' _ _ _ hreference' ho' => ?_⟩
  obtain ⟨hsorts', hmemory'⟩ := Evaluator.evaluator_parts hv'
  refine Evaluator.value_field_after_store hreference ho hne hassign ?_ ?_ hreference' ho'
  · rw [hsorts', hsorts]
  · rw [hmemory', hwritten, hmemory]
    rfl

end

namespace Evaluator

/-! ## Fields of a fighter -/

def fighter : Variable := ⟨"fighter", .parameter 0, .object "Fighter"⟩

def fighterObject : Address := .argument 0 0

def health : FieldRef := ⟨"Fighter", "health", .int32, false⟩

def armor : FieldRef := ⟨"Fighter", "armor", .int32, false⟩

def fight : State Unit :=
  .start ⟨⟨"Fight", "Step", [.object "Fighter"], .void, 0⟩, [⟨"fighter", .object "Fighter"⟩],
    "Fight", none⟩ ⟨0, 0⟩ ()

/-- What the argument refers to. -/
theorem fighter_value {m : Memory} (h : m.slots[fighterObject.text]? = none) :
    Evaluator.value ⟨m, {}, 0, 0, ∅⟩ 0 (.load fighter) =
      .ok (.var fighterObject.heapId.text .int) := by
  rw [value]
  exact Memory.read_of_unwritten (m := m) (a := fighterObject) (t := .object "Fighter") rfl h rfl

theorem objectOf_fighter : objectOf (.var fighterObject.heapId.text .int) = .ok fighterObject := by
  decide

theorem fight_unwritten (a : Address) : fight.memory.slots[a.text]? = none := by
  simp [fight, State.start]

/-- The argument still refers to the fighter after a store to one of its fields. -/
theorem fighter_after_store (name : String) (w : Formula) :
    (fight.write (fighterObject.field name) w).memory.slots[fighterObject.text]? = none := by
  simp only [State.write, Memory.write, Std.TreeMap.getElem?_insert]
  rw [if_neg (by simpa using Address.text_field_ne), fight_unwritten]

theorem armor_kept : health.name ≠ armor.name ∧ ∃ v v', fight.evaluator {} 0 = .ok v ∧
    v.value 0 (.load fighter) = .ok (.var fighterObject.heapId.text .int) ∧
    objectOf (.var fighterObject.heapId.text .int) = .ok fighterObject ∧
    v.assign (.slot (fighterObject.field "health") .int32) (.bits 7 32) =
      .ok (fighterObject.field "health", .bits 7 32) ∧
    (fight.write (fighterObject.field "health") (.bits 7 32)).evaluator {} 0 = .ok v' ∧
    v'.value 0 (.field (.load fighter) armor) = v.value 0 (.field (.load fighter) armor) := by
  have hfighter := fighter_value (fight_unwritten fighterObject)
  have hv : fight.evaluator {} 0 = .ok ⟨fight.memory, {}, 0, 0, ∅⟩ := rfl
  have laws := field_laws (f := health) (g := armor) hv hfighter objectOf_fighter (by decide)
  refine ⟨by decide, _, _, hv, hfighter, objectOf_fighter, laws.stored rfl rfl, rfl, ?_⟩
  exact laws.kept (laws.stored rfl rfl) rfl rfl (fighter_value (fighter_after_store _ _))
    objectOf_fighter

/-- The number of a fighter. -/
def baseId : FieldRef := ⟨"Fighter", "id", .int32, false⟩

/-- The number of a boss, which is a fighter with another number of its own. -/
def derivedId : FieldRef := ⟨"Boss", "id", .int32, false⟩

/-- The argument is the first object that was allocated. -/
def newborn : Memory := ({} : Memory).write fighterObject (.int 1)

/-- A store to a field overwrites the field with its name that another type declares. And two fields
of an object that was allocated are read as the same zero. -/
theorem redeclared_field :
    (baseId.signature ≠ derivedId.signature ∧ ∃ v v', fight.evaluator {} 0 = .ok v ∧
      v.value 0 (.load fighter) = .ok (.var fighterObject.heapId.text .int) ∧
      objectOf (.var fighterObject.heapId.text .int) = .ok fighterObject ∧
      v.fieldPlace 0 (.load fighter) baseId = .ok (.slot (fighterObject.field "id") .int32) ∧
      v.assign (.slot (fighterObject.field "id") .int32) (.bits 7 32) =
        .ok (fighterObject.field "id", .bits 7 32) ∧
      (fight.write (fighterObject.field "id") (.bits 7 32)).evaluator {} 0 = .ok v' ∧
      v.value 0 (.field (.load fighter) derivedId) =
        .ok (.var (fighterObject.field "id").text (.bitVec 32)) ∧
      v'.value 0 (.field (.load fighter) derivedId) = .ok (.bits 7 32)) ∧
    ∃ v, ({ fight with memory := newborn } : State Unit).evaluator {} 0 = .ok v ∧
      v.value 0 (.load fighter) = .ok (.int 1) ∧ health.signature ≠ armor.signature ∧
      v.value 0 (.field (.load fighter) health) = .ok (.bits 0 32) ∧
      v.value 0 (.field (.load fighter) armor) = .ok (.bits 0 32) := by
  have hfighter := fighter_value (fight_unwritten fighterObject)
  have hid : fight.memory.slots[(fighterObject.field "id").text]? = none := fight_unwritten _
  let v : Evaluator := ⟨newborn, {}, 0, 0, ∅⟩
  have hnewborn : v.value 0 (.load fighter) = .ok (.int 1) := by
    rw [value]
    exact Memory.read_write_self (m := {})
  -- Every field of the object that was allocated is read from an empty slot.
  have hzero : ∀ field : FieldRef, field.type = .int32 → ((Address.heap 1).field field.name).text ≠
      fighterObject.text → v.value 0 (.field (.load fighter) field) = .ok (.bits 0 32) := by
    intro field htype htext
    have hslot : newborn.slots[((Address.heap 1).field field.name).text]? = none := by
      simp only [newborn, Memory.write, Std.TreeMap.getElem?_insert]
      rw [if_neg (by simpa using htext.symm)]
      simp
    rw [value_field_object hnewborn (o := .heap 1) rfl, htype]
    exact Memory.read_of_allocated (t := .int32) rfl hslot rfl
  refine ⟨⟨by decide, _, _, rfl, hfighter, objectOf_fighter,
    fieldPlace_object hfighter objectOf_fighter, assign_slot rfl rfl, rfl, ?_, ?_⟩,
    v, rfl, hnewborn, by decide, hzero health rfl (by decide), hzero armor rfl (by decide)⟩
  · rw [value_field_object hfighter objectOf_fighter]
    exact Memory.read_of_unwritten (m := fight.memory) (t := .int32) rfl hid rfl
  · rw [value_field_object (fighter_value (fighter_after_store "id" _)) objectOf_fighter]
    exact Memory.read_write_self (m := fight.memory)

end Evaluator

end PlayerPaths
