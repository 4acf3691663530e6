import PlayerPaths.Proofs.Execution.CallStack

/-!
# Formulas of a state pass their checks

Sorts of a program have widths between 1 and 64 (`Sorts.ofProgram_inRange`), and checked construction
keeps formulas within sorts in range. So every node of every formula that a state holds has a sort,
with literals and widths in range, and what a state assumes are truth values
(`Machine.formulas_checked`).
-/

namespace PlayerPaths

open IL

variable {D : Type}

/-! ## Sorts -/

namespace Sorts

/-- The widths in the records of value types are between 1 and 64. -/
def InRange (s : Sorts) : Prop :=
  ∀ (name : String) (r : Record), s.records[name]? = some r → r.sort.inRange = true

variable {s t : Sorts} {p : Program}

theorem InRange.sort (h : s.InRange) {ty : Ty} {u : SmtSort} (hu : s.sort ty = .ok u) :
    u.inRange = true := by
  unfold Sorts.sort at hu
  split at hu
  · simp at hu
  · obtain rfl := Except.ok.inj hu
    rfl
  · obtain rfl := Except.ok.inj hu
    rfl
  · obtain rfl := Except.ok.inj hu
    rfl
  · obtain rfl := Except.ok.inj hu
    rfl
  · obtain rfl := Except.ok.inj hu
    rfl
  · split at hu
    · next r hr =>
      obtain rfl := Except.ok.inj hu
      exact h _ r hr
    · simp at hu
  · split at hu
    · next width hwidth =>
      obtain rfl := Except.ok.inj hu
      cases ty <;> simp [Ty.bits?] at hwidth <;> subst hwidth <;> rfl
    · simp at hu

theorem InRange.insert (h : s.InRange) {name : String} {r : Record} (hr : r.sort.inRange = true) :
    InRange ⟨s.records.insert name r⟩ := by
  intro name' r' h'
  rw [Std.TreeMap.getElem?_insert] at h'
  split at h'
  · obtain rfl := Option.some.inj h'
    exact hr
  · exact h name' r' h'

/-- The record of a value type is in range, and so are those that are added for it. -/
theorem addRecord_inRange {depth : Nat} {name : String} {r : Record} (h : s.InRange)
    (hadd : addRecord p depth s name = .ok (t, r)) : t.InRange ∧ r.sort.inRange = true := by
  induction depth generalizing s t name r with
  | zero =>
      unfold addRecord at hadd
      split at hadd
      · next r' hr' =>
        obtain ⟨rfl, rfl⟩ := Prod.mk.inj (Except.ok.inj hadd)
        exact ⟨h, h _ _ hr'⟩
      · simp at hadd
  | succ depth ih =>
      unfold addRecord at hadd
      split at hadd
      · next r' hr' =>
        obtain ⟨rfl, rfl⟩ := Prod.mk.inj (Except.ok.inj hadd)
        exact ⟨h, h _ _ hr'⟩
      · simp only [bind_eq_ok, pure_eq_ok] at hadd
        obtain ⟨definition, -, ⟨u, fields⟩, hfields, heq⟩ := hadd
        obtain ⟨rfl, rfl⟩ := Prod.mk.inj heq
        -- The fields that were collected are in range, whatever was added for them.
        obtain ⟨hu, hrange⟩ : u.InRange ∧ ∀ f ∈ fields, f.2.inRange = true := by
          refine foldlM_induction (P := fun (acc : Sorts × List (String × SmtSort)) =>
            acc.1.InRange ∧ ∀ f ∈ acc.2, f.2.inRange = true) ?_ ⟨h, by simp⟩ hfields
          rintro ⟨v, collected⟩ field - ⟨hv, hcollected⟩ ⟨w, more⟩ hstep
          dsimp only at hstep hv hcollected
          split at hstep
          · simp only [bind_eq_ok, pure_eq_ok] at hstep
            obtain ⟨⟨w', r'⟩, hinner, heq⟩ := hstep
            obtain ⟨rfl, rfl⟩ := Prod.mk.inj heq
            obtain ⟨hw, hr'⟩ := ih hv hinner
            exact ⟨hw, List.forall_mem_append.mpr ⟨hcollected, List.forall_mem_singleton.mpr hr'⟩⟩
          · simp only [bind_eq_ok, pure_eq_ok] at hstep
            obtain ⟨u', hu', heq⟩ := hstep
            obtain ⟨rfl, rfl⟩ := Prod.mk.inj heq
            exact ⟨hv, List.forall_mem_append.mpr
              ⟨hcollected, List.forall_mem_singleton.mpr (hv.sort hu')⟩⟩
        have hr : (Record.sort ⟨name, fields⟩).inRange = true := SmtSort.inRange_record.mpr hrange
        exact ⟨hu.insert hr, hr⟩

theorem ofProgram_inRange (h : ofProgram p = .ok s) : s.InRange := by
  have hempty : InRange ({} : Sorts) := fun name r hr => by simp at hr
  refine foldlM_induction (P := InRange) (fun t ty _ ht u hu => ?_) hempty h
  simp only [bind_eq_ok, pure_eq_ok] at hu
  obtain ⟨⟨v, r⟩, hadd, rfl⟩ := hu
  exact (addRecord_inRange ht hadd).1

end Sorts

/-- A context that is made for an entry point of a program. The constants of switches are 64-bit
integers in the entry point and in all methods of the program. -/
theorem Context.make_typed {c : Context} {program : Program} {entry : Method}
    {options : AnalysisOptions} {solver : Solver}
    (h : make program entry options solver = .ok c) (hentry : entry.WordCases)
    (hmethods : ∀ method ∈ program.methodList, method.WordCases) : c.Typed := by
  simp only [make, bind_eq_ok, pure_eq_ok] at h
  obtain ⟨sorts, hsorts, rfl⟩ := h
  refine ⟨fun hs => (Sorts.ofProgram_inRange hsorts).sort hs, hentry, fun {r method} hr => ?_⟩
  exact hmethods method (mem_values.mpr ⟨_, hr⟩)

/-! ## The formulas of a state -/

/-- The formulas that a frame holds: the results of calls, and the object that a constructor
makes. -/
def Frame.formulas (f : Frame) : List Formula :=
  f.results.values.reduceOption ++ (f.returnSlot.bind ReturnSlot.constructed).toList

/-- The formulas that a state holds: what it assumes, its memory, those of its frames, and the
arguments of the calls that it has noted. -/
def State.formulas (s : State D) : List Formula :=
  s.condition ++ s.memory.slots.values ++ s.frames.flatMap Frame.formulas ++
    s.calls.values.flatMap SymbolicCall.arguments

/-- The formulas of a formed state are legal. -/
theorem State.Formed.legal {c : Context} {I : D → Std.TreeMap Nat SymbolicCall → Prop}
    {s : State D} (h : s.Formed c I) {e : Formula} (he : e ∈ s.formulas) :
    e.Legal c s.callCount := by
  simp only [State.formulas, List.mem_append, List.mem_flatMap] at he
  rcases he with ((hcondition | hmemory) | ⟨f, hf, hframe⟩) | ⟨call, hcall, hargument⟩
  · exact (h.condition e hcondition).1
  · obtain ⟨key, hkey⟩ := mem_values.mp hmemory
    exact h.memory key e hkey
  · rcases List.mem_append.mp hframe with hresult | hconstructed
    · obtain ⟨_, hvalue, rfl⟩ := List.mem_filterMap.mp hresult
      obtain ⟨number, hnumber⟩ := mem_values.mp hvalue
      exact (h.frames f hf).results number e hnumber
    · have hobject := Option.mem_toList.mp hconstructed
      obtain ⟨slot, hslot, hobject⟩ := Option.bind_eq_some_iff.mp hobject
      exact (h.frames f hf).constructed slot hslot e hobject
  · obtain ⟨id, hid⟩ := mem_values.mp hcall
    have hlt : id < s.callCount := (h.calls id).mp (mem_iff_exists_getElem?.mpr ⟨call, hid⟩)
    exact (h.arguments id call hid e hargument).mono (Nat.le_of_lt hlt)

/-! ## Checks -/

/-- Every node of a formula passes its check: it has a sort, which its operands have to fit, the
widths of bit vectors are between 1 and 64, and literals are in range. -/
def Formula.Checked (e : Formula) : Prop :=
  ∀ p ∈ e.parts, p.nodeInRange = true ∧ ∃ t, p.HasSort t ∧ t.inRange = true

theorem Formula.Checked.width {e p : Formula} {w : Nat} (h : e.Checked) (hp : p ∈ e.parts)
    (hw : p.HasSort (.bitVec w)) : 1 ≤ w ∧ w ≤ 64 := by
  obtain ⟨-, t, ht, hrange⟩ := h p hp
  obtain rfl := ht.unique hw
  exact SmtSort.inRange_bitVec.mp hrange

theorem Formula.Legal.checked {c : Context} {n : Nat} {e : Formula} (h : e.Legal c n)
    (hc : c.Typed) : e.Checked := by
  intro p hp
  obtain ⟨s, hs⟩ := h.wellSorted
  obtain ⟨t, ht⟩ := hs.part hp
  have hrange : p.InRange := fun q hq => h.inRange hc q (mem_parts_trans hq hp)
  exact ⟨h.inRange hc p hp, t, ht, Formula.sort_inRange ht hrange⟩

namespace Machine

/-- **Every formula of every state passes its checks**, and what a state assumes are truth values. -/
theorem formulas_checked {m : Machine D} (hm : m.Standard) {program : Program} {entry : Method}
    {options : AnalysisOptions} {solver : Solver}
    (hmake : Context.make program entry options solver = .ok m.context) (hentry : entry.WordCases)
    (hmethods : ∀ method ∈ program.methodList, method.WordCases) {s : State D}
    (hs : m.Reached s) :
    (∀ e ∈ s.formulas, e.Checked) ∧ ∀ e ∈ s.condition, e.HasSort .bool := by
  obtain ⟨I, hpolicy⟩ := hm.lawful
  have hformed := hs.formed hpolicy
  have htyped := Context.make_typed hmake hentry hmethods
  exact ⟨fun e he => (hformed.legal he).checked htyped, fun e he => (hformed.condition e he).2⟩

theorem passing_formulas_checked :
    ∃ s, passingMachine.Reached s ∧ s.condition.length = 1 ∧ s.formulas.length = 4 ∧
      (∀ e ∈ s.formulas, e.Checked) ∧ ∀ e ∈ s.condition, e.HasSort .bool := by
  obtain ⟨s, hs, hcheck⟩ := exists_reached (m := passingMachine) (n := 4)
    (p := fun s => decide (s.condition.length = 1 ∧ s.formulas.length = 4)) (by decide +kernel)
  obtain ⟨hcondition, hlength⟩ := of_decide_eq_true hcheck
  have hmake : Context.make passingMachine.context.program passing {} (fun _ => .ok .unknown) =
      .ok passingMachine.context := rfl
  exact ⟨s, hs, hcondition, hlength,
    formulas_checked (.default _) hmake (by decide) (by decide +kernel) hs⟩

end Machine

end PlayerPaths
