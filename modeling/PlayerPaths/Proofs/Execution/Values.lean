import PlayerPaths.Execution.Evaluate
import PlayerPaths.Proofs.Formula.Construction
import PlayerPaths.Proofs.Formula.Values

/-!
# Values of expressions are well sorted

Everything that an instruction computes is built by checked construction from what memory and the
results of calls hold, so it is well sorted when they are: `Evaluator.value_wellSorted`, and for
conditions `Evaluator.condition_hasSort`.
-/

namespace PlayerPaths

open IL Formula

/-- The default value of a sort has the sort. -/
theorem SmtSort.zero_hasSort (s : SmtSort) : s.zero.HasSort s := by
  induction s with
  | record name fields ih =>
      show (Formula.nary (.make ⟨name, fields⟩) (SmtSort.zeros fields)).HasSort _
      refine hasSort_make.mpr ⟨rfl, ?_⟩
      show List.Forall₂ _ (SmtSort.zeros fields) fields
      induction fields with
      | nil => exact .nil
      | cons f fields ihf =>
          obtain ⟨hf, hrest⟩ := List.forall_mem_cons.mp ih
          exact .cons hf (ihf hrest)
  | _ => rfl

theorem SmtSort.numeral_eq_ok {s : SmtSort} {i : Int} {e : Formula} (h : s.numeral i = .ok e) :
    e.HasSort s ∧ ∃ k, e = .lit k := by
  cases s with
  | bitVec w | int | real =>
      obtain rfl := by simpa [SmtSort.numeral] using h
      exact ⟨rfl, _, rfl⟩
  | _ => simp [SmtSort.numeral] at h

variable {value f : Formula}

/-! ## Conversions -/

theorem toBool_hasSort (hvalue : value.WellSorted) (h : toBool value = .ok f) :
    f.HasSort .bool := by
  simp only [toBool, bind_eq_ok] at h
  obtain ⟨s, hs, h⟩ := h
  cases s with
  | bool =>
      obtain rfl : value = f := by simpa using h
      exact hvalue.hasSort hs
  | bitVec w | int => exact Build.ne_hasSort hvalue (wellSorted_lit _) h
  | _ => simp at h

theorem resize_wellSorted {width : Nat} {signed : Bool} (hvalue : value.WellSorted)
    (h : resize value width signed = .ok f) : f.WellSorted := by
  simp only [resize, bind_eq_ok] at h
  obtain ⟨s, hs, h⟩ := h
  cases s with
  | bitVec old =>
      dsimp only at h
      split at h
      · obtain rfl : value = f := by simpa using h
        exact hvalue
      · split at h
        · split at h
          · exact Build.signExtend_wellSorted hvalue h
          · exact Build.zeroExtend_wellSorted hvalue h
        · split at h
          · simp at h
          · exact Build.extract_wellSorted hvalue h
  | _ => simp at h

theorem bitsToReal_wellSorted {signed : Bool} (hvalue : value.WellSorted)
    (h : bitsToReal value signed = .ok f) : f.WellSorted := by
  simp only [bitsToReal, bind_eq_ok] at h
  obtain ⟨s, hs, h⟩ := h
  cases s with
  | bitVec w =>
      simp only [bind_eq_ok] at h
      obtain ⟨i, hi, unsigned, hu, h⟩ := h
      have hunsigned := Build.toReal_wellSorted (Build.bitsToInt_wellSorted hvalue hi) hu
      split at h
      · obtain rfl : unsigned = f := by simpa using h
        exact hunsigned
      · simp only [bind_eq_ok] at h
        obtain ⟨negative, hn, wrapped, hw, h⟩ := h
        have hnegative := Build.compareBits_hasSort hvalue (wellSorted_lit _) hn
        have hwrapped := Build.arith_wellSorted hunsigned (wellSorted_lit _) hw
        exact Build.ite_hasSort hnegative.wellSorted hwrapped hunsigned h
  | _ => simp at h

theorem realToBits_wellSorted {width : Nat} (hvalue : value.WellSorted)
    (h : realToBits value width = .ok f) : f.WellSorted := by
  simp only [realToBits, bind_eq_ok] at h
  obtain ⟨nonNegative, hn, down, hd, negated, hneg, up', hup', up, hup, choice, hc, h⟩ := h
  have hnonNegative := Build.compareArith_hasSort hvalue (wellSorted_lit _) hn
  have hdown := Build.toInt_wellSorted hvalue hd
  have hup := Build.neg_wellSorted
    (Build.toInt_wellSorted (Build.neg_wellSorted hvalue hneg) hup') hup
  exact Build.intToBits_wellSorted (Build.ite_hasSort hnonNegative.wellSorted hdown hup hc) h

theorem boolToBits_wellSorted {width : Nat} (hvalue : value.WellSorted)
    (h : boolToBits value width = .ok f) : f.WellSorted :=
  Build.ite_hasSort hvalue (wellSorted_lit _) (wellSorted_lit _) h

theorem convert_wellSorted {sorts : Sorts} {t u : Ty} (hvalue : value.WellSorted)
    (h : convert sorts value t u = .ok f) : f.WellSorted := by
  simp only [convert, bind_eq_ok] at h
  obtain ⟨target, -, source, -, h⟩ := h
  split at h
  · obtain rfl : value = f := by simpa using h
    exact hvalue
  · split at h
    · exact boolToBits_wellSorted hvalue h
    · exact Build.ite_hasSort hvalue (wellSorted_lit _) (wellSorted_lit _) h
    · exact resize_wellSorted hvalue h
    · exact bitsToReal_wellSorted hvalue h
    · exact realToBits_wellSorted hvalue h
    · simp at h

theorem coerce_wellSorted {sorts : Sorts} {t u : Ty} (hvalue : value.WellSorted)
    (h : coerce sorts value t u = .ok f) : f.WellSorted := by
  simp only [coerce, bind_eq_ok] at h
  obtain ⟨target, -, source, -, h⟩ := h
  split at h
  · obtain rfl : value = f := by simpa using h
    exact hvalue
  · split at h
    · exact boolToBits_wellSorted hvalue h
    · exact resize_wellSorted hvalue h
    · exact bitsToReal_wellSorted hvalue h
    · simp at h

theorem unify_wellSorted {a b : Formula} {signed : Bool} {p : Formula × Formula}
    (ha : a.WellSorted) (hb : b.WellSorted) (h : unify a b signed = .ok p) :
    p.1.WellSorted ∧ p.2.WellSorted := by
  simp only [unify, bind_eq_ok] at h
  obtain ⟨s, -, t, -, h⟩ := h
  split at h
  · obtain ⟨a', ha', rfl⟩ := by simpa using h
    exact ⟨boolToBits_wellSorted ha ha', hb⟩
  · obtain ⟨b', hb', rfl⟩ := by simpa using h
    exact ⟨ha, boolToBits_wellSorted hb hb'⟩
  · split at h
    · obtain ⟨a', ha', rfl⟩ := by simpa using h
      exact ⟨resize_wellSorted ha ha', hb⟩
    · split at h
      · obtain ⟨b', hb', rfl⟩ := by simpa using h
        exact ⟨ha, resize_wellSorted hb hb'⟩
      · obtain rfl := by simpa using h
        exact ⟨ha, hb⟩
  · obtain ⟨a', ha', rfl⟩ := by simpa using h
    exact ⟨bitsToReal_wellSorted ha ha', hb⟩
  · obtain ⟨b', hb', rfl⟩ := by simpa using h
    exact ⟨ha, bitsToReal_wellSorted hb hb'⟩
  · obtain rfl := by simpa using h
    exact ⟨ha, hb⟩

/-! ## Operators -/

variable {a b : Formula}

theorem shift_wellSorted {op : BinaryOp} {sign : Sign} {width : Nat} (ha : a.WellSorted)
    (hb : b.WellSorted) (h : shift op sign a b width = .ok f) : f.WellSorted := by
  simp only [shift, bind_eq_ok] at h
  obtain ⟨amount, hamount, h⟩ := h
  split at h
  · simp at h
  · simp only [bind_eq_ok] at h
    obtain ⟨masked, hmasked, h⟩ := h
    have hamount := resize_wellSorted hb hamount
    exact Build.bits_wellSorted ha (Build.bits_wellSorted hamount (wellSorted_lit _) hmasked) h

theorem binaryValue_wellSorted {op : BinaryOp} {sign : Sign} (ha : a.WellSorted)
    (hb : b.WellSorted) (h : binaryValue op sign a b = .ok f) : f.WellSorted := by
  unfold binaryValue at h
  by_cases hshift : op = .shiftLeft ∨ op = .shiftRight
  case' pos =>
    simp only [if_pos hshift, bind_eq_ok, pure_eq_ok] at h
    obtain ⟨p, rfl, s, -, h⟩ := h
    have hp := And.intro ha hb
  case' neg =>
    simp only [if_neg hshift, bind_eq_ok] at h
    obtain ⟨p, hp, s, -, h⟩ := h
    have hp := unify_wellSorted ha hb hp
  all_goals
    cases s with
    | real =>
        dsimp only at h
        split at h
        · exact Build.arith_wellSorted hp.1 hp.2 h
        · simp at h
    | bitVec width =>
        dsimp only at h
        split at h
        · exact Build.bits_wellSorted hp.1 hp.2 h
        · exact shift_wellSorted hp.1 hp.2 h
    | _ => simp at h

theorem compareValue_hasSort {kind : Comparison} {sign : Sign} (ha : a.WellSorted)
    (hb : b.WellSorted) (h : compareValue kind sign a b = .ok f) : f.HasSort .bool := by
  simp only [compareValue, bind_eq_ok] at h
  obtain ⟨p, hp, s, -, t, -, h⟩ := h
  obtain ⟨ha, hb⟩ := unify_wellSorted ha hb hp
  split at h
  · simp at h
  · split at h
    · exact Build.eq_hasSort ha hb h
    · exact Build.ne_hasSort ha hb h
    · exact Build.compareBits_hasSort ha hb h
    · exact Build.compareArith_hasSort ha hb h
    · exact Build.compareArith_hasSort ha hb h
    · simp at h

theorem constantValue_wellSorted (c : Constant) : (constantValue c).WellSorted := by
  cases c <;> exact wellSorted_lit _

/-! ## Memory -/

theorem freshValue_eq_ok {sorts : Sorts} {x : Address} {t : Ty}
    (h : freshValue sorts x t = .ok (some value)) : ∃ name s, value = .var name s := by
  unfold freshValue at h
  split at h
  · simp at h
  · simp only [bind_eq_ok, pure_eq_ok, Option.some.injEq] at h
    obtain ⟨s, -, rfl⟩ := h
    exact ⟨_, s, rfl⟩

/-- Every slot holds a well-sorted value. -/
def Memory.WellSorted (m : Memory) : Prop :=
  ∀ (key : String) (value : Formula), m.slots[key]? = some value → value.WellSorted

theorem Memory.WellSorted.empty : ({} : Memory).WellSorted := by
  intro key value h
  simp at h

theorem Memory.WellSorted.write {m : Memory} (hm : m.WellSorted) (x : Address)
    (hvalue : value.WellSorted) : (m.write x value).WellSorted := by
  intro key v h
  rw [Memory.write, Std.TreeMap.getElem?_insert] at h
  split at h
  · obtain rfl := Option.some.inj h
    exact hvalue
  · exact hm key v h

theorem Memory.WellSorted.dropFrame {m : Memory} (hm : m.WellSorted) (depth : Nat) :
    (m.dropFrame depth).WellSorted := by
  intro key v h
  rw [Memory.dropFrame, Std.TreeMap.getElem?_filter] at h
  obtain ⟨h, -⟩ := Option.pfilter_eq_some_iff.mp h
  exact hm key v h

theorem Memory.WellSorted.read {m : Memory} (hm : m.WellSorted) {sorts : Sorts} {x : Address}
    {t : Ty} (h : m.read sorts x t = .ok value) : value.WellSorted := by
  unfold Memory.read at h
  cases hslot : m.slots[x.text]? with
  | some v =>
      obtain rfl : v = value := by simpa [hslot] using h
      exact hm _ v hslot
  | none =>
      by_cases hvoid : t.isVoid = true
      · simp [hslot, hvoid] at h
      · by_cases hheap : x.isHeap = true
        · obtain ⟨s, -, rfl⟩ : ∃ s, sorts.sort t = .ok s ∧ s.zero = value := by
            simpa [hslot, hvoid, hheap] using h
          exact s.zero_hasSort.wellSorted
        · obtain ⟨fresh, hfresh, h⟩ : ∃ fresh, freshValue sorts x t = .ok fresh ∧ _ = _ := by
            simpa [hslot, hvoid, hheap] using h
          cases fresh with
          | none => simp at h
          | some v =>
              obtain rfl : v = value := by simpa using h
              obtain ⟨name, s, rfl⟩ := freshValue_eq_ok hfresh
              exact ⟨s, rfl⟩

/-! ## Expressions -/

namespace Evaluator

/-- An evaluator whose memory and results are well sorted. -/
structure WellSorted (v : Evaluator) : Prop where
  memory : v.memory.WellSorted
  results : ∀ (i : Nat) (value : Formula), v.results[i]? = some (some value) → value.WellSorted

variable {v : Evaluator}

theorem WellSorted.callValue (hv : v.WellSorted) {index : Nat} {c : Call}
    (h : v.callValue index c = .ok value) : value.WellSorted := by
  unfold Evaluator.callValue at h
  split at h
  · simp at h
  · split at h
    · next x hx =>
      obtain rfl : x = value := by simpa using h
      exact hv.results index x hx
    · simp at h
    · simp at h

theorem WellSorted.readPlace (hv : v.WellSorted) {place : Place}
    (h : v.readPlace place = .ok value) : value.WellSorted := by
  induction place generalizing value with
  | slot x t => exact hv.memory.read h
  | member place field ih =>
      simp only [Evaluator.readPlace, bind_eq_ok] at h
      obtain ⟨whole, hwhole, h⟩ := h
      exact Build.get_wellSorted (ih hwhole) h

theorem WellSorted.assign (hv : v.WellSorted) {place : Place} {p : Address × Formula}
    (hvalue : value.WellSorted) (h : v.assign place value = .ok p) : p.2.WellSorted := by
  induction place generalizing value with
  | slot x t =>
      simp only [Evaluator.assign, bind_eq_ok, pure_eq_ok] at h
      obtain ⟨w, hw, rfl⟩ := h
      exact coerce_wellSorted hvalue hw
  | member place field ih =>
      simp only [Evaluator.assign, bind_eq_ok] at h
      obtain ⟨whole, hwhole, changed, hchanged, h⟩ := h
      exact ih (Build.set_wellSorted (hv.readPlace hwhole) hvalue hchanged) h

/-- **The value of an expression is well sorted.** -/
theorem value_wellSorted (hv : v.WellSorted) :
    ∀ (before : Nat) (e : Expression) {f : Formula}, v.value before e = .ok f → f.WellSorted
  | before, .load x, f, h | before, .loadAddress x, f, h => by
    rw [Evaluator.value] at h
    exact hv.readPlace h
  | before, .constant c, f, h => by
    obtain rfl : constantValue c = f := by simpa [Evaluator.value] using h
    exact constantValue_wellSorted c
  | before, .binary op sign lhs rhs, f, h => by
    simp only [Evaluator.value, bind_eq_ok] at h
    obtain ⟨a, ha, b, hb, h⟩ := h
    exact binaryValue_wellSorted (value_wellSorted hv _ lhs ha) (value_wellSorted hv _ rhs hb) h
  | before, .compare kind sign lhs rhs, f, h => by
    simp only [Evaluator.value, bind_eq_ok] at h
    obtain ⟨a, ha, b, hb, h⟩ := h
    exact (compareValue_hasSort (value_wellSorted hv _ lhs ha) (value_wellSorted hv _ rhs hb)
      h).wellSorted
  | before, .not e, f, h => by
    simp only [Evaluator.value, bind_eq_ok] at h
    obtain ⟨a, ha, c, hc, h⟩ := h
    exact (Build.not_hasSort (toBool_hasSort (value_wellSorted hv _ e ha) hc).wellSorted
      h).wellSorted
  | before, .convert e target, f, h => by
    simp only [Evaluator.value, bind_eq_ok] at h
    obtain ⟨a, ha, h⟩ := h
    exact convert_wellSorted (value_wellSorted hv _ e ha) h
  | before, .call method arguments, f, h | before, .new method arguments, f, h => by
    rw [Evaluator.value] at h
    exact hv.callValue h
  | before, .field target field, f, h => by
    simp only [Evaluator.value, bind_eq_ok] at h
    obtain ⟨a, -, place, -, h⟩ := h
    exact hv.readPlace h
  | before, .staticField field, f, h => by
    rw [Evaluator.value] at h
    exact hv.memory.read h
  | before, .length array, f, h => by
    simp only [Evaluator.value, bind_eq_ok] at h
    obtain ⟨a, -, x, -, h⟩ := h
    exact hv.memory.read h

/-- A condition is a truth value. -/
theorem condition_hasSort (hv : v.WellSorted) {before : Nat} {e : Expression}
    (h : v.condition before e = .ok f) : f.HasSort .bool := by
  simp only [Evaluator.condition, bind_eq_ok] at h
  obtain ⟨a, ha, h⟩ := h
  exact toBool_hasSort (value_wellSorted hv _ e ha) h

end Evaluator

end PlayerPaths
