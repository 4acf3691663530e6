import PlayerPaths.Formula.Build
import PlayerPaths.Proofs.Formula.Sorting

/-!
# What checked construction gives

One lemma per kind of formula says when its construction succeeds and with which formula. The checks
look at `Formula.sort`, which trusts the parts, so construction from well-sorted parts gives
well-sorted formulas (`Formula.WellSorted`).
-/

namespace PlayerPaths

namespace Formula

/-- A formula that has a sort, down to its leaves. -/
def WellSorted (e : Formula) : Prop := ∃ s, e.HasSort s

theorem HasSort.wellSorted {e : Formula} {s : SmtSort} (h : e.HasSort s) : e.WellSorted := ⟨s, h⟩

theorem wellSorted_lit (v : Literal) : (Formula.lit v).WellSorted := ⟨v.sort, rfl⟩

/-- A well-sorted formula has the sort that it is trusted to have. -/
theorem WellSorted.hasSort {e : Formula} {s : SmtSort} (h : e.WellSorted) (hs : e.sort = .ok s) :
    e.HasSort s := by
  obtain ⟨t, ht⟩ := h
  rw [sort_agrees ht hs]
  exact ht

end Formula

namespace Build

open Formula

variable {e f a b c : Formula} {s : SmtSort}

/-! ## Checks -/

theorem requireBool_eq_ok {u : Unit} : requireBool e = .ok u ↔ e.sort = .ok .bool := by
  simp only [requireBool, bind_eq_ok]
  constructor
  · rintro ⟨s, hs, h⟩
    cases s with
    | bool => exact hs
    | _ => simp at h
  · intro hs
    exact ⟨.bool, hs, rfl⟩

theorem requireBools_eq_ok {es : List Formula} {u : Unit} :
    es.forM requireBool = .ok u ↔ ∀ e ∈ es, e.sort = .ok .bool := by
  rw [forM_eq_ok]
  exact forall₂_congr fun e _ => requireBool_eq_ok

theorem requireSame_eq_ok : requireSame a b = .ok s ↔ a.sort = .ok s ∧ b.sort = .ok s := by
  simp only [requireSame, bind_eq_ok]
  constructor
  · rintro ⟨u, hu, t, ht, h⟩
    split at h
    · next heq =>
      obtain rfl : u = s := by simpa using h
      exact ⟨hu, heq ▸ ht⟩
    · simp at h
  · rintro ⟨ha, hb⟩
    exact ⟨s, ha, s, hb, by simp⟩

theorem requireBits_eq_ok {w : Nat} : requireBits e = .ok w ↔ e.sort = .ok (.bitVec w) := by
  simp only [requireBits, bind_eq_ok]
  constructor
  · rintro ⟨s, hs, h⟩
    cases s with
    | bitVec n =>
        obtain rfl : n = w := by simpa [SmtSort.width?] using h
        exact hs
    | _ => simp [SmtSort.width?] at h
  · intro hs
    exact ⟨.bitVec w, hs, rfl⟩

theorem requireSort_eq_ok {u : Unit} : requireSort s e = .ok u ↔ e.sort = .ok s := by
  simp only [requireSort, bind_eq_ok]
  constructor
  · rintro ⟨t, ht, h⟩
    by_cases heq : t = s
    · exact heq ▸ ht
    · simp [heq] at h
  · intro hs
    exact ⟨s, hs, by simp⟩

theorem requireArithmetic_eq_ok {u : Unit} :
    requireArithmetic s e = .ok u ↔ s = .int ∨ s = .real := by
  cases s <;> simp [requireArithmetic, SmtSort.isArithmetic]

theorem requireExtensible_eq_ok {extra : Nat} {u : Unit} (h : requireExtensible extra e = .ok u) :
    ∃ w, e.sort = .ok (.bitVec w) ∧ w + extra ≤ 64 := by
  simp only [requireExtensible, bind_eq_ok] at h
  obtain ⟨w, hw, n, hn, h⟩ := h
  refine ⟨w, requireBits_eq_ok.mp hw, ?_⟩
  have hn : n = w + extra := size_eq_ok hn
  by_cases hlt : 64 < n
  · simp [hlt] at h
  · omega

theorem requireRecord_eq_ok {r : Record} : requireRecord e = .ok r ↔ e.sort = .ok r.sort := by
  simp only [requireRecord, bind_eq_ok]
  constructor
  · rintro ⟨s, hs, h⟩
    cases s with
    | record name fields =>
        obtain rfl : (⟨name, fields⟩ : Record) = r := by simpa [SmtSort.record?] using h
        exact hs
    | _ => simp [SmtSort.record?] at h
  · intro hs
    exact ⟨r.sort, hs, rfl⟩

/-! ## Connectives and comparisons -/

theorem not_eq_ok : Build.not e = .ok f ↔ e.sort = .ok .bool ∧ f = .not e := by
  simp [Build.not, requireBool_eq_ok, @eq_comm _ f]

theorem and_eq_ok {es : List Formula} :
    Build.and es = .ok f ↔ (∀ e ∈ es, e.sort = .ok .bool) ∧ f = .and es := by
  simp only [Build.and, bind_eq_ok, requireBools_eq_ok, pure_eq_ok]
  constructor
  · rintro ⟨u, hes, rfl⟩
    exact ⟨hes, rfl⟩
  · rintro ⟨hes, rfl⟩
    exact ⟨(), hes, rfl⟩

theorem or_eq_ok {es : List Formula} :
    Build.or es = .ok f ↔ (∀ e ∈ es, e.sort = .ok .bool) ∧ f = .or es := by
  simp only [Build.or, bind_eq_ok, requireBools_eq_ok, pure_eq_ok]
  constructor
  · rintro ⟨u, hes, rfl⟩
    exact ⟨hes, rfl⟩
  · rintro ⟨hes, rfl⟩
    exact ⟨(), hes, rfl⟩

theorem eq_eq_ok : Build.eq a b = .ok f ↔ (∃ s, a.sort = .ok s ∧ b.sort = .ok s) ∧ f = .eq a b := by
  simp [Build.eq, requireSame_eq_ok, @eq_comm _ f]

theorem ne_eq_ok :
    Build.ne a b = .ok f ↔ (∃ s, a.sort = .ok s ∧ b.sort = .ok s) ∧ f = .not (.eq a b) := by
  simp only [Build.ne, bind_eq_ok, eq_eq_ok, not_eq_ok]
  constructor
  · rintro ⟨g, ⟨hs, rfl⟩, -, rfl⟩
    exact ⟨hs, rfl⟩
  · rintro ⟨hs, rfl⟩
    exact ⟨.eq a b, ⟨hs, rfl⟩, rfl, rfl⟩

theorem compareArith_eq_ok {op : ArithComparison} :
    Build.compareArith op a b = .ok f ↔
      (∃ s, a.sort = .ok s ∧ b.sort = .ok s ∧ (s = .int ∨ s = .real)) ∧
        f = .binary (.compareArith op) a b := by
  simp only [Build.compareArith, bind_eq_ok, requireSame_eq_ok, requireArithmetic_eq_ok,
    pure_eq_ok]
  constructor
  · rintro ⟨s, ⟨ha, hb⟩, u, hs, rfl⟩
    exact ⟨⟨s, ha, hb, hs⟩, rfl⟩
  · rintro ⟨⟨s, ha, hb, hs⟩, rfl⟩
    exact ⟨s, ⟨ha, hb⟩, (), hs, rfl⟩

theorem not_hasSort (he : e.WellSorted) (h : Build.not e = .ok f) : f.HasSort .bool := by
  obtain ⟨hs, rfl⟩ := not_eq_ok.mp h
  simpa using he.hasSort hs

theorem eq_hasSort (ha : a.WellSorted) (hb : b.WellSorted) (h : Build.eq a b = .ok f) :
    f.HasSort .bool := by
  obtain ⟨⟨s, has, hbs⟩, rfl⟩ := eq_eq_ok.mp h
  exact hasSort_binary.mpr ⟨s, s, ha.hasSort has, hb.hasSort hbs, by simp⟩

theorem ne_hasSort (ha : a.WellSorted) (hb : b.WellSorted) (h : Build.ne a b = .ok f) :
    f.HasSort .bool := by
  simp only [Build.ne, bind_eq_ok] at h
  obtain ⟨g, hg, h⟩ := h
  exact not_hasSort (eq_hasSort ha hb hg).wellSorted h

theorem compareArith_hasSort {op : ArithComparison} (ha : a.WellSorted) (hb : b.WellSorted)
    (h : Build.compareArith op a b = .ok f) : f.HasSort .bool := by
  obtain ⟨⟨s, has, hbs, hs⟩, rfl⟩ := compareArith_eq_ok.mp h
  exact hasSort_binary.mpr ⟨s, s, ha.hasSort has, hb.hasSort hbs, by simpa using hs⟩

theorem compareBits_hasSort {op : BitComparison} (ha : a.WellSorted) (hb : b.WellSorted)
    (h : Build.compareBits op a b = .ok f) : f.HasSort .bool := by
  simp only [Build.compareBits, bind_eq_ok, requireBits_eq_ok, requireSame_eq_ok, pure_eq_ok] at h
  obtain ⟨w, hw, s, ⟨has, hbs⟩, rfl⟩ := h
  obtain rfl : .bitVec w = s := Except.ok.inj (hw.symm.trans has)
  exact hasSort_binary.mpr ⟨_, _, ha.hasSort has, hb.hasSort hbs, by simp⟩

/-! ## Values -/

theorem ite_hasSort (hc : c.WellSorted) (ha : a.WellSorted) (hb : b.WellSorted)
    (h : Build.ite c a b = .ok f) : f.WellSorted := by
  simp only [Build.ite, bind_eq_ok, requireBool_eq_ok, requireSame_eq_ok, pure_eq_ok] at h
  obtain ⟨u, hcs, s, ⟨has, hbs⟩, rfl⟩ := h
  exact ⟨s, hasSort_ite.mpr ⟨hc.hasSort hcs, ha.hasSort has, hb.hasSort hbs⟩⟩

theorem bits_wellSorted {op : BitOp} (ha : a.WellSorted) (hb : b.WellSorted)
    (h : Build.bits op a b = .ok f) : f.WellSorted := by
  simp only [Build.bits, bind_eq_ok, requireBits_eq_ok, requireSame_eq_ok, pure_eq_ok] at h
  obtain ⟨w, hw, s, ⟨has, hbs⟩, rfl⟩ := h
  obtain rfl : .bitVec w = s := Except.ok.inj (hw.symm.trans has)
  exact ⟨.bitVec w, hasSort_binary.mpr ⟨_, _, ha.hasSort has, hb.hasSort hbs, by simp⟩⟩

theorem arith_wellSorted {op : ArithOp} (ha : a.WellSorted) (hb : b.WellSorted)
    (h : Build.arith op a b = .ok f) : f.WellSorted := by
  simp only [Build.arith, bind_eq_ok, requireSame_eq_ok, requireArithmetic_eq_ok, pure_eq_ok] at h
  obtain ⟨s, ⟨has, hbs⟩, u, hs, rfl⟩ := h
  exact ⟨s, hasSort_binary.mpr ⟨s, s, ha.hasSort has, hb.hasSort hbs, by simpa using hs⟩⟩

theorem neg_wellSorted (he : e.WellSorted) (h : Build.neg e = .ok f) : f.WellSorted := by
  simp only [Build.neg, bind_eq_ok, requireArithmetic_eq_ok, pure_eq_ok] at h
  obtain ⟨s, hes, u, hs, rfl⟩ := h
  exact ⟨s, hasSort_unary.mpr ⟨s, he.hasSort hes, by simpa using hs⟩⟩

theorem extract_wellSorted {high low : Nat} (he : e.WellSorted)
    (h : Build.extract high low e = .ok f) : f.WellSorted := by
  simp only [Build.extract, bind_eq_ok, requireBits_eq_ok] at h
  obtain ⟨w, hw, h⟩ := h
  split at h
  · simp at h
  · next hrange =>
    obtain rfl : Formula.unary (.extract high low) e = f := by simpa using h
    exact ⟨.bitVec (high - low + 1), hasSort_unary.mpr
      ⟨_, he.hasSort hw, result?_extract.mpr ⟨w, rfl, by omega, rfl⟩⟩⟩

theorem zeroExtend_wellSorted {extra : Nat} (he : e.WellSorted)
    (h : Build.zeroExtend extra e = .ok f) : f.WellSorted := by
  simp only [Build.zeroExtend, bind_eq_ok, pure_eq_ok] at h
  obtain ⟨u, hu, rfl⟩ := h
  obtain ⟨w, hw, hle⟩ := requireExtensible_eq_ok hu
  exact ⟨_, hasSort_unary.mpr ⟨_, he.hasSort hw, result?_zeroExtend.mpr ⟨w, rfl, hle, rfl⟩⟩⟩

theorem signExtend_wellSorted {extra : Nat} (he : e.WellSorted)
    (h : Build.signExtend extra e = .ok f) : f.WellSorted := by
  simp only [Build.signExtend, bind_eq_ok, pure_eq_ok] at h
  obtain ⟨u, hu, rfl⟩ := h
  obtain ⟨w, hw, hle⟩ := requireExtensible_eq_ok hu
  exact ⟨_, hasSort_unary.mpr ⟨_, he.hasSort hw, result?_signExtend.mpr ⟨w, rfl, hle, rfl⟩⟩⟩

theorem bitsToInt_wellSorted (he : e.WellSorted) (h : Build.bitsToInt e = .ok f) :
    f.WellSorted := by
  simp only [Build.bitsToInt, bind_eq_ok, requireBits_eq_ok, pure_eq_ok] at h
  obtain ⟨w, hw, rfl⟩ := h
  exact ⟨.int, hasSort_unary.mpr ⟨_, he.hasSort hw, by simp⟩⟩

theorem intToBits_wellSorted {w : Nat} (he : e.WellSorted) (h : Build.intToBits w e = .ok f) :
    f.WellSorted := by
  simp only [Build.intToBits, bind_eq_ok, requireSort_eq_ok, pure_eq_ok] at h
  obtain ⟨u, hs, rfl⟩ := h
  exact ⟨.bitVec w, hasSort_unary.mpr ⟨_, he.hasSort hs, by simp⟩⟩

theorem toReal_wellSorted (he : e.WellSorted) (h : Build.toReal e = .ok f) : f.WellSorted := by
  simp only [Build.toReal, bind_eq_ok, requireSort_eq_ok, pure_eq_ok] at h
  obtain ⟨u, hs, rfl⟩ := h
  exact ⟨.real, hasSort_unary.mpr ⟨_, he.hasSort hs, by simp⟩⟩

theorem toInt_wellSorted (he : e.WellSorted) (h : Build.toInt e = .ok f) : f.WellSorted := by
  simp only [Build.toInt, bind_eq_ok, requireSort_eq_ok, pure_eq_ok] at h
  obtain ⟨u, hs, rfl⟩ := h
  exact ⟨.int, hasSort_unary.mpr ⟨_, he.hasSort hs, by simp⟩⟩

/-! ## Records -/

theorem get_eq_ok {field : String} :
    Build.get e field = .ok f ↔ ∃ r i, e.sort = .ok r.sort ∧ r.fieldIndex? field = some i ∧
      f = .unary (.get r i) e := by
  simp only [Build.get, bind_eq_ok, requireRecord_eq_ok]
  constructor
  · rintro ⟨r, hr, h⟩
    cases hi : r.fieldIndex? field with
    | none => simp [hi] at h
    | some i => exact ⟨r, i, hr, hi, by simpa [hi, @eq_comm _ f] using h⟩
  · rintro ⟨r, i, hr, hi, rfl⟩
    exact ⟨r, hr, by simp [hi]⟩

theorem get_wellSorted {field : String} (he : e.WellSorted) (h : Build.get e field = .ok f) :
    f.WellSorted := by
  obtain ⟨r, i, hr, hi, rfl⟩ := get_eq_ok.mp h
  obtain ⟨hlt, -⟩ := List.findIdx?_eq_some_iff_getElem.mp hi
  refine ⟨(r.fields.get ⟨i, hlt⟩).2, hasSort_unary.mpr ⟨r.sort, he.hasSort hr, ?_⟩⟩
  simp [Record.fieldSort?, List.getElem?_eq_getElem hlt]

theorem make_wellSorted {r : Record} {fields : List Formula} (hfields : ∀ e ∈ fields, e.WellSorted)
    (h : Build.make r fields = .ok f) : f.WellSorted := by
  unfold Build.make at h
  split at h
  · simp at h
  · next hlen =>
    simp only [bind_eq_ok, pure_eq_ok] at h
    obtain ⟨u, hall, rfl⟩ := h
    rw [forM_eq_ok] at hall
    have hlen : fields.length = r.fields.length := by simpa using hlen
    refine ⟨r.sort, hasSort_make.mpr ⟨rfl, List.forall₂_iff_zip.mpr ⟨hlen, ?_⟩⟩⟩
    rintro e ⟨name, s⟩ hmem
    have hs := hall (e, name, s) hmem
    simp only [bind_eq_ok] at hs
    obtain ⟨t, ht, hs⟩ := hs
    by_cases heq : t = s
    · exact (hfields e (List.of_mem_zip hmem).1).hasSort (heq ▸ ht)
    · simp [heq] at hs

theorem set_wellSorted {field : String} {value : Formula} (he : e.WellSorted)
    (hvalue : value.WellSorted) (h : Build.set e field value = .ok f) : f.WellSorted := by
  simp only [Build.set, bind_eq_ok] at h
  obtain ⟨r, hr, fields, hfields, h⟩ := h
  refine make_wellSorted (fun x hx => ?_) h
  obtain ⟨⟨name, s⟩, -, hx⟩ := mem_of_mapM_eq_ok hfields hx
  dsimp only at hx
  split at hx
  · obtain rfl : value = x := by simpa using hx
    exact hvalue
  · exact get_wellSorted he hx

end Build

end PlayerPaths
