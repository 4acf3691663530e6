import PlayerPaths.Proofs.Collections
import PlayerPaths.Proofs.Formula.Order
import PlayerPaths.Proofs.Formula.Values

/-!
# Candidate values

Candidates for a leaf are values of its sort (`candidates_isValue`).
-/

namespace PlayerPaths

open Formula

namespace Formula

theorem mem_setOf {e : Formula} {es : List Formula} : e ∈ setOf es ↔ e ∈ es :=
  Sorted.mem_ofList

/-- Leaves are parts. -/
theorem mem_leaves {e l : Formula} (h : l ∈ e.leaves) : l ∈ e.parts ∧ l.isLeaf = true := by
  induction e with
  | var name s => simp_all [leaves, isLeaf]
  | lit v => simp [leaves] at h
  | unary f a ih =>
      rw [leaves] at h
      split at h
      · next hleaf =>
        obtain rfl := List.mem_singleton.mp h
        exact ⟨mem_parts_self _, hleaf⟩
      · exact ⟨mem_parts_unary.mpr (.inr (ih h).1), (ih h).2⟩
  | binary f a b iha ihb =>
      rcases List.mem_append.mp h with h | h
      · exact ⟨mem_parts_binary.mpr (.inr (.inl (iha h).1)), (iha h).2⟩
      · exact ⟨mem_parts_binary.mpr (.inr (.inr (ihb h).1)), (ihb h).2⟩
  | ite c a b ihc iha ihb =>
      simp only [leaves, List.mem_append] at h
      rcases h with (h | h) | h
      · exact ⟨mem_parts_ite.mpr (.inr (.inl (ihc h).1)), (ihc h).2⟩
      · exact ⟨mem_parts_ite.mpr (.inr (.inr (.inl (iha h).1))), (iha h).2⟩
      · exact ⟨mem_parts_ite.mpr (.inr (.inr (.inr (ihb h).1))), (ihb h).2⟩
  | nary f es ih =>
      rw [leaves, leavesAll_eq] at h
      obtain ⟨e, he, h⟩ := List.mem_flatMap.mp h
      exact ⟨mem_parts_nary.mpr (.inr ⟨e, he, (ih e he h).1⟩), (ih e he h).2⟩

/-- Constants of a formula are parts. -/
theorem mem_constants {e c : Formula} (h : c ∈ e.constants) :
    c ∈ e.parts ∧ c.isConstant = true := by
  induction e with
  | var name s => simp [constants] at h
  | lit v => simp_all [constants]
  | unary f a ih => exact ⟨mem_parts_unary.mpr (.inr (ih h).1), (ih h).2⟩
  | binary f a b iha ihb =>
      rcases List.mem_append.mp h with h | h
      · exact ⟨mem_parts_binary.mpr (.inr (.inl (iha h).1)), (iha h).2⟩
      · exact ⟨mem_parts_binary.mpr (.inr (.inr (ihb h).1)), (ihb h).2⟩
  | ite c a b ihc iha ihb =>
      simp only [constants, List.mem_append] at h
      rcases h with (h | h) | h
      · exact ⟨mem_parts_ite.mpr (.inr (.inl (ihc h).1)), (ihc h).2⟩
      · exact ⟨mem_parts_ite.mpr (.inr (.inr (.inl (iha h).1))), (iha h).2⟩
      · exact ⟨mem_parts_ite.mpr (.inr (.inr (.inr (ihb h).1))), (ihb h).2⟩
  | nary f es ih =>
      rw [constants, constantsAll_eq] at h
      split at h
      · next hc =>
        obtain rfl := List.mem_singleton.mp h
        exact ⟨mem_parts_self _, hc⟩
      · obtain ⟨e, he, h⟩ := List.mem_flatMap.mp h
        exact ⟨mem_parts_nary.mpr (.inr ⟨e, he, (ih e he h).1⟩), (ih e he h).2⟩

end Formula

/-! ## Sorts of candidates -/

theorem clamp_inRange (i : Int) : Word.inRange (Word.clamp i) = true := by
  have hmin : Word.minInt = -9223372036854775808 := by decide
  have hmax : Word.maxInt = 9223372036854775807 := by decide
  simp only [Word.inRange, Word.clamp, hmin, hmax, Bool.and_eq_true, decide_eq_true_eq]
  omega

/-- The values worth trying for a bit vector, without the cut to the width. -/
def bitPoints (width : Nat) (constants : List Formula) : List Nat :=
  [0, 1, pow2 width - 1, pow2 (max width 1 - 1), pow2 (max width 1 - 1) - 1] ++
    (constants.filterMap wordOf?).flatMap fun n => [n, n + 1, n + (Word.limit - 1)]

theorem bitCandidates_eq_ok {width : Nat} {constants values : List Formula}
    (h : bitCandidates width constants = .ok values) :
    values = (bitPoints width constants).map fun n => Formula.bits n width := by
  unfold bitCandidates at h
  split at h
  · simp at h
  · exact (pure_eq_ok.mp h).symm

/-- Integer candidates are zero, the constants and their neighbours. -/
theorem mem_intCandidates {constants : List Formula} {v : Formula} :
    v ∈ intCandidates constants ↔ v = .int 0 ∨ ∃ i, .int i ∈ constants ∧
      (v = .int i ∨ v = .int (Word.clamp (i + 1)) ∨ v = .int (Word.clamp (i - 1))) := by
  simp only [intCandidates, List.mem_cons, List.mem_flatMap]
  refine or_congr_right ⟨?_, ?_⟩
  · rintro ⟨c, hc, hv⟩
    split at hv
    · next i => exact ⟨i, hc, by simpa using hv⟩
    · simp at hv
  · rintro ⟨i, hi, hv⟩
    exact ⟨_, hi, by simpa using hv⟩

/-- **Candidates are values.** Every candidate for a leaf of a sort is a value of the sort, if the
constants are values. -/
theorem candidates_isValue {s : SmtSort} {constants values : List Formula}
    (hs : s.inRange = true) (hconstants : ∀ c ∈ constants, ∃ t, c.IsValue t)
    (h : candidates s constants = .ok values) : ∀ v ∈ values, v.IsValue s := by
  intro v hv
  cases s with
  | bool =>
      obtain rfl : [.bool false, .bool true] = values := by simpa [candidates] using h
      rcases List.mem_pair.mp hv with rfl | rfl <;> exact isValue_bool _
  | bitVec width =>
      obtain ⟨points, hpoints, rfl⟩ : ∃ points, bitCandidates width constants = .ok points ∧
          setOf points = values := by simpa [candidates] using h
      rw [bitCandidates_eq_ok hpoints, mem_setOf] at hv
      obtain ⟨n, -, rfl⟩ := List.mem_map.mp hv
      exact isValue_bits n (SmtSort.inRange_bitVec.mp hs)
  | int =>
      obtain rfl : setOf (intCandidates constants) = values := by simpa [candidates] using h
      rcases mem_intCandidates.mp (mem_setOf.mp hv) with rfl | ⟨i, hi, rfl | rfl | rfl⟩
      · exact isValue_int.mpr (by decide)
      · obtain ⟨t, ht⟩ := hconstants _ hi
        obtain rfl := hasSort_lit.mp ht.hasSort
        exact ht
      · exact isValue_int.mpr (clamp_inRange _)
      · exact isValue_int.mpr (clamp_inRange _)
  | real =>
      obtain rfl : setOf (realCandidates constants) = values := by simpa [candidates] using h
      obtain ⟨x, -, rfl⟩ := List.mem_map.mp (mem_setOf.mp hv)
      exact isValue_real x
  | string =>
      obtain rfl : setOf (stringCandidates constants) = values := by simpa [candidates] using h
      have hv := mem_setOf.mp hv
      simp only [stringCandidates, List.mem_cons, List.mem_map] at hv
      rcases hv with rfl | ⟨s, -, rfl⟩ <;> exact isValue_str _
  | record name fields =>
      obtain ⟨points, hpoints, rfl⟩ : ∃ points,
          recordCandidates (.record name fields) constants = .ok points ∧
            setOf points = values := by
        simpa [candidates] using h
      simp only [recordCandidates, bind_eq_ok, pure_eq_ok] at hpoints
      obtain ⟨kept, hkept, rfl⟩ := hpoints
      rcases List.mem_cons.mp (mem_setOf.mp hv) with rfl | hv
      · exact isValue_zero hs
      · obtain ⟨hsub, hall⟩ := filterM_eq_ok hkept
        obtain ⟨t, ht⟩ := hconstants v (hsub.mem hv)
        have hsort := hall v hv
        simp only [bind_eq_ok, pure_eq_ok, decide_eq_true_eq] at hsort
        obtain ⟨u, hu, rfl⟩ := hsort
        rwa [sort_agrees ht.hasSort hu]

end PlayerPaths
