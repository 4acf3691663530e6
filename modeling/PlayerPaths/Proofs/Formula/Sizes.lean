import PlayerPaths.Proofs.Formula.Values

/-!
# Formulas that a machine can hold

Widths are machine sizes, and literals are machine words: a formula is *sized* when all of them
fit. Formulas in range are sized, and a width of zero or beyond 64 bits is still a size. The sort
of a sized formula can be computed: no size leaves the range on the way (`Formula.sort_sized`).
-/

namespace PlayerPaths

namespace Word

theorem lt_limit {n : Nat} (h : n ≤ 64) : n < limit := by
  have hlimit : limit = 18446744073709551616 := by decide
  omega

theorem size_of_lt {n : Nat} (h : n < limit) : size n = .ok n := if_pos h

end Word

namespace SmtSort

mutual

/-- Every width in a sort is a size. -/
def isSized : SmtSort → Bool
  | .bitVec w => w < Word.limit
  | .record _ fields => areSized fields
  | _ => true

def areSized : List (String × SmtSort) → Bool
  | [] => true
  | (_, s) :: fields => s.isSized && areSized fields

end

theorem isSized_bitVec {w : Nat} : (SmtSort.bitVec w).isSized = true ↔ w < Word.limit := by
  simp [isSized]

theorem isSized_record {name : String} {fields : List (String × SmtSort)} :
    (SmtSort.record name fields).isSized = true ↔ ∀ f ∈ fields, f.2.isSized = true := by
  simp only [isSized]
  induction fields with
  | nil => simp [areSized]
  | cons f fields ih => simp [areSized, ih]

theorem isSized_of_inRange {s : SmtSort} (h : s.inRange = true) : s.isSized = true := by
  induction s with
  | bitVec w =>
      exact isSized_bitVec.mpr (Word.lt_limit (inRange_bitVec.mp h).2)
  | record name fields ih =>
      have hfields := inRange_record.mp h
      exact isSized_record.mpr fun f hf => ih f hf (hfields f hf)
  | _ => rfl

end SmtSort

/-- A literal that fits a machine word. A bit vector has no bits beyond its width. -/
def Literal.isSized : Literal → Bool
  | .bits value width => width < Word.limit && value < pow2 (min width 64)
  | .int i => Word.inRange i
  | _ => true

namespace Formula

/-- What a formula says about literals and widths itself, its parts left aside. -/
def nodeSized : Formula → Bool
  | .var _ s => s.isSized
  | .lit v => v.isSized
  | .unary (.intToBits w) _ => (SmtSort.bitVec w).isSized
  | .unary (.get r _) _ => r.sort.isSized
  | .nary (.make r) _ => r.sort.isSized
  | _ => true

/-- All literals and widths of a formula fit a machine word. -/
def Sized (e : Formula) : Prop := e.Every fun p => p.nodeSized = true

instance (e : Formula) : Decidable e.Sized :=
  inferInstanceAs (Decidable (∀ p ∈ e.parts, p.nodeSized = true))

theorem nodeSized_of_nodeInRange {p : Formula} (h : p.nodeInRange = true) :
    p.nodeSized = true := by
  unfold nodeInRange at h
  split at h
  · exact SmtSort.isSized_of_inRange h
  · next v =>
    cases v with
    | bits value width =>
        obtain ⟨hwidth, hvalue⟩ := by simpa [Literal.inRange] using h
        have hlimit := SmtSort.isSized_bitVec.mp (SmtSort.isSized_of_inRange hwidth)
        have hmin := Nat.min_eq_left (SmtSort.inRange_bitVec.mp hwidth).2
        simpa [nodeSized, Literal.isSized, hmin] using ⟨hlimit, hvalue⟩
    | int i => exact h
    | _ => rfl
  · exact SmtSort.isSized_of_inRange h
  · exact SmtSort.isSized_of_inRange h
  · exact SmtSort.isSized_of_inRange h
  · unfold nodeSized
    split <;> simp_all

theorem InRange.sized {e : Formula} (h : e.InRange) : e.Sized :=
  fun p hp => nodeSized_of_nodeInRange (h p hp)

/-- A well-sorted formula whose widths are sizes has its sort computed, and it is a sort of sizes. -/
theorem sort_sized {e : Formula} {s : SmtSort} (hs : e.HasSort s) (hz : e.Sized) :
    e.sort = .ok s ∧ s.isSized = true := by
  induction e generalizing s with
  | var name t =>
      obtain rfl := hasSort_var.mp hs
      exact ⟨rfl, hz.self⟩
  | lit v =>
      obtain rfl := hasSort_lit.mp hs
      refine ⟨rfl, ?_⟩
      cases v with
      | bits value width => exact ((Bool.and_eq_true _ _).mp hz.self).1
      | _ => rfl
  | unary f a ih =>
      obtain ⟨t, ht, hf⟩ := hasSort_unary.mp hs
      obtain ⟨hnode, ha⟩ := every_unary.mp hz
      obtain ⟨hsort, hsized⟩ := ih ht ha
      cases f with
      | neg =>
          obtain ⟨-, rfl⟩ := result?_neg.mp hf
          exact ⟨hsort, hsized⟩
      | extract high low =>
          obtain ⟨w, rfl, hbound, rfl⟩ := result?_extract.mp hf
          have hw := SmtSort.isSized_bitVec.mp hsized
          have hlt : high - low + 1 < Word.limit := by omega
          exact ⟨by simp [sort, Nat.not_lt.mpr hbound.1, Word.size_of_lt hlt],
            SmtSort.isSized_bitVec.mpr hlt⟩
      | zeroExtend extra | signExtend extra =>
          obtain ⟨w, rfl, hbound, rfl⟩ : ∃ w, t = .bitVec w ∧ w + extra ≤ 64 ∧
              s = .bitVec (w + extra) := by simpa using hf
          have hlt := Word.lt_limit hbound
          exact ⟨by simp [sort, hsort, Word.add, SmtSort.width, SmtSort.width?, Word.size_of_lt hlt],
            SmtSort.isSized_bitVec.mpr hlt⟩
      | intToBits w =>
          obtain ⟨-, rfl⟩ := result?_intToBits.mp hf
          exact ⟨rfl, hnode⟩
      | get r i =>
          obtain ⟨rfl, hi⟩ := result?_get.mp hf
          obtain ⟨field, hfield, rfl⟩ := Option.map_eq_some_iff.mp hi
          exact ⟨by simp [sort, hi],
            SmtSort.isSized_record.mp hsized field (List.mem_of_getElem? hfield)⟩
      | _ => simp_all [sort, SmtSort.isSized]
  | binary f a b iha ihb =>
      obtain ⟨t, u, ht, hu, hf⟩ := hasSort_binary.mp hs
      obtain ⟨-, ha, hb⟩ := every_binary.mp hz
      obtain ⟨hsort, hsized⟩ := iha ht ha
      obtain ⟨hsort', -⟩ := ihb hu hb
      cases f with
      | bits op =>
          obtain ⟨w, rfl, rfl, rfl⟩ := result?_bits.mp hf
          exact ⟨hsort, hsized⟩
      | arith op =>
          obtain ⟨-, -, rfl⟩ := result?_arith.mp hf
          exact ⟨hsort, hsized⟩
      | concat =>
          obtain ⟨m, n, rfl, rfl, hbound, rfl⟩ := result?_concat.mp hf
          have hlt := Word.lt_limit hbound
          exact ⟨by simp [sort, hsort, hsort', Word.add, SmtSort.width, SmtSort.width?,
            Word.size_of_lt hlt], SmtSort.isSized_bitVec.mpr hlt⟩
      | _ => simp_all [sort, SmtSort.isSized]
  | ite c a b ihc iha ihb =>
      obtain ⟨-, ha, -⟩ := hasSort_ite.mp hs
      exact iha ha (every_ite.mp hz).2.2.1
  | nary f es ih =>
      cases f with
      | make r =>
          obtain ⟨rfl, -⟩ := hasSort_make.mp hs
          exact ⟨rfl, (every_nary.mp hz).1⟩
      | and | or =>
          obtain ⟨rfl, -⟩ := by simpa using hs
          exact ⟨rfl, rfl⟩

end Formula

end PlayerPaths
