import PlayerPaths.Proofs.Formula.BitVectors
import PlayerPaths.Proofs.Solve.Candidates

/-!
# Enough candidates

Literals about a leaf compare its value with constants. For every value of a leaf there is a
candidate that compares with all constants in the same way (`candidates_adequate`): the constants
and their neighbours, the ends of the range and the sign boundary meet every region between
constants, and the fresh string differs from all of them. Reals and records are left out.
-/

namespace PlayerPaths

open Formula

/-- Two values compare in the same way with the constants of a sort. -/
def Alike (t : SmtSort) (constants : List Formula) (x y : Formula) : Prop :=
  ∀ c ∈ constants, c.HasSort t → (x = c ↔ y = c) ∧
    ∀ op : BitComparison,
      (BinaryFunction.compareBits op).apply x c = (BinaryFunction.compareBits op).apply y c ∧
      (BinaryFunction.compareBits op).apply c x = (BinaryFunction.compareBits op).apply c y

theorem Alike.refl (t : SmtSort) (constants : List Formula) (x : Formula) :
    Alike t constants x x :=
  fun _ _ _ => ⟨Iff.rfl, fun _ => ⟨rfl, rfl⟩⟩

/-- Among the elements with a property, one is least. -/
theorem exists_least {α : Type} (f : α → Int) (p : α → Prop) {l : List α} (h : ∃ a ∈ l, p a) :
    ∃ a ∈ l, p a ∧ ∀ b ∈ l, p b → f a ≤ f b := by
  induction l with
  | nil => simp at h
  | cons a l ih =>
      by_cases hl : ∃ b ∈ l, p b
      · obtain ⟨b, hb, hpb, hleast⟩ := ih hl
        by_cases ha : p a ∧ f a ≤ f b
        · refine ⟨a, List.mem_cons_self, ha.1, fun c hc hpc => ?_⟩
          rcases List.mem_cons.mp hc with rfl | hc
          · exact Int.le_refl _
          · exact Int.le_trans ha.2 (hleast c hc hpc)
        · refine ⟨b, List.mem_cons_of_mem _ hb, hpb, fun c hc hpc => ?_⟩
          rcases List.mem_cons.mp hc with rfl | hc
          · have : ¬ f c ≤ f b := fun hle => ha ⟨hpc, hle⟩
            omega
          · exact hleast c hc hpc
      · obtain ⟨b, hb, hpb⟩ := h
        rcases List.mem_cons.mp hb with rfl | hb
        · refine ⟨b, List.mem_cons_self, hpb, fun c hc hpc => ?_⟩
          rcases List.mem_cons.mp hc with rfl | hc
          · exact Int.le_refl _
          · exact absurd ⟨c, hc, hpc⟩ hl
        · exact absurd ⟨b, hb, hpb⟩ hl

/-! ## Bit vectors -/

/-- Numbers on the same side of a constant and of the sign boundary compare in the same way with
the constant. -/
theorem holds_congr {x y n w : Nat} (hw : 1 ≤ w ∧ w ≤ 64) (hx : x < pow2 w) (hy : y < pow2 w)
    (hn : n < pow2 w) (hlt : x < n ↔ y < n) (hgt : n < x ↔ n < y)
    (hsign : x < pow2 (w - 1) ↔ y < pow2 (w - 1)) (op : BitComparison) :
    op.holds x n w = op.holds y n w ∧ op.holds n x w = op.holds n y w := by
  have hpow := pow2_succ hw.1
  have hsigned : (Bits.signed x w < Bits.signed n w ↔ Bits.signed y w < Bits.signed n w) ∧
      (Bits.signed n w < Bits.signed x w ↔ Bits.signed n w < Bits.signed y w) := by
    rw [signed_eq hw hx, signed_eq hw hy, signed_eq hw hn]
    split <;> split <;> split <;> omega
  unfold BitComparison.holds
  cases op <;> simp only [decide_eq_decide] <;> omega

theorem bits_adequate {w : Nat} {constants values : List Formula} {x : Formula}
    (hw : 1 ≤ w ∧ w ≤ 64) (hx : x.IsValue (.bitVec w))
    (hconstants : ∀ c ∈ constants, ∃ u, c.IsValue u)
    (h : candidates (.bitVec w) constants = .ok values) :
    ∃ y ∈ values, Alike (.bitVec w) constants x y := by
  obtain ⟨points, hpoints, rfl⟩ : ∃ points, bitCandidates w constants = .ok points ∧
      setOf points = values := by simpa [candidates] using h
  obtain ⟨m, rfl⟩ := constant_bitVec hx.constant hx.hasSort
  have hm := (isValue_lit_bits.mp hx).2
  have hbits : ∀ n, Formula.bits n w = .lit (.bits (n % pow2 w) w) := fun n => by
    rw [Formula.bits, Nat.min_eq_left hw.2]
  -- The greatest candidate that is not above the value.
  obtain ⟨y, hy, hym, hgreatest⟩ := exists_least (fun v : Nat => -(v : Int)) (· ≤ m)
    (l := (bitPoints w constants).map (· % pow2 w))
    ⟨0, by simp [bitPoints], Nat.zero_le m⟩
  have hpoint : ∀ v ∈ bitPoints w constants, v < pow2 w → v ≤ m → v ≤ y := by
    intro v hv hlt hle
    have := hgreatest v (List.mem_map.mpr ⟨v, hv, Nat.mod_eq_of_lt hlt⟩) hle
    omega
  obtain ⟨p, hp, rfl⟩ := List.mem_map.mp hy
  refine ⟨Formula.bits p w, ?_, ?_⟩
  · rw [mem_setOf, bitCandidates_eq_ok hpoints]
    exact List.mem_map_of_mem hp
  · rw [hbits]
    by_cases heq : m = p % pow2 w
    · rw [← heq]
      exact Alike.refl _ _ _
    · intro c hc hsort
      obtain ⟨u, hu⟩ := hconstants c hc
      obtain rfl := hu.hasSort.unique hsort
      obtain ⟨n, rfl⟩ := constant_bitVec hu.constant hsort
      have hn := (isValue_lit_bits.mp hu).2
      have hword : n ∈ constants.filterMap wordOf? := List.mem_filterMap.mpr ⟨_, hc, rfl⟩
      have hself := hpoint n
        (List.mem_append_right _ (List.mem_flatMap.mpr ⟨n, hword, by simp⟩)) hn
      have hnext := hpoint (n + 1)
        (List.mem_append_right _ (List.mem_flatMap.mpr ⟨n, hword, by simp⟩))
      have hpow := pow2_succ hw.1
      have hsign : pow2 (w - 1) ≤ m → pow2 (w - 1) ≤ p % pow2 w :=
        hpoint _ (by simp [bitPoints, Nat.max_eq_left hw.1]) (by omega)
      have hlt : m < n ↔ p % pow2 w < n := by omega
      have hgt : n < m ↔ n < p % pow2 w := by omega
      have hne : m = n ↔ p % pow2 w = n := by omega
      refine ⟨?_, fun op => ?_⟩
      · simpa using hne
      · obtain ⟨h₁, h₂⟩ := holds_congr hw hm (Nat.mod_lt _ (Nat.pow_pos (by decide))) hn hlt hgt
          (by omega) op
        simp [BinaryFunction.apply, h₁, h₂]

/-! ## Integers and strings -/

/-- Values that are no bit vectors are alike when they equal the same constants. -/
theorem alike_of_eq_iff {t : SmtSort} {constants : List Formula} {x y : Formula}
    (hx : x.HasSort t) (hy : y.HasSort t) (ht : ∀ w, t ≠ .bitVec w)
    (h : ∀ c ∈ constants, c.HasSort t → (x = c ↔ y = c)) : Alike t constants x y := by
  have hundefined : ∀ {a b : Formula} (op : BitComparison), a.HasSort t ∨ b.HasSort t →
      (BinaryFunction.compareBits op).apply a b = .error .undefined := by
    intro a b op hsort
    cases h : (BinaryFunction.compareBits op).apply a b with
    | ok v =>
        obtain ⟨m, n, w, u, rfl, rfl, -⟩ := apply_compareBits_eq_ok.mp h
        rcases hsort with hsort | hsort
        · exact absurd (hasSort_lit.mp hsort).symm (ht w)
        · exact absurd (hasSort_lit.mp hsort).symm (ht u)
    | error e =>
        simp only [BinaryFunction.apply] at h
        split at h <;> simp_all [throw, throwThe, MonadExceptOf.throw, pure, Except.pure]
  intro c hc hsort
  refine ⟨h c hc hsort, fun op => ⟨?_, ?_⟩⟩
  · rw [hundefined op (.inl hx), hundefined op (.inl hy)]
  · rw [hundefined op (.inr hx), hundefined op (.inr hy)]

theorem clamp_eq {i : Int} (h : Word.minInt ≤ i ∧ i ≤ Word.maxInt) : Word.clamp i = i := by
  unfold Word.clamp
  omega

def integers (constants : List Formula) : List Int :=
  constants.filterMap fun
    | .int j => some j
    | _ => none

theorem mem_integers {constants : List Formula} {j : Int} :
    j ∈ integers constants ↔ .int j ∈ constants := by
  simp only [integers, List.mem_filterMap]
  constructor
  · rintro ⟨c, hc, h⟩
    split at h
    · simp_all
    · simp at h
  · intro hj
    exact ⟨_, hj, rfl⟩

theorem int_adequate {constants values : List Formula} {x : Formula} (hx : x.IsValue .int)
    (hconstants : ∀ c ∈ constants, ∃ u, c.IsValue u)
    (h : candidates .int constants = .ok values) :
    ∃ y ∈ values, Alike .int constants x y := by
  obtain rfl : setOf (intCandidates constants) = values := by simpa [candidates] using h
  obtain ⟨i, rfl⟩ := constant_int hx.constant hx.hasSort
  have hrange : ∀ {j : Int}, Word.inRange j = true ↔ Word.minInt ≤ j ∧ j ≤ Word.maxInt := by
    simp [Word.inRange]
  have hi := hrange.mp (isValue_int.mp hx)
  have hconst : ∀ j, .int j ∈ constants → Word.minInt ≤ j ∧ j ≤ Word.maxInt := by
    intro j hj
    obtain ⟨u, hu⟩ := hconstants _ hj
    obtain rfl := hasSort_lit.mp hu.hasSort
    exact hrange.mp (isValue_int.mp hu)
  -- A candidate that is no constant is as good as the value, if the value is no constant.
  have fresh : ∀ k, .int k ∈ intCandidates constants → .int k ∉ constants → .int i ∉ constants →
      ∃ y ∈ setOf (intCandidates constants), Alike .int constants (.int i) y := by
    intro k hk hkc hic
    refine ⟨.int k, mem_setOf.mpr hk, alike_of_eq_iff rfl rfl (by simp) fun c hc _ => ?_⟩
    constructor
    · rintro rfl
      exact absurd hc hic
    · rintro rfl
      exact absurd hc hkc
  by_cases hic : .int i ∈ constants
  · exact ⟨.int i, mem_setOf.mpr (mem_intCandidates.mpr (.inr ⟨i, hic, .inl rfl⟩)), .refl _ _ _⟩
  · by_cases habove : ∃ j ∈ integers constants, i < j
    · -- Below the least constant above the value.
      obtain ⟨j, hj, hij, hleast⟩ := exists_least id (i < ·) habove
      have hj := mem_integers.mp hj
      have hjr := hconst j hj
      refine fresh (j - 1) (mem_intCandidates.mpr (.inr ⟨j, hj, .inr (.inr ?_)⟩)) (fun hk => ?_) hic
      · rw [clamp_eq (by omega)]
      · have hne : i ≠ j - 1 := fun heq => hic (heq ▸ hk)
        have := hleast (j - 1) (mem_integers.mpr hk) (by omega)
        simp only [id_eq] at this
        omega
    · by_cases hany : ∃ j ∈ integers constants, True
      · -- Above the greatest constant.
        obtain ⟨j, hj, -, hgreatest⟩ := exists_least (fun j => -j) (fun _ => True) hany
        have hji : j < i := by
          have : ¬ i < j := fun h => habove ⟨j, hj, h⟩
          have : i ≠ j := fun heq => hic (heq ▸ mem_integers.mp hj)
          omega
        have hj := mem_integers.mp hj
        have hjr := hconst j hj
        refine fresh (j + 1) (mem_intCandidates.mpr (.inr ⟨j, hj, .inr (.inl ?_)⟩))
          (fun hk => ?_) hic
        · rw [clamp_eq (by omega)]
        · have := hgreatest (j + 1) (mem_integers.mpr hk) trivial
          omega
      · exact fresh 0 (mem_intCandidates.mpr (.inl rfl))
          (fun h0 => hany ⟨0, mem_integers.mpr h0, trivial⟩) hic

/-- A joined text is at least as long as each of its pieces. -/
theorem length_le_join {s : String} {l : List String} (h : s ∈ l) :
    s.length ≤ (String.join l).length := by
  induction l with
  | nil => simp at h
  | cons t l ih =>
      rw [String.join_cons, String.length_append]
      rcases List.mem_cons.mp h with rfl | h
      · omega
      · have := ih h
        omega

theorem string_adequate {constants values : List Formula} {x : Formula} (hx : x.IsValue .string)
    (h : candidates .string constants = .ok values) :
    ∃ y ∈ values, Alike .string constants x y := by
  obtain ⟨s, rfl⟩ := constant_string hx.constant hx.hasSort
  obtain rfl : setOf (stringCandidates constants) = values := by simpa [candidates] using h
  obtain ⟨known, hknown, heq⟩ : ∃ known : List String, (∀ k, k ∈ known ↔ .str k ∈ constants) ∧
      stringCandidates constants = .str (String.join ("_" :: known)) :: known.map Formula.str := by
    refine ⟨_, fun k => ?_, rfl⟩
    rw [List.mem_filterMap]
    constructor
    · rintro ⟨c, hc, h⟩
      split at h
      · simp_all
      · simp at h
    · intro hk
      exact ⟨_, hk, rfl⟩
  rw [heq]
  by_cases hs : s ∈ known
  · exact ⟨.str s, mem_setOf.mpr (List.mem_cons_of_mem _ (List.mem_map_of_mem hs)), .refl _ _ _⟩
  · refine ⟨_, mem_setOf.mpr List.mem_cons_self, alike_of_eq_iff rfl rfl (by simp) ?_⟩
    intro c hc hsort
    constructor
    · rintro rfl
      exact absurd ((hknown s).mpr hc) hs
    · rintro rfl
      have hle := length_le_join ((hknown _).mpr hc)
      have hlen : (String.join ("_" :: known)).length = 1 + (String.join known).length := by
        rw [String.join_cons, String.length_append]
        rfl
      omega

/-- **There are enough candidates.** For every value of a sort with neither numbers nor fields
behind a point, some candidate compares with all constants as the value does, and truth values are
candidates themselves. -/
theorem candidates_adequate {t : SmtSort} {constants values : List Formula} {x : Formula}
    (ht : t.inRange = true) (hreal : t ≠ .real) (hrecord : ∀ r : Record, t ≠ r.sort)
    (hx : x.IsValue t) (hconstants : ∀ c ∈ constants, ∃ u, c.IsValue u)
    (h : candidates t constants = .ok values) :
    ∃ y ∈ values, Alike t constants x y ∧ (t = .bool → y = x) := by
  cases t with
  | bool =>
      obtain rfl : [.bool false, .bool true] = values := by simpa [candidates] using h
      obtain ⟨b, rfl⟩ := constant_bool hx.constant hx.hasSort
      exact ⟨.bool b, by cases b <;> simp, .refl _ _ _, fun _ => rfl⟩
  | bitVec w =>
      obtain ⟨y, hy, hlike⟩ := bits_adequate (SmtSort.inRange_bitVec.mp ht) hx hconstants h
      exact ⟨y, hy, hlike, by simp⟩
  | int =>
      obtain ⟨y, hy, hlike⟩ := int_adequate hx hconstants h
      exact ⟨y, hy, hlike, by simp⟩
  | real => exact absurd rfl hreal
  | string =>
      obtain ⟨y, hy, hlike⟩ := string_adequate hx h
      exact ⟨y, hy, hlike, by simp⟩
  | record name fields => exact absurd rfl (hrecord ⟨name, fields⟩)

end PlayerPaths
