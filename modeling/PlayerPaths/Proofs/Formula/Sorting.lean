import PlayerPaths.Proofs.Formula.Structure

/-!
# Well-sorted formulas

`Formula.sort?` computes the sort of a formula and looks at every part on the way, where
`Formula.sort` trusts the parts. A formula *has a sort* when `sort?` finds it, and then `sort`
gives no other (`Formula.sort_agrees`).
-/

namespace PlayerPaths

/-- The sort of a function of one argument, for an argument of a sort it accepts. -/
def UnaryFunction.result? (f : UnaryFunction) (s : SmtSort) : Option SmtSort :=
  match f, s with
  | .not, .bool => some .bool
  | .neg, .int => some .int
  | .neg, .real => some .real
  | .extract high low, .bitVec w =>
    if low ≤ high ∧ high < w then some (.bitVec (high - low + 1)) else none
  | .zeroExtend extra, .bitVec w | .signExtend extra, .bitVec w =>
    if w + extra ≤ 64 then some (.bitVec (w + extra)) else none
  | .bitsToInt, .bitVec _ => some .int
  | .intToBits w, .int => some (.bitVec w)
  | .toReal, .int => some .real
  | .toInt, .real => some .int
  | .get r i, s => if s = r.sort then r.fieldSort? i else none
  | _, _ => none

def BinaryFunction.result? (f : BinaryFunction) (s t : SmtSort) : Option SmtSort :=
  match f, s, t with
  | .eq, s, t => if s = t then some .bool else none
  | .bits _, .bitVec m, .bitVec n => if m = n then some (.bitVec m) else none
  | .compareBits _, .bitVec m, .bitVec n => if m = n then some .bool else none
  | .arith _, .int, .int => some .int
  | .arith _, .real, .real => some .real
  | .compareArith _, .int, .int | .compareArith _, .real, .real => some .bool
  | .concat, .bitVec m, .bitVec n => if m + n ≤ 64 then some (.bitVec (m + n)) else none
  | _, _, _ => none

def NaryFunction.result? (f : NaryFunction) (ss : List SmtSort) : Option SmtSort :=
  match f with
  | .and | .or => if ∀ s ∈ ss, s = .bool then some .bool else none
  | .make r => if ss = r.fields.map Prod.snd then some r.sort else none

/-! ## Inversion of `result?`, one lemma per function -/

section

variable {s t u : SmtSort}

attribute [local simp] UnaryFunction.result? BinaryFunction.result?

@[simp] theorem result?_not :
    UnaryFunction.not.result? s = some t ↔ s = .bool ∧ t = .bool := by
  cases s <;> simp [eq_comm]

@[simp] theorem result?_neg :
    UnaryFunction.neg.result? s = some t ↔ (s = .int ∨ s = .real) ∧ t = s := by
  cases s <;> simp [eq_comm]

@[simp] theorem result?_extract {high low : Nat} :
    (UnaryFunction.extract high low).result? s = some t ↔
      ∃ w, s = .bitVec w ∧ (low ≤ high ∧ high < w) ∧ t = .bitVec (high - low + 1) := by
  cases s <;> simp [eq_comm]

@[simp] theorem result?_zeroExtend {extra : Nat} :
    (UnaryFunction.zeroExtend extra).result? s = some t ↔
      ∃ w, s = .bitVec w ∧ w + extra ≤ 64 ∧ t = .bitVec (w + extra) := by
  cases s <;> simp [eq_comm]

@[simp] theorem result?_signExtend {extra : Nat} :
    (UnaryFunction.signExtend extra).result? s = some t ↔
      ∃ w, s = .bitVec w ∧ w + extra ≤ 64 ∧ t = .bitVec (w + extra) := by
  cases s <;> simp [eq_comm]

@[simp] theorem result?_bitsToInt :
    UnaryFunction.bitsToInt.result? s = some t ↔ (∃ w, s = .bitVec w) ∧ t = .int := by
  cases s <;> simp [eq_comm]

@[simp] theorem result?_intToBits {w : Nat} :
    (UnaryFunction.intToBits w).result? s = some t ↔ s = .int ∧ t = .bitVec w := by
  cases s <;> simp [eq_comm]

@[simp] theorem result?_toReal :
    UnaryFunction.toReal.result? s = some t ↔ s = .int ∧ t = .real := by
  cases s <;> simp [eq_comm]

@[simp] theorem result?_toInt :
    UnaryFunction.toInt.result? s = some t ↔ s = .real ∧ t = .int := by
  cases s <;> simp [eq_comm]

@[simp] theorem result?_get {r : Record} {i : Nat} :
    (UnaryFunction.get r i).result? s = some t ↔ s = r.sort ∧ r.fieldSort? i = some t := by
  simp

@[simp] theorem result?_eq : BinaryFunction.eq.result? s t = some u ↔ s = t ∧ u = .bool := by
  simp [eq_comm]

@[simp] theorem result?_bits {op : BitOp} :
    (BinaryFunction.bits op).result? s t = some u ↔
      ∃ w, s = .bitVec w ∧ t = .bitVec w ∧ u = .bitVec w := by
  cases s <;> cases t <;> simp [eq_comm]

@[simp] theorem result?_compareBits {c : BitComparison} :
    (BinaryFunction.compareBits c).result? s t = some u ↔
      (∃ w, s = .bitVec w ∧ t = .bitVec w) ∧ u = .bool := by
  cases s <;> cases t <;> simp [eq_comm]

@[simp] theorem result?_arith {op : ArithOp} :
    (BinaryFunction.arith op).result? s t = some u ↔
      (s = .int ∨ s = .real) ∧ t = s ∧ u = s := by
  cases s <;> cases t <;> simp [eq_comm]

@[simp] theorem result?_compareArith {c : ArithComparison} :
    (BinaryFunction.compareArith c).result? s t = some u ↔
      (s = .int ∨ s = .real) ∧ t = s ∧ u = .bool := by
  cases s <;> cases t <;> simp [eq_comm]

@[simp] theorem result?_concat :
    BinaryFunction.concat.result? s t = some u ↔
      ∃ m n, s = .bitVec m ∧ t = .bitVec n ∧ m + n ≤ 64 ∧ u = .bitVec (m + n) := by
  cases s <;> cases t <;> simp [eq_comm]

end

namespace Formula

mutual

/-- The sort of a formula all of whose parts are well sorted. -/
def sort? : Formula → Option SmtSort
  | .var _ s => some s
  | .lit v => some v.sort
  | .unary f a => do f.result? (← a.sort?)
  | .binary f a b => do f.result? (← a.sort?) (← b.sort?)
  | .ite c a b => do
    let k ← c.sort?
    let s ← a.sort?
    let t ← b.sort?
    if k = .bool ∧ s = t then some s else none
  | .nary f es => do f.result? (← sorts? es)

def sorts? : List Formula → Option (List SmtSort)
  | [] => some []
  | e :: es => do
    let s ← e.sort?
    return s :: (← sorts? es)

end

/-- A well-sorted formula of a sort. -/
def HasSort (e : Formula) (s : SmtSort) : Prop := e.sort? = some s

instance (e : Formula) (s : SmtSort) : Decidable (e.HasSort s) :=
  inferInstanceAs (Decidable (e.sort? = some s))

theorem sorts?_eq_some {es : List Formula} {ss : List SmtSort} :
    sorts? es = some ss ↔ List.Forall₂ HasSort es ss := by
  induction es generalizing ss with
  | nil => simp [sorts?, @eq_comm _ [] ss]
  | cons e es ih =>
      simp only [sorts?, HasSort, Option.pure_def, Option.bind_eq_bind, Option.bind_eq_some_iff,
        Option.some.injEq, ih, List.forall₂_cons_left_iff]
      constructor
      · rintro ⟨s, hs, rest, hrest, rfl⟩
        exact ⟨s, rest, hs, hrest, rfl⟩
      · rintro ⟨s, rest, hs, hrest, rfl⟩
        exact ⟨s, hs, rest, hrest, rfl⟩

section

variable {s t : SmtSort}

@[simp] theorem hasSort_var {name : String} : (Formula.var name s).HasSort t ↔ s = t :=
  Option.some_inj

@[simp] theorem hasSort_lit {v : Literal} : (Formula.lit v).HasSort t ↔ v.sort = t :=
  Option.some_inj

@[simp] theorem hasSort_unary {f : UnaryFunction} {a : Formula} :
    (Formula.unary f a).HasSort t ↔ ∃ s, a.HasSort s ∧ f.result? s = some t :=
  Option.bind_eq_some_iff

@[simp] theorem hasSort_binary {f : BinaryFunction} {a b : Formula} :
    (Formula.binary f a b).HasSort t ↔
      ∃ s u, a.HasSort s ∧ b.HasSort u ∧ f.result? s u = some t := by
  show (do f.result? (← a.sort?) (← b.sort?)) = some t ↔ _
  simp [HasSort, Option.bind_eq_some_iff]

@[simp] theorem hasSort_ite {c a b : Formula} :
    (Formula.ite c a b).HasSort t ↔ c.HasSort .bool ∧ a.HasSort t ∧ b.HasSort t := by
  show (do
    let k ← c.sort?
    let s ← a.sort?
    let u ← b.sort?
    if k = .bool ∧ s = u then some s else none) = some t ↔ _
  simp only [HasSort, Option.bind_eq_bind, Option.bind_eq_some_iff]
  constructor
  · rintro ⟨k, hk, s, hs, u, hu, h⟩
    split at h
    · next heq =>
      obtain rfl : s = t := by simpa using h
      exact ⟨heq.1 ▸ hk, hs, heq.2 ▸ hu⟩
    · simp at h
  · rintro ⟨hc, ha, hb⟩
    exact ⟨_, hc, _, ha, _, hb, by simp⟩

theorem hasSort_nary {f : NaryFunction} {es : List Formula} :
    (Formula.nary f es).HasSort t ↔
      ∃ ss, List.Forall₂ HasSort es ss ∧ f.result? ss = some t := by
  show (do f.result? (← sorts? es)) = some t ↔ _
  simp [Option.bind_eq_some_iff, sorts?_eq_some]

theorem forall₂_hasSort_bool {es : List Formula} :
    (∃ ss, List.Forall₂ HasSort es ss ∧ ∀ u ∈ ss, u = .bool) ↔ ∀ e ∈ es, e.HasSort .bool := by
  induction es with
  | nil => simp
  | cons e es ih =>
      simp only [List.forall₂_cons_left_iff, List.forall_mem_cons, ← ih]
      constructor
      · rintro ⟨_, ⟨u, us, hu, hus, rfl⟩, hall⟩
        rw [List.forall_mem_cons] at hall
        exact ⟨hall.1 ▸ hu, us, hus, hall.2⟩
      · rintro ⟨he, us, hus, hall⟩
        exact ⟨.bool :: us, ⟨_, us, he, hus, rfl⟩, List.forall_mem_cons.mpr ⟨rfl, hall⟩⟩

@[simp] theorem hasSort_and {es : List Formula} :
    (Formula.and es).HasSort t ↔ t = .bool ∧ ∀ e ∈ es, e.HasSort .bool := by
  simp only [hasSort_nary, NaryFunction.result?, ← forall₂_hasSort_bool]
  constructor
  · rintro ⟨ss, hss, h⟩
    split at h <;> simp_all
    exact ⟨ss, hss, ‹_›⟩
  · rintro ⟨rfl, ss, hss, h⟩
    exact ⟨ss, hss, if_pos h⟩

@[simp] theorem hasSort_or {es : List Formula} :
    (Formula.or es).HasSort t ↔ t = .bool ∧ ∀ e ∈ es, e.HasSort .bool := by
  rw [← hasSort_and, hasSort_nary, hasSort_nary]
  rfl

/-- Truth values are negated. -/
theorem hasSort_not {a : Formula} : (Formula.not a).HasSort t ↔ t = .bool ∧ a.HasSort .bool := by
  rw [hasSort_unary]
  constructor
  · rintro ⟨s, ha, hnot⟩
    obtain ⟨rfl, rfl⟩ := result?_not.mp hnot
    exact ⟨rfl, ha⟩
  · rintro ⟨rfl, ha⟩
    exact ⟨.bool, ha, rfl⟩

/-- The operands of a record are matched with its fields. -/
@[simp] theorem hasSort_make {r : Record} {es : List Formula} :
    (Formula.nary (.make r) es).HasSort t ↔
      t = r.sort ∧ List.Forall₂ (fun e f => HasSort e f.2) es r.fields := by
  simp only [hasSort_nary, NaryFunction.result?, Option.ite_none_right_eq_some, Option.some.injEq]
  constructor
  · rintro ⟨ss, hss, rfl, rfl⟩
    exact ⟨rfl, List.forall₂_map_right_iff.mp hss⟩
  · rintro ⟨rfl, h⟩
    exact ⟨_, List.forall₂_map_right_iff.mpr h, rfl, rfl⟩

end

/-- A formula has at most one sort. -/
theorem HasSort.unique {e : Formula} {s t : SmtSort} (hs : e.HasSort s) (ht : e.HasSort t) :
    s = t :=
  Option.some.inj (hs.symm.trans ht)

/-- Every part of a well-sorted formula is well sorted. -/
theorem HasSort.part {e p : Formula} {s : SmtSort} (hs : e.HasSort s) (hp : p ∈ e.parts) :
    ∃ t, p.HasSort t := by
  induction e generalizing s with
  | var name t =>
      obtain rfl := mem_parts_var.mp hp
      exact ⟨s, hs⟩
  | lit v =>
      obtain rfl := mem_parts_lit.mp hp
      exact ⟨s, hs⟩
  | unary f a ih =>
      obtain ⟨t, ha, -⟩ := hasSort_unary.mp hs
      rcases mem_parts_unary.mp hp with rfl | hp
      · exact ⟨s, hs⟩
      · exact ih ha hp
  | binary f a b iha ihb =>
      obtain ⟨t, u, ha, hb, -⟩ := hasSort_binary.mp hs
      rcases mem_parts_binary.mp hp with rfl | hp | hp
      · exact ⟨s, hs⟩
      · exact iha ha hp
      · exact ihb hb hp
  | ite c a b ihc iha ihb =>
      obtain ⟨hc, ha, hb⟩ := hasSort_ite.mp hs
      rcases mem_parts_ite.mp hp with rfl | hp | hp | hp
      · exact ⟨s, hs⟩
      · exact ihc hc hp
      · exact iha ha hp
      · exact ihb hb hp
  | nary f es ih =>
      obtain ⟨ss, hss, -⟩ := hasSort_nary.mp hs
      rcases mem_parts_nary.mp hp with rfl | ⟨e, he, hp⟩
      · exact ⟨s, hs⟩
      · obtain ⟨t, -, ht⟩ := forall₂_exists_of_mem_left hss he
        exact ih e he ht hp

/-- A conjunction or disjunction of truth values is a truth value. -/
theorem hasSort_junction {f : NaryFunction} (hf : f = .and ∨ f = .or) {es : List Formula}
    {t : SmtSort} : (Formula.nary f es).HasSort t ↔ t = .bool ∧ ∀ e ∈ es, e.HasSort .bool := by
  rcases hf with rfl | rfl
  · exact hasSort_and
  · exact hasSort_or

/-- A field of a record has the sort of the field. -/
theorem hasSort_field {r : Record} {es : List Formula} {i : Nat} {e : Formula}
    (h : List.Forall₂ (fun e f => HasSort e f.2) es r.fields) (he : es[i]? = some e) :
    ∃ s, r.fieldSort? i = some s ∧ e.HasSort s := by
  obtain ⟨hi, rfl⟩ := List.getElem?_eq_some_iff.mp he
  have hlen : i < r.fields.length := h.length_eq ▸ hi
  refine ⟨(r.fields.get ⟨i, hlen⟩).2, ?_, ?_⟩
  · simp [Record.fieldSort?, List.getElem?_eq_getElem hlen]
  · exact (List.forall₂_iff_get.mp h).2 i hi hlen

/-! ## Agreement with the trusting sort -/

theorem size_eq_ok {n m : Nat} (h : Word.size n = .ok m) : m = n := by
  unfold Word.size at h
  split at h
  · exact (Except.ok.inj h).symm
  · simp at h

/-- The sort that a well-sorted formula is trusted to have is the one it has. -/
theorem sort_agrees {e : Formula} {s t : SmtSort} (hs : e.HasSort s) (ht : e.sort = .ok t) :
    t = s := by
  induction e generalizing s t with
  | var name u => simp_all [sort]
  | lit v => simp_all [sort]
  | unary f a ih =>
      obtain ⟨u, hu, hf⟩ := hasSort_unary.mp hs
      cases f with
      | neg =>
          obtain ⟨-, rfl⟩ := result?_neg.mp hf
          exact ih hu (by simpa [sort] using ht)
      | extract high low =>
          obtain ⟨w, rfl, hrange, rfl⟩ := result?_extract.mp hf
          obtain ⟨n, hn, rfl⟩ : ∃ n, Word.size (high - low + 1) = .ok n ∧ .bitVec n = t := by
            simpa [sort, Nat.not_lt.mpr hrange.1] using ht
          rw [size_eq_ok hn]
      | zeroExtend extra | signExtend extra =>
          obtain ⟨w, rfl, -, rfl⟩ : ∃ w, u = .bitVec w ∧ _ ∧ s = .bitVec (w + extra) := by
            simpa using hf
          obtain ⟨v, hv, n, hn, rfl⟩ : ∃ v, a.sort = .ok v ∧
              ∃ n, Word.add v.width extra = .ok n ∧ .bitVec n = t := by
            simpa [sort] using ht
          obtain rfl := ih hu hv
          rw [size_eq_ok hn]
          rfl
      | get r i =>
          obtain ⟨-, hi⟩ := result?_get.mp hf
          simp_all [sort]
      | _ => simp_all [sort]
  | binary f a b iha ihb =>
      obtain ⟨u, v, hu, hv, hf⟩ := hasSort_binary.mp hs
      cases f with
      | bits op =>
          obtain ⟨w, rfl, -, rfl⟩ := result?_bits.mp hf
          exact iha hu (by simpa [sort] using ht)
      | arith op =>
          obtain ⟨-, -, rfl⟩ := result?_arith.mp hf
          exact iha hu (by simpa [sort] using ht)
      | concat =>
          obtain ⟨m, n, rfl, rfl, -, rfl⟩ := result?_concat.mp hf
          obtain ⟨m', hm, n', hn, w, hw, rfl⟩ : ∃ m', a.sort = .ok m' ∧ ∃ n', b.sort = .ok n' ∧
              ∃ w, Word.add m'.width n'.width = .ok w ∧ .bitVec w = t := by
            simpa [sort] using ht
          obtain rfl := iha hu hm
          obtain rfl := ihb hv hn
          rw [size_eq_ok hw]
          rfl
      | _ => simp_all [sort]
  | ite c a b ihc iha ihb => exact iha (hasSort_ite.mp hs).2.1 (by simpa [sort] using ht)
  | nary f es ih =>
      cases f with
      | make r => simp_all [sort]
      | _ => simp_all [sort]

end Formula

end PlayerPaths
