import PlayerPaths.Proofs.Formula.Faults
import PlayerPaths.Proofs.SmtLib.Reread

/-!
# Checked construction and its faults

A formula is *constructed* when it is well sorted, its literals and widths fit machine words, and no
integer in it is the least one. Its sort and its text can be computed, so a check on a constructed
formula ends in a result or in an error that is no fault, and so do the constructors, which give
constructed formulas again. Only the constructors that add widths can fault: they add before they
compare the sum with the supported width (`Build.concat_outcome`, `Build.requireExtensible_outcome`).
-/

namespace PlayerPaths

open SmtLib Formula

/-- A computation without a fault, and with a value of some kind if it has one. -/
abbrev NoFault {α : Type} (Q : α → Prop) (x : Result α) : Prop :=
  Meets (fun e => e.isFault = false) Q x

namespace Formula

/-- What the checked constructors give. -/
structure Constructed (e : Formula) : Prop where
  wellSorted : e.WellSorted
  balanced : e.Every NodeBalanced

/-- The text of a well-sorted formula whose widths are sizes can be computed. -/
theorem exists_text {e : Formula} {s : SmtSort} (hs : e.HasSort s) (hz : e.Sized) :
    ∃ t, e.text = .ok t := by
  induction e generalizing s with
  | var name t => exact ⟨_, rfl⟩
  | lit v => exact ⟨_, rfl⟩
  | unary f a ih =>
      obtain ⟨t, ht, -⟩ := hasSort_unary.mp hs
      obtain ⟨text, htext⟩ := ih ht (every_unary.mp hz).2
      exact ⟨_, by simp [Formula.text, htext]; rfl⟩
  | binary f a b iha ihb =>
      obtain ⟨t, u, ht, hu, -⟩ := hasSort_binary.mp hs
      obtain ⟨-, hza, hzb⟩ := every_binary.mp hz
      obtain ⟨text, htext⟩ := iha ht hza
      obtain ⟨text', htext'⟩ := ihb hu hzb
      exact ⟨_, by simp [Formula.text, f.smt_eq_ok (sort_sized ht hza).1, htext, htext']; rfl⟩
  | ite c a b ihc iha ihb =>
      obtain ⟨hc, ha, hb⟩ := hasSort_ite.mp hs
      obtain ⟨-, hzc, hza, hzb⟩ := every_ite.mp hz
      obtain ⟨tc, htc⟩ := ihc hc hzc
      obtain ⟨ta, hta⟩ := iha ha hza
      obtain ⟨tb, htb⟩ := ihb hb hzb
      exact ⟨_, by simp [Formula.text, htc, hta, htb]; rfl⟩
  | nary f es ih =>
      obtain ⟨ss, hss, -⟩ := hasSort_nary.mp hs
      have hparts : ∀ e ∈ es, ∃ t, e.text = .ok t := by
        intro e he
        obtain ⟨t, -, ht⟩ := forall₂_exists_of_mem_left hss he
        exact ih e he ht ((every_nary.mp hz).2 e he)
      obtain ⟨ts, hts⟩ := exists_mapM_ok hparts
      exact ⟨_, by simp [Formula.text, texts_eq, hts]; rfl⟩

namespace Constructed

variable {a b c e : Formula}

theorem sized (h : e.Constructed) : e.Sized := fun p hp => (h.balanced p hp).1

theorem sort_eq_ok {s : SmtSort} (h : e.Constructed) (hs : e.HasSort s) :
    e.sort = .ok s ∧ s.isSized = true :=
  sort_sized hs h.sized

theorem sort_noFault (h : e.Constructed) :
    NoFault (fun s => e.HasSort s ∧ s.isSized = true) e.sort := by
  obtain ⟨s, hs⟩ := h.wellSorted
  obtain ⟨hsort, hsized⟩ := h.sort_eq_ok hs
  rw [hsort]
  exact ⟨hs, hsized⟩

theorem text_noFault (h : e.Constructed) : NoFault (fun _ => True) e.text := by
  obtain ⟨s, hs⟩ := h.wellSorted
  obtain ⟨t, ht⟩ := exists_text hs h.sized
  rw [ht]
  exact trivial

theorem lit {v : Literal} (hz : v.isSized = true) (hne : v ≠ .int Word.minInt) :
    (Formula.lit v).Constructed :=
  ⟨wellSorted_lit v, every_lit.mpr ⟨hz, by simpa using hne⟩⟩

theorem var {name : String} {s : SmtSort} (hz : s.isSized = true) :
    (Formula.var name s).Constructed :=
  ⟨⟨s, rfl⟩, every_var.mpr ⟨hz, by simp⟩⟩

theorem unary {f : UnaryFunction} {s t : SmtSort} (ha : a.Constructed) (hs : a.HasSort s)
    (hf : f.result? s = some t) (hz : (Formula.unary f a).nodeSized = true) :
    (Formula.unary f a).Constructed :=
  ⟨⟨t, hasSort_unary.mpr ⟨s, hs, hf⟩⟩, every_unary.mpr ⟨⟨hz, by simp⟩, ha.balanced⟩⟩

theorem binary {f : BinaryFunction} {s t u : SmtSort} (ha : a.Constructed) (hb : b.Constructed)
    (hs : a.HasSort s) (ht : b.HasSort t) (hf : f.result? s t = some u) :
    (Formula.binary f a b).Constructed :=
  ⟨⟨u, hasSort_binary.mpr ⟨s, t, hs, ht, hf⟩⟩,
    every_binary.mpr ⟨⟨rfl, by simp⟩, ha.balanced, hb.balanced⟩⟩

theorem ite {s : SmtSort} (hc : c.Constructed) (ha : a.Constructed) (hb : b.Constructed)
    (hs : (Formula.ite c a b).HasSort s) : (Formula.ite c a b).Constructed :=
  ⟨⟨s, hs⟩, every_ite.mpr ⟨⟨rfl, by simp⟩, hc.balanced, ha.balanced, hb.balanced⟩⟩

theorem nary {f : NaryFunction} {es : List Formula} {s : SmtSort} (h : ∀ e ∈ es, e.Constructed)
    (hs : (Formula.nary f es).HasSort s) (hz : (Formula.nary f es).nodeSized = true) :
    (Formula.nary f es).Constructed :=
  ⟨⟨s, hs⟩, every_nary.mpr ⟨⟨hz, by simp⟩, fun e he => (h e he).balanced⟩⟩

end Constructed

end Formula

namespace Build

variable {a b c e : Formula}

/-! ## Checks -/

theorem requireBool_noFault (h : e.Constructed) :
    NoFault (fun _ => e.HasSort .bool) (requireBool e) := by
  refine h.sort_noFault.bind fun s hs => ?_
  split
  · exact .pure hs.1
  · exact h.text_noFault.bind fun _ _ => .throw rfl

theorem requireBools_noFault {es : List Formula} (h : ∀ e ∈ es, e.Constructed) :
    NoFault (fun _ => ∀ e ∈ es, e.HasSort .bool) (es.forM requireBool) := by
  have hall : NoFault (fun _ => True) (es.forM requireBool) :=
    .forM fun e he => (requireBool_noFault (h e he)).imp fun _ _ => trivial
  exact hall.and_value fun u hu e he =>
    (h e he).wellSorted.hasSort (requireBools_eq_ok.mp hu e he)

theorem requireSame_noFault (ha : a.Constructed) (hb : b.Constructed) :
    NoFault (fun s => a.HasSort s ∧ b.HasSort s) (requireSame a b) := by
  refine ha.sort_noFault.bind fun s hs => hb.sort_noFault.bind fun t ht => ?_
  split
  · next heq => exact .pure ⟨hs.1, heq ▸ ht.1⟩
  · exact ha.text_noFault.bind fun _ _ => hb.text_noFault.bind fun _ _ => .throw rfl

theorem requireBits_noFault (h : e.Constructed) :
    NoFault (fun w => e.HasSort (.bitVec w)) (requireBits e) := by
  have hall : NoFault (fun _ => True) (requireBits e) := by
    refine h.sort_noFault.bind fun s _ => ?_
    split
    · exact .pure trivial
    · exact h.text_noFault.bind fun _ _ => .throw rfl
  exact hall.and_value fun w hw => h.wellSorted.hasSort (requireBits_eq_ok.mp hw)

theorem requireSort_noFault {s : SmtSort} (h : e.Constructed) :
    NoFault (fun _ => e.HasSort s) (requireSort s e) := by
  refine h.sort_noFault.bind fun t ht => ?_
  split
  · exact h.text_noFault.bind fun _ _ => .throw rfl
  · next heq =>
    obtain rfl := not_not.mp heq
    exact .pure ht.1

theorem requireArithmetic_noFault {s : SmtSort} (h : e.Constructed) :
    NoFault (fun _ => s = .int ∨ s = .real) (requireArithmetic s e) := by
  have hall : NoFault (fun _ => True) (requireArithmetic s e) := by
    unfold requireArithmetic
    split
    · exact h.text_noFault.bind fun _ _ => .throw rfl
    · exact .pure trivial
  exact hall.and_value fun u hu => requireArithmetic_eq_ok.mp hu

theorem requireRecord_noFault (h : e.Constructed) :
    NoFault (fun r => e.HasSort r.sort ∧ r.sort.isSized = true) (requireRecord e) := by
  have hall : NoFault (fun _ => True) (requireRecord e) := by
    refine h.sort_noFault.bind fun s _ => ?_
    split
    · exact .pure trivial
    · exact .throw rfl
  exact hall.and_value fun r hr => h.sort_noFault.value (requireRecord_eq_ok.mp hr)

/-! ## Constructors -/

theorem not_noFault (h : e.Constructed) : NoFault Constructed (Build.not e) :=
  (requireBool_noFault h).bind fun _ he => .pure (h.unary he (result?_not.mpr ⟨rfl, rfl⟩) rfl)

theorem and_noFault {es : List Formula} (h : ∀ e ∈ es, e.Constructed) :
    NoFault Constructed (Build.and es) :=
  (requireBools_noFault h).bind fun _ hes => .pure (.nary h (hasSort_and.mpr ⟨rfl, hes⟩) rfl)

theorem or_noFault {es : List Formula} (h : ∀ e ∈ es, e.Constructed) :
    NoFault Constructed (Build.or es) :=
  (requireBools_noFault h).bind fun _ hes => .pure (.nary h (hasSort_or.mpr ⟨rfl, hes⟩) rfl)

theorem eq_noFault (ha : a.Constructed) (hb : b.Constructed) :
    NoFault Constructed (Build.eq a b) :=
  (requireSame_noFault ha hb).bind fun _ hs =>
    .pure (ha.binary hb hs.1 hs.2 (result?_eq.mpr ⟨rfl, rfl⟩))

theorem ite_noFault (hc : c.Constructed) (ha : a.Constructed) (hb : b.Constructed) :
    NoFault Constructed (Build.ite c a b) :=
  (requireBool_noFault hc).bind fun _ hcs => (requireSame_noFault ha hb).bind fun _ hs =>
    .pure (hc.ite ha hb (hasSort_ite.mpr ⟨hcs, hs.1, hs.2⟩))

theorem bits_noFault {op : BitOp} (ha : a.Constructed) (hb : b.Constructed) :
    NoFault Constructed (Build.bits op a b) := by
  refine (requireBits_noFault ha).bind fun w hw => (requireSame_noFault ha hb).bind fun s hs => ?_
  obtain rfl := hw.unique hs.1
  exact .pure (ha.binary hb hs.1 hs.2 (result?_bits.mpr ⟨w, rfl, rfl, rfl⟩))

theorem compareBits_noFault {c : BitComparison} (ha : a.Constructed) (hb : b.Constructed) :
    NoFault Constructed (Build.compareBits c a b) := by
  refine (requireBits_noFault ha).bind fun w hw => (requireSame_noFault ha hb).bind fun s hs => ?_
  obtain rfl := hw.unique hs.1
  exact .pure (ha.binary hb hs.1 hs.2 (result?_compareBits.mpr ⟨⟨w, rfl, rfl⟩, rfl⟩))

theorem arith_noFault {op : ArithOp} (ha : a.Constructed) (hb : b.Constructed) :
    NoFault Constructed (Build.arith op a b) :=
  (requireSame_noFault ha hb).bind fun _ hs => (requireArithmetic_noFault ha).bind fun _ harith =>
    .pure (ha.binary hb hs.1 hs.2 (result?_arith.mpr ⟨harith, rfl, rfl⟩))

theorem compareArith_noFault {c : ArithComparison} (ha : a.Constructed) (hb : b.Constructed) :
    NoFault Constructed (Build.compareArith c a b) :=
  (requireSame_noFault ha hb).bind fun _ hs => (requireArithmetic_noFault ha).bind fun _ harith =>
    .pure (ha.binary hb hs.1 hs.2 (result?_compareArith.mpr ⟨harith, rfl, rfl⟩))

theorem neg_noFault (h : e.Constructed) : NoFault Constructed (Build.neg e) :=
  h.sort_noFault.bind fun _ hs => (requireArithmetic_noFault h).bind fun _ harith =>
    .pure (h.unary hs.1 (result?_neg.mpr ⟨harith, rfl⟩) rfl)

theorem extract_noFault {high low : Nat} (h : e.Constructed) :
    NoFault Constructed (Build.extract high low e) := by
  refine (requireBits_noFault h).bind fun w hw => .guard (fun _ => rfl) fun hrange => ?_
  have hbounds : low ≤ high ∧ high < w := by omega
  exact .pure (h.unary hw (result?_extract.mpr ⟨w, rfl, hbounds, rfl⟩) rfl)

theorem bitsToInt_noFault (h : e.Constructed) : NoFault Constructed (Build.bitsToInt e) :=
  (requireBits_noFault h).bind fun w hw =>
    .pure (h.unary hw (result?_bitsToInt.mpr ⟨⟨w, rfl⟩, rfl⟩) rfl)

theorem intToBits_noFault {w : Nat} (hw : w < Word.limit) (h : e.Constructed) :
    NoFault Constructed (Build.intToBits w e) :=
  (requireSort_noFault h).bind fun _ hs =>
    .pure (h.unary hs (result?_intToBits.mpr ⟨rfl, rfl⟩) (SmtSort.isSized_bitVec.mpr hw))

theorem toReal_noFault (h : e.Constructed) : NoFault Constructed (Build.toReal e) :=
  (requireSort_noFault h).bind fun _ hs => .pure (h.unary hs (result?_toReal.mpr ⟨rfl, rfl⟩) rfl)

theorem toInt_noFault (h : e.Constructed) : NoFault Constructed (Build.toInt e) :=
  (requireSort_noFault h).bind fun _ hs => .pure (h.unary hs (result?_toInt.mpr ⟨rfl, rfl⟩) rfl)

theorem get_noFault {field : String} (h : e.Constructed) :
    NoFault Constructed (Build.get e field) := by
  have hall : NoFault (fun _ => True) (Build.get e field) := by
    refine (requireRecord_noFault h).bind fun r _ => ?_
    split
    · exact .pure trivial
    · exact .throw rfl
  refine hall.and_value fun f hf => ?_
  obtain ⟨t, ht⟩ := get_wellSorted h.wellSorted hf
  obtain ⟨r, i, hr, -, rfl⟩ := get_eq_ok.mp hf
  obtain ⟨s, hs, hget⟩ := hasSort_unary.mp ht
  exact h.unary hs hget (h.sort_noFault.value hr).2

theorem make_noFault {r : Record} {fields : List Formula} (hr : r.sort.isSized = true)
    (h : ∀ e ∈ fields, e.Constructed) : NoFault Constructed (Build.make r fields) := by
  have hall : NoFault (· = .nary (.make r) fields) (Build.make r fields) := by
    refine .guard (fun _ => rfl) fun _ => (Meets.forM ?_).bind fun _ _ => .pure rfl
    rintro ⟨e, name, s⟩ hmem
    have he := h e (List.of_mem_zip hmem).1
    refine he.sort_noFault.bind fun t _ => ?_
    split
    · exact he.text_noFault.bind fun _ _ => .throw rfl
    · exact .pure trivial
  refine hall.and_value fun f hf => ?_
  obtain ⟨s, hs⟩ := make_wellSorted (fun e he => (h e he).wellSorted) hf
  obtain rfl := hall.value hf
  exact .nary h hs hr

end Build

/-! ## Sums of widths -/

/-- A computation whose only fault is an overflow, which has a reason. -/
abbrev OverflowsIf {α : Type} (P : Prop) (Q : α → Prop) (x : Result α) : Prop :=
  Meets (fun err => err.isFault = true → err = .fault .overflow ∧ P) Q x

theorem OverflowsIf.of_noFault {α : Type} {P : Prop} {Q : α → Prop} {x : Result α}
    (h : NoFault Q x) : OverflowsIf P Q x :=
  h.weaken fun _ hno hfault => absurd hfault (by simp [hno])

theorem OverflowsIf.because {α : Type} {P P' : Prop} {Q : α → Prop} {x : Result α}
    (h : OverflowsIf P Q x) (hP : P → P') : OverflowsIf P' Q x :=
  h.weaken fun _ herr hfault => ⟨(herr hfault).1, hP (herr hfault).2⟩

namespace Word

theorem add_outcome {m n : Nat} :
    OverflowsIf (limit ≤ m + n) (fun w => w = m + n) (add m n) := by
  unfold add size
  split
  · exact .pure rfl
  · next hlt => exact .throw fun _ => ⟨rfl, Nat.not_lt.mp hlt⟩

theorem add_overflow {m n : Nat} (h : limit ≤ m + n) : add m n = .error (.fault .overflow) :=
  if_neg (Nat.not_lt.mpr h)

end Word

/-- A bit vector so wide that a width added to its own leaves the range of sizes. -/
def Formula.Exceeds (e : Formula) (extra : Nat) : Prop :=
  ∃ w, e.sort = .ok (.bitVec w) ∧ Word.limit ≤ w + extra

namespace Build

variable {a b e : Formula}

theorem concat_outcome (ha : a.Constructed) (hb : b.Constructed) :
    OverflowsIf (∃ n, b.sort = .ok (.bitVec n) ∧ a.Exceeds n) Constructed (Build.concat a b) := by
  refine (OverflowsIf.of_noFault (requireBits_noFault ha)).bind fun m hm => ?_
  refine (OverflowsIf.of_noFault (requireBits_noFault hb)).bind fun n hn => ?_
  have hsum : OverflowsIf (∃ n, b.sort = .ok (.bitVec n) ∧ a.Exceeds n) (fun w => w = m + n)
      (Word.add m n) :=
    Word.add_outcome.because fun hlimit =>
      ⟨n, (hb.sort_eq_ok hn).1, m, (ha.sort_eq_ok hm).1, hlimit⟩
  refine hsum.bind fun w hw => .guard (by simp [Error.isFault]) fun hle => ?_
  obtain rfl := hw
  exact .pure (ha.binary hb hm hn (result?_concat.mpr ⟨m, n, rfl, rfl, by omega, rfl⟩))

theorem requireExtensible_outcome {extra : Nat} (h : e.Constructed) :
    OverflowsIf (e.Exceeds extra) (fun _ => ∃ w, e.HasSort (.bitVec w) ∧ w + extra ≤ 64)
      (requireExtensible extra e) := by
  refine (OverflowsIf.of_noFault (requireBits_noFault h)).bind fun w hw => ?_
  have hsum : OverflowsIf (e.Exceeds extra) (fun n => n = w + extra) (Word.add w extra) :=
    Word.add_outcome.because fun hlimit => ⟨w, (h.sort_eq_ok hw).1, hlimit⟩
  refine hsum.bind fun n hn => ?_
  split
  · exact .throw (by simp [Error.isFault])
  · obtain rfl := hn
    exact .pure ⟨w, hw, by omega⟩

theorem zeroExtend_outcome {extra : Nat} (h : e.Constructed) :
    OverflowsIf (e.Exceeds extra) Constructed (Build.zeroExtend extra e) := by
  refine (requireExtensible_outcome h).bind fun _ hw => ?_
  obtain ⟨w, hw, hle⟩ := hw
  exact .pure (h.unary hw (result?_zeroExtend.mpr ⟨w, rfl, hle, rfl⟩) rfl)

theorem signExtend_outcome {extra : Nat} (h : e.Constructed) :
    OverflowsIf (e.Exceeds extra) Constructed (Build.signExtend extra e) := by
  refine (requireExtensible_outcome h).bind fun _ hw => ?_
  obtain ⟨w, hw, hle⟩ := hw
  exact .pure (h.unary hw (result?_signExtend.mpr ⟨w, rfl, hle, rfl⟩) rfl)

/-- The sum of two widths overflows before it is compared with the supported width. -/
theorem concat_overflow {n : Nat} (hb : b.sort = .ok (.bitVec n)) (ha : a.Exceeds n) :
    Build.concat a b = .error (.fault .overflow) := by
  obtain ⟨m, hm, hlimit⟩ := ha
  rw [Build.concat, requireBits_eq_ok.mpr hm, requireBits_eq_ok.mpr hb]
  show Word.add m n >>= _ = _
  rw [Word.add_overflow hlimit]
  rfl

theorem requireExtensible_overflow {extra : Nat} (h : e.Exceeds extra) :
    requireExtensible extra e = .error (.fault .overflow) := by
  obtain ⟨w, hw, hlimit⟩ := h
  rw [requireExtensible, requireBits_eq_ok.mpr hw]
  show Word.add w extra >>= _ = _
  rw [Word.add_overflow hlimit]
  rfl

end Build

end PlayerPaths
