import PlayerPaths.Proofs.Execution.CallSites
import PlayerPaths.Proofs.Execution.Legality

/-!
# Legal values

What an instruction computes from legal formulas is legal (`Evaluator.value_meets`). Evaluation looks
up the results of calls by their numbers, and finds them when enough calls were made: an expression
behind some calls needs these and its own.
-/

namespace PlayerPaths

open IL Formula Context

variable {c : Context} {n : Nat} {value a b : Formula}

/-! ## Conversions -/

theorem sortOf_meets {t : Ty} :
    Meets c.Harmless (fun s => c.Typed → s.inRange = true) (c.sorts.sort t) :=
  safe_sortOf.and_value fun _ hs ht => ht.sorts hs

theorem toBool_meets (h : value.Legal c n) : Meets c.Harmless (Condition c n) (toBool value) := by
  refine h.sort_meets.bind fun s hs => ?_
  cases s with
  | bool => exact .pure ⟨h, hs⟩
  | bitVec width => exact Build.ne_meets h (.bits (h.sort_inRange hs))
  | int => exact Build.ne_meets h (.int fun _ => by decide)
  | _ => exact .throw (c.harmless rfl)

theorem resize_meets {width : Nat} {signed : Bool} (h : value.Legal c n) :
    Meets c.Harmless (Legal c n) (resize value width signed) := by
  refine h.sort_meets.bind fun s hs => ?_
  cases s with
  | bitVec old =>
      dsimp only
      split
      · exact .pure h
      · split
        · split
          · exact Build.signExtend_meets h
          · exact Build.zeroExtend_meets h
        · split
          · exact .throw (c.harmless rfl)
          · exact Build.extract_meets h
  | _ => exact .throw (c.harmless rfl)

theorem bitsToReal_meets {signed : Bool} (h : value.Legal c n) :
    Meets c.Harmless (Legal c n) (bitsToReal value signed) := by
  refine h.sort_meets.bind fun s hs => ?_
  cases s with
  | bitVec width =>
      refine (Build.bitsToInt_meets h).bind fun i hi => ?_
      refine (Build.toReal_meets hi).bind fun unsigned hunsigned => ?_
      split
      · exact .pure hunsigned
      · refine (Build.compareBits_meets h (.bits (h.sort_inRange hs))).bind fun k hk => ?_
        refine (Build.arith_meets hunsigned (.real _)).bind fun wrapped hwrapped => ?_
        exact Build.ite_meets hk.1 hwrapped hunsigned
  | _ => exact .throw (c.harmless rfl)

theorem realToBits_meets {width : Nat} (h : value.Legal c n)
    (hwidth : c.Typed → (SmtSort.bitVec width).inRange = true) :
    Meets c.Harmless (Legal c n) (realToBits value width) := by
  refine (Build.compareArith_meets h (.real _)).bind fun k hk => ?_
  refine (Build.toInt_meets h).bind fun down hdown => ?_
  refine (Build.neg_meets h).bind fun negated hnegated => ?_
  refine (Build.toInt_meets hnegated).bind fun i hi => ?_
  refine (Build.neg_meets hi).bind fun up hup => ?_
  refine (Build.ite_meets hk.1 hdown hup).bind fun choice hchoice => ?_
  exact Build.intToBits_meets hchoice hwidth

theorem boolToBits_meets {width : Nat} (h : value.Legal c n)
    (hwidth : c.Typed → (SmtSort.bitVec width).inRange = true) :
    Meets c.Harmless (Legal c n) (boolToBits value width) :=
  Build.ite_meets h (.bits hwidth) (.bits hwidth)

theorem convert_meets {t u : Ty} (h : value.Legal c n) :
    Meets c.Harmless (Legal c n) (convert c.sorts value t u) := by
  refine sortOf_meets.bind fun target htarget => h.sort_meets.bind fun source _ => ?_
  split
  · exact .pure h
  · split
    · exact boolToBits_meets h htarget
    · exact Build.ite_meets h (.real _) (.real _)
    · exact resize_meets h
    · exact bitsToReal_meets h
    · exact realToBits_meets h htarget
    · exact .throw (c.harmless rfl)

theorem coerce_meets {t u : Ty} (h : value.Legal c n) :
    Meets c.Harmless (Legal c n) (coerce c.sorts value t u) := by
  refine sortOf_meets.bind fun target htarget => h.sort_meets.bind fun source _ => ?_
  split
  · exact .pure h
  · split
    · exact boolToBits_meets h htarget
    · exact resize_meets h
    · exact bitsToReal_meets h
    · exact .throw (c.harmless rfl)

theorem unify_meets {signed : Bool} (ha : a.Legal c n) (hb : b.Legal c n) :
    Meets c.Harmless (fun p => p.1.Legal c n ∧ p.2.Legal c n) (unify a b signed) := by
  refine ha.sort_meets.bind fun s hs => hb.sort_meets.bind fun t ht => ?_
  split
  · exact (boolToBits_meets ha (hb.sort_inRange ht)).bind fun a' ha' => .pure ⟨ha', hb⟩
  · exact (boolToBits_meets hb (ha.sort_inRange hs)).bind fun b' hb' => .pure ⟨ha, hb'⟩
  · split
    · exact (resize_meets ha).bind fun a' ha' => .pure ⟨ha', hb⟩
    · split
      · exact (resize_meets hb).bind fun b' hb' => .pure ⟨ha, hb'⟩
      · exact .pure ⟨ha, hb⟩
  · exact (bitsToReal_meets ha).bind fun a' ha' => .pure ⟨ha', hb⟩
  · exact (bitsToReal_meets hb).bind fun b' hb' => .pure ⟨ha, hb'⟩
  · exact .pure ⟨ha, hb⟩

/-! ## Operators -/

theorem shift_meets {op : BinaryOp} {sign : Sign} {width : Nat} (ha : a.Legal c n)
    (hb : b.Legal c n) (hwidth : c.Typed → (SmtSort.bitVec width).inRange = true) :
    Meets c.Harmless (Legal c n) (shift op sign a b width) := by
  refine (resize_meets hb).bind fun amount hamount => .guard (fun _ => c.harmless rfl) fun _ => ?_
  refine (Build.bits_meets hamount (.bits hwidth)).bind fun masked hmasked => ?_
  exact Build.bits_meets ha hmasked

theorem binaryValue_meets {op : BinaryOp} {sign : Sign} (ha : a.Legal c n) (hb : b.Legal c n) :
    Meets c.Harmless (Legal c n) (binaryValue op sign a b) := by
  unfold binaryValue
  -- The operands of a shift keep their widths.
  by_cases hshift : op = .shiftLeft ∨ op = .shiftRight
  case' pos =>
    simp only [if_pos hshift]
    refine (Meets.pure (Q := fun p => p.1.Legal c n ∧ p.2.Legal c n) ⟨ha, hb⟩).bind fun p hp => ?_
  case' neg =>
    simp only [if_neg hshift]
    refine (unify_meets ha hb).bind fun p hp => ?_
  all_goals refine hp.1.sort_meets.bind fun s hs => ?_
  all_goals
   cases s with
  | real =>
      dsimp only
      split
      · exact Build.arith_meets hp.1 hp.2
      · exact .throw (c.harmless rfl)
  | bitVec width =>
      dsimp only
      split
      · exact Build.bits_meets hp.1 hp.2
      · exact shift_meets hp.1 hp.2 (hp.1.sort_inRange hs)
  | _ => exact .throw (c.harmless rfl)

theorem compareValue_meets {kind : Comparison} {sign : Sign} (ha : a.Legal c n)
    (hb : b.Legal c n) : Meets c.Harmless (Condition c n) (compareValue kind sign a b) := by
  refine (unify_meets ha hb).bind fun p hp => ?_
  refine hp.1.sort_meets.bind fun s _ => hp.2.sort_meets.bind fun t _ => .guard (fun _ => c.harmless rfl) fun _ => ?_
  dsimp only
  split
  · exact Build.eq_meets hp.1 hp.2
  · exact Build.ne_meets hp.1 hp.2
  · exact Build.compareBits_meets hp.1 hp.2
  · exact Build.compareArith_meets hp.1 hp.2
  · exact Build.compareArith_meets hp.1 hp.2
  · exact .throw (c.harmless rfl)

/-! ## Memory -/

/-- The unknown value of a slot. -/
theorem freshValue_meets {x : Address} {t : Ty} (hx : x.Below n) :
    Meets c.Harmless (fun v => ∀ value ∈ v, value.Legal c n) (freshValue c.sorts x t) := by
  unfold freshValue
  split
  · exact .pure (by simp)
  · refine sortOf_meets.bind fun s hs => .pure ?_
    rintro value ⟨⟩
    split
    · exact .var (hx.of_root rfl) hs
    · exact .var hx hs

/-- Every slot holds a legal value. -/
def Memory.Legal (c : Context) (n : Nat) (m : Memory) : Prop :=
  ∀ (key : String) (value : Formula), m.slots[key]? = some value → value.Legal c n

namespace Memory

variable {m : Memory}

theorem Legal.empty : Memory.Legal c n {} := by
  intro key value h
  simp at h

theorem Legal.mono {k : Nat} (hm : m.Legal c n) (hle : n ≤ k) : m.Legal c k :=
  fun key value h => (hm key value h).mono hle

theorem Legal.write (hm : m.Legal c n) (x : Address) (hvalue : value.Legal c n) :
    (m.write x value).Legal c n := by
  intro key v h
  rw [Memory.write, Std.TreeMap.getElem?_insert] at h
  split at h
  · obtain rfl := Option.some.inj h
    exact hvalue
  · exact hm key v h

theorem Legal.dropFrame (hm : m.Legal c n) (depth : Nat) : (m.dropFrame depth).Legal c n := by
  intro key v h
  rw [Memory.dropFrame, Std.TreeMap.getElem?_filter] at h
  obtain ⟨h, -⟩ := Option.pfilter_eq_some_iff.mp h
  exact hm key v h

theorem Legal.read_meets (hm : m.Legal c n) {x : Address} {t : Ty} (hx : x.Below n) :
    Meets c.Harmless (Formula.Legal c n) (m.read c.sorts x t) := by
  unfold Memory.read
  split
  · next v hslot => exact .pure (hm _ v hslot)
  · refine .guard (fun _ => c.harmless rfl) fun _ => ?_
    split
    · exact sortOf_meets.bind fun s hs => .pure (Formula.Legal.zero hs)
    · refine (freshValue_meets hx).bind fun v hv => ?_
      cases v with
      | none => exact .throw (c.harmless rfl)
      | some v => exact .pure (hv v rfl)

end Memory

/-! ## Places -/

/-- A place whose address starts from no call with a number or a later one. -/
def Place.Below (n : Nat) : Place → Prop
  | .slot x _ => x.Below n
  | .member place _ => place.Below n

theorem objectOf_meets (h : value.Legal c n) :
    Meets c.Harmless (Address.Below n) (objectOf value) := by
  unfold objectOf
  split
  · next name =>
    refine safe_address.eq_ok.bind fun x hx => ?_
    have hread : Address.read? name = some x := by
      unfold Address.read at hx
      split at hx
      · next hread => exact hread.trans (congrArg some (Except.ok.inj hx))
      · cases hx
    have hbelow : x.Below n := every_var.mp h.below name .int rfl x hread
    split
    · next y hy =>
      unfold Address.object? at hy
      split at hy
      · obtain rfl := Option.some.inj hy
        exact .pure (hbelow.of_root rfl)
      · cases hy
    · exact .throw (c.harmless rfl)
  · next i =>
    split
    · exact .throw (c.harmless rfl)
    · split
      · exact .pure (by rintro id ⟨⟩)
      · exact quoted_meets fun _ => c.harmless rfl
  · exact quoted_meets fun _ => c.harmless rfl

theorem memberPlace_meets {place : Unit → Result Place} {f : FieldRef} (hvalue : value.Legal c n)
    (hplace : Meets c.Harmless (Place.Below n) (place ())) :
    Meets c.Harmless (Place.Below n) (Evaluator.memberPlace value place f) := by
  refine hvalue.sort_meets.bind fun s _ => ?_
  split
  · exact hplace.bind fun p hp => .pure hp
  · exact (objectOf_meets hvalue).bind fun x hx => .pure (hx.of_root rfl)

/-! ## Expressions -/

namespace Evaluator

/-- An evaluator over legal formulas, for an instruction whose first calls were made. -/
structure Legal (c : Context) (n made : Nat) (v : Evaluator) : Prop where
  sorts : v.sorts = c.sorts
  memory : v.memory.Legal c n
  results : ∀ (i : Nat) (value : Formula), v.results[i]? = some (some value) → value.Legal c n
  made : ∀ i < made, i < v.siteCount ∧ i ∈ v.results

variable {v : Evaluator} {made : Nat}

theorem Legal.read_meets (hv : v.Legal c n made) {x : Address} {t : Ty} (hx : x.Below n) :
    Meets c.Harmless (Formula.Legal c n) (v.read x t) := by
  unfold Evaluator.read
  rw [hv.sorts]
  exact hv.memory.read_meets hx

/-- A call that was made has a result. -/
theorem Legal.callValue_meets (hv : v.Legal c n made) {index : Nat} {call : Call}
    (hindex : index < made) : Meets c.Harmless (Formula.Legal c n) (v.callValue index call) := by
  obtain ⟨hcount, hmem⟩ := hv.made index hindex
  unfold Evaluator.callValue
  rw [if_neg (by omega)]
  split
  · next value hvalue => exact .pure (hv.results index value hvalue)
  · exact .throw (c.harmless rfl)
  · next hnone => exact absurd hmem (by simpa using hnone)

theorem Legal.readPlace_meets (hv : v.Legal c n made) {place : Place} (h : place.Below n) :
    Meets c.Harmless (Formula.Legal c n) (v.readPlace place) := by
  induction place with
  | slot x t => exact hv.read_meets h
  | member place field ih => exact (ih h).bind fun whole hwhole => Build.get_meets hwhole

theorem Legal.assign_meets (hv : v.Legal c n made) {place : Place} (h : place.Below n)
    (hvalue : value.Legal c n) :
    Meets c.Harmless (fun p => p.2.Legal c n) (v.assign place value) := by
  induction place generalizing value with
  | slot x t =>
      unfold Evaluator.assign
      rw [hv.sorts]
      exact (coerce_meets hvalue).bind fun fitted hfitted => .pure hfitted
  | member place field ih =>
      have h : place.Below n := h
      refine (hv.readPlace_meets h).bind fun whole hwhole => ?_
      exact (Build.set_meets hwhole hvalue).bind fun changed hchanged => ih h hchanged

theorem variableSlot_below (v : Evaluator) (x : Variable) : (v.variableSlot x).Below n := by
  rintro id ⟨⟩

mutual

/-- **The value of an expression is legal**, and its evaluation does not miss the result of a call
when the calls before it and its own were made. -/
theorem value_meets (hv : v.Legal c n made) : ∀ (before : Nat) (e : Expression),
    before + e.siteCount ≤ made → Meets c.Harmless (Formula.Legal c n) (v.value before e)
  | before, .load x, _ | before, .loadAddress x, _ => by
    rw [Evaluator.value]
    exact hv.readPlace_meets (variableSlot_below v x)
  | before, .constant k, _ => by
    rw [Evaluator.value]
    exact .pure (.constant k)
  | before, .binary op sign lhs rhs, h => by
    rw [Expression.siteCount_binary] at h
    rw [Evaluator.value]
    refine (value_meets hv before lhs (by omega)).bind fun a ha => ?_
    refine (value_meets hv _ rhs (by omega)).bind fun b hb => ?_
    exact binaryValue_meets ha hb
  | before, .compare kind sign lhs rhs, h => by
    rw [Expression.siteCount_compare] at h
    rw [Evaluator.value]
    refine (value_meets hv before lhs (by omega)).bind fun a ha => ?_
    refine (value_meets hv _ rhs (by omega)).bind fun b hb => ?_
    exact (compareValue_meets ha hb).imp fun _ hk => hk.1
  | before, .not e, h => by
    rw [Expression.siteCount_not] at h
    rw [Evaluator.value]
    refine (value_meets hv before e h).bind fun a ha => ?_
    refine (toBool_meets ha).bind fun k hk => ?_
    exact (Build.not_meets hk.1).imp fun _ hk => hk.1
  | before, .convert e target, h => by
    rw [Expression.siteCount_convert] at h
    rw [Evaluator.value, hv.sorts]
    exact (value_meets hv before e h).bind fun a ha => convert_meets ha
  | before, .call method arguments, h => by
    rw [Expression.siteCount_call] at h
    rw [Evaluator.value, Expression.siteCount_call]
    exact hv.callValue_meets (by omega)
  | before, .new method arguments, h => by
    rw [Expression.siteCount_new] at h
    rw [Evaluator.value, Expression.siteCount_new]
    exact hv.callValue_meets (by omega)
  | before, .field target f, h => by
    rw [Expression.siteCount_field] at h
    rw [Evaluator.value]
    refine (value_meets hv before target h).bind fun a ha => ?_
    refine (memberPlace_meets ha (place_meets hv before target h)).bind fun p hp => ?_
    exact hv.readPlace_meets hp
  | before, .staticField f, _ => by
    rw [Evaluator.value]
    exact hv.read_meets (by rintro id ⟨⟩)
  | before, .length array, h => by
    rw [Expression.siteCount_length] at h
    rw [Evaluator.value]
    refine (value_meets hv before array h).bind fun a ha => ?_
    exact (objectOf_meets ha).bind fun x hx => hv.read_meets (hx.of_root rfl)

theorem place_meets (hv : v.Legal c n made) : ∀ (before : Nat) (e : Expression),
    before + e.siteCount ≤ made → Meets c.Harmless (Place.Below n) (v.place before e)
  | before, .load x, _ | before, .loadAddress x, _ => by
    rw [Evaluator.place]
    exact .pure (variableSlot_below v x)
  | before, .staticField f, _ => by
    rw [Evaluator.place]
    exact .pure (by rintro id ⟨⟩)
  | before, .field target f, h => by
    rw [Expression.siteCount_field] at h
    rw [Evaluator.place]
    refine (value_meets hv before target h).bind fun a ha => ?_
    exact memberPlace_meets ha (place_meets hv before target h)
  | before, .constant _, _ | before, .binary .., _ | before, .compare .., _ | before, .not _, _
  | before, .convert .., _ | before, .call .., _ | before, .new .., _ | before, .length _, _ => by
    rw [Evaluator.place]
    · exact .throw (c.harmless rfl)
    all_goals simp

end

theorem fieldPlace_meets (hv : v.Legal c n made) {before : Nat} {target : Expression}
    {f : FieldRef} (h : before + target.siteCount ≤ made) :
    Meets c.Harmless (Place.Below n) (v.fieldPlace before target f) :=
  (value_meets hv before target h).bind fun _ ha =>
    memberPlace_meets ha (place_meets hv before target h)

theorem condition_meets (hv : v.Legal c n made) {before : Nat} {e : Expression}
    (h : before + e.siteCount ≤ made) :
    Meets c.Harmless (Condition c n) (v.condition before e) :=
  (value_meets hv before e h).bind fun _ ha => toBool_meets ha

end Evaluator

/-- The arguments of a call are legal. -/
theorem Machine.arguments_meets {v : Evaluator} {made : Nat} (hv : v.Legal c n made) {before : Nat}
    {es : List Expression} {formals : List (Option Ty)}
    (h : before + Expression.siteCounts es ≤ made) :
    Meets c.Harmless (fun values => ∀ value ∈ values, value.Legal c n)
      (Machine.arguments v before es formals) := by
  induction es generalizing before formals with
  | nil => exact .pure (by simp)
  | cons e es ih =>
      rw [Expression.siteCounts_cons] at h
      unfold Machine.arguments
      refine (Evaluator.value_meets hv before e (by omega)).bind fun value hvalue => ?_
      have hrest : ∀ fitted, fitted.Legal c n →
          Meets c.Harmless (fun values => ∀ value ∈ values, value.Legal c n) (do
            return fitted :: (← Machine.arguments v (before + e.siteCount) es formals.tail)) :=
        fun fitted hfitted => (ih (by omega)).bind fun rest hrest =>
          .pure (List.forall_mem_cons.mpr ⟨hfitted, hrest⟩)
      split
      · rw [hv.sorts]
        exact (coerce_meets hvalue).bind hrest
      · exact hrest value hvalue

end PlayerPaths
