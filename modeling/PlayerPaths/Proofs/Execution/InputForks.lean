import Mathlib.Data.List.Nodup
import PlayerPaths.Execution.InputPolicy
import PlayerPaths.Proofs.Execution.Exclusion
import PlayerPaths.Proofs.Number.DoubleOrder

/-!
# Forks of input

Polling forks a state into the cases of an axis, of a cell of the screen, or of a button. The cases
that go on exclude each other: the signs of a number (`axisConditions_contrary`), the cells of a
grid (`cellConditions_contrary`), set or not (`flag_contrary`), an edge or its absence. So the
states of a run that have halted exclude each other (`halted_apart`).
-/

namespace PlayerPaths

open IL Formula

variable {σ : Assignment}

/-! ## Comparisons with constants -/

/-- A simplified formula that is no constant. -/
def Formula.Unknown (e : Formula) : Prop := e.Normal ∧ e.isConstant = false

theorem unknown_var (name : String) (s : SmtSort) : (Formula.var name s).Unknown :=
  ⟨normal_var name s, rfl⟩

/-- A field of a variable is unknown. -/
theorem unknown_get (name : String) (s : SmtSort) (r : Record) (i : Nat) :
    (Formula.unary (.get r i) (.var name s)).Unknown :=
  ⟨every_unary.mpr ⟨rfl, normal_var name s⟩, rfl⟩

/-- The verdict on a comparison of an unknown with a number is about the value of the unknown. -/
theorem verdict_compareArith {op : ArithComparison} {e : Formula} {x : Float} (he : e.Unknown)
    (h : (Formula.binary (.compareArith op) e (.lit (.real x))).verdict σ = some true) :
    ∃ v y, e.eval σ = .ok v ∧ v.number? = some y ∧ op.holds y x = true := by
  obtain ⟨e', he', htruth⟩ := verdict_eq_some.mp h
  obtain ⟨a, b, ha, hb, hsimp⟩ := simplify_binary_eq_ok.mp he'
  obtain rfl : e = a := Except.ok.inj (he.1.simplify_eq.symm.trans ha)
  obtain rfl : Formula.lit (.real x) = b := Except.ok.inj hb
  obtain rfl : Formula.binary (.compareArith op) e (.lit (.real x)) = e' := by
    simpa [simplifyBinary, foldOr, he.2] using hsimp
  rw [truth_atom rfl] at htruth
  exact holds_of_comparison rfl htruth

theorem flag_contrary (a b : Formula) : Contrary σ (.eq a b) (.not (.eq a b)) := by
  intro heq hne
  rw [verdict_not hne] at heq
  simp at heq

/-! ## Axes -/

/-- A number is in a case of an axis. -/
def AxisCase.Covers (a : AxisCase) (x : Float) : Prop :=
  match a with
  | .positive => 0.0 < x
  | .negative => x < 0.0
  | .zero => x = 0.0

theorem AxisCase.Covers.unique {a b : AxisCase} {x : Float} (ha : a.Covers x) (hb : b.Covers x) :
    a = b := by
  have hirrefl := Double.lt_irrefl (0.0 : Float)
  cases a <;> cases b <;> simp only [AxisCase.Covers] at ha hb
  case positive.positive | negative.negative | zero.zero => rfl
  case positive.negative => exact absurd (Double.lt_trans ha hb) hirrefl
  case negative.positive => exact absurd (Double.lt_trans hb ha) hirrefl
  case positive.zero => exact absurd (hb ▸ ha) hirrefl
  case zero.positive => exact absurd (ha ▸ hb) hirrefl
  case negative.zero => exact absurd (hb ▸ ha) hirrefl
  case zero.negative => exact absurd (ha ▸ hb) hirrefl

theorem real_zero : Formula.real 0.0 = .lit (.real 0.0) := by
  show Formula.lit (.real (Double.normal 0.0)) = _
  unfold Double.normal
  split <;> rfl

theorem axisCondition_covers {value condition : Formula} {a : AxisCase}
    (hvalue : value.Unknown) (h : Context.axisCondition value a = .ok condition)
    (hv : condition.verdict σ = some true) :
    ∃ v x, value.eval σ = .ok v ∧ v.number? = some x ∧ a.Covers x := by
  cases a with
  | positive =>
      obtain ⟨-, rfl⟩ := Build.compareArith_eq_ok.mp h
      rw [real_zero] at hv
      obtain ⟨v, x, hv, hx, hholds⟩ := verdict_compareArith hvalue hv
      have hpositive : 0.0 < x := of_decide_eq_true hholds
      exact ⟨v, x, hv, hx, hpositive⟩
  | negative =>
      obtain ⟨-, rfl⟩ := Build.compareArith_eq_ok.mp h
      rw [real_zero] at hv
      obtain ⟨v, x, hv, hx, hholds⟩ := verdict_compareArith hvalue hv
      have hnegative : x < 0.0 := of_decide_eq_true hholds
      exact ⟨v, x, hv, hx, hnegative⟩
  | zero =>
      obtain ⟨-, rfl⟩ := Build.eq_eq_ok.mp h
      rw [real_zero] at hv
      obtain ⟨value', hvalue', hiff⟩ := verdict_eq_lit hv
      obtain rfl : value = value' := Except.ok.inj (hvalue.1.simplify_eq.symm.trans hvalue')
      exact ⟨_, 0.0, hiff.mpr rfl, rfl, rfl⟩

/-- Different cases of an axis exclude each other. -/
theorem axisConditions_contrary {value : Formula} {partition : List AxisCase}
    {conditions : List Formula} (hvalue : value.Unknown) (hnodup : partition.Nodup)
    (h : partition.mapM (Context.axisCondition value) = .ok conditions) :
    conditions.Pairwise (Contrary σ) := by
  rw [mapM_eq_ok] at h
  induction h with
  | nil => exact .nil
  | @cons a condition partition conditions ha hrest ih =>
      obtain ⟨hfresh, hnodup⟩ := List.nodup_cons.mp hnodup
      refine List.pairwise_cons.mpr ⟨fun condition' hcondition' hv hv' => ?_, ih hnodup⟩
      obtain ⟨b, hb, hb'⟩ := forall₂_exists_of_mem_right hrest hcondition'
      obtain ⟨v, x, hv, hx, hcovers⟩ := axisCondition_covers hvalue ha hv
      obtain ⟨v', x', hv', hx', hcovers'⟩ := axisCondition_covers hvalue hb' hv'
      obtain rfl : v = v' := Except.ok.inj (hv.symm.trans hv')
      obtain rfl : x = x' := Option.some.inj (hx.symm.trans hx')
      exact hfresh (hcovers.unique hcovers' ▸ hb)

/-! ## Cells of the screen -/

/-- The number that a fraction of the screen stands for. -/
def fractionValue (i n : Nat) : Float := Double.normal (Float.ofNat i / Float.ofNat n)

/-- The fractions with a denominator do not decrease. -/
def MonotoneFractions (n : Nat) : Prop := ∀ j ≤ n, ∀ i < j, fractionValue i n ≤ fractionValue j n

instance (n : Nat) : Decidable (MonotoneFractions n) :=
  inferInstanceAs (Decidable (∀ j ≤ n, ∀ i < j, _))

/-- A number is in one of the intervals that a line is cut into. -/
def InInterval (n i : Nat) (x : Float) : Prop := fractionValue i n ≤ x ∧ x < fractionValue (i + 1) n

theorem InInterval.not_lt {n i j : Nat} {x : Float} (hn : MonotoneFractions n)
    (hi : InInterval n i x) (hj : InInterval n j x) (hjn : j < n) : ¬ i < j := by
  intro hij
  have hlt : x < fractionValue j n := by
    rcases Nat.lt_or_eq_of_le (Nat.succ_le_of_lt hij) with hlt | heq
    · exact Double.lt_of_lt_of_le hi.2 (hn j (Nat.le_of_lt hjn) (i + 1) hlt)
    · exact heq ▸ hi.2
  exact Double.not_lt_of_le hj.1 hlt

theorem InInterval.unique {n i j : Nat} {x : Float} (hn : MonotoneFractions n)
    (hi : InInterval n i x) (hj : InInterval n j x) (hin : i < n) (hjn : j < n) : i = j :=
  Nat.le_antisymm (Nat.not_lt.mp (hj.not_lt hn hi hin)) (Nat.not_lt.mp (hi.not_lt hn hj hjn))

theorem cellCondition_inInterval {c : Context} {x y condition : Formula} {column row : Nat}
    (hx : x.Unknown) (hy : y.Unknown)
    (h : c.cellCondition x y column row = .ok condition) (hv : condition.verdict σ = some true) :
    (∃ v p, x.eval σ = .ok v ∧ v.number? = some p ∧ InInterval c.options.gridWidth column p) ∧
    ∃ v p, y.eval σ = .ok v ∧ v.number? = some p ∧ InInterval c.options.gridHeight row p := by
  -- The two comparisons of a coordinate are about one number.
  have interval : ∀ {e : Formula} {n i : Nat}, e.Unknown →
      (Formula.binary (.compareArith .ge) e (fraction i n)).verdict σ = some true →
      (Formula.binary (.compareArith .lt) e (fraction (i + 1) n)).verdict σ = some true →
      ∃ v p, e.eval σ = .ok v ∧ v.number? = some p ∧ InInterval n i p := by
    intro e n i he hge hlt
    obtain ⟨v, p, hv, hp, hge⟩ := verdict_compareArith he hge
    obtain ⟨v', p', hv', hp', hlt⟩ := verdict_compareArith he hlt
    obtain rfl : v = v' := Except.ok.inj (hv.symm.trans hv')
    obtain rfl : p = p' := Option.some.inj (hp.symm.trans hp')
    exact ⟨v, p, hv, hp, of_decide_eq_true hge, of_decide_eq_true hlt⟩
  simp only [Context.cellCondition, bind_eq_ok, Build.compareArith_eq_ok] at h
  obtain ⟨_, ⟨-, rfl⟩, _, ⟨-, rfl⟩, _, ⟨-, rfl⟩, _, ⟨-, rfl⟩, h⟩ := h
  obtain ⟨-, rfl⟩ := Build.and_eq_ok.mp h
  have hall := verdict_and hv
  exact ⟨interval hx (hall _ (by simp)) (hall _ (by simp)),
    interval hy (hall _ (by simp)) (hall _ (by simp))⟩

theorem cells_contrary {c : Context} {x y : Formula} {cells : List (Nat × Nat)}
    {conditions : List Formula} (hx : x.Unknown) (hy : y.Unknown)
    (hwidth : MonotoneFractions c.options.gridWidth)
    (hheight : MonotoneFractions c.options.gridHeight) (hnodup : cells.Nodup)
    (hbounds : ∀ cell ∈ cells, cell.1 < c.options.gridWidth ∧ cell.2 < c.options.gridHeight)
    (h : List.Forall₂ (fun cell condition => c.cellCondition x y cell.1 cell.2 = .ok condition)
      cells conditions) : conditions.Pairwise (Contrary σ) := by
  induction h with
  | nil => exact .nil
  | @cons cell condition cells conditions hcell hrest ih =>
      obtain ⟨hfresh, hnodup⟩ := List.nodup_cons.mp hnodup
      obtain ⟨⟨hcolumn, hrow⟩, hothers⟩ := List.forall_mem_cons.mp hbounds
      refine List.pairwise_cons.mpr ⟨fun condition' hcondition' hv hv' => ?_, ih hnodup hothers⟩
      obtain ⟨cell', hmem, hcell'⟩ := forall₂_exists_of_mem_right hrest hcondition'
      obtain ⟨hcolumn', hrow'⟩ := hothers cell' hmem
      obtain ⟨⟨v, p, hv₁, hp, hin⟩, w, q, hw₁, hq, hin'⟩ := cellCondition_inInterval hx hy hcell hv
      obtain ⟨⟨v', p', hv₂, hp', hin₂⟩, w', q', hw₂, hq', hin₂'⟩ :=
        cellCondition_inInterval hx hy hcell' hv'
      obtain rfl : v = v' := Except.ok.inj (hv₁.symm.trans hv₂)
      obtain rfl : p = p' := Option.some.inj (hp.symm.trans hp')
      obtain rfl : w = w' := Except.ok.inj (hw₁.symm.trans hw₂)
      obtain rfl : q = q' := Option.some.inj (hq.symm.trans hq')
      have hsame : cell = cell' := Prod.ext (hin.unique hwidth hin₂ hcolumn hcolumn')
        (hin'.unique hheight hin₂' hrow hrow')
      exact hfresh (hsame ▸ hmem)

/-- Different cells of the screen exclude each other. -/
theorem cellConditions_contrary {c : Context} {x y : Formula} {conditions : List Formula}
    (hx : x.Unknown) (hy : y.Unknown)
    (hwidth : MonotoneFractions c.options.gridWidth)
    (hheight : MonotoneFractions c.options.gridHeight)
    (h : c.cellConditions x y = .ok conditions) : conditions.Pairwise (Contrary σ) := by
  have hnodup : (List.product (List.range c.options.gridWidth)
      (List.range c.options.gridHeight)).Nodup := List.nodup_range.product List.nodup_range
  refine cells_contrary hx hy hwidth hheight hnodup ?_ (mapM_eq_ok.mp h)
  rintro ⟨column, row⟩ hcell
  simpa using List.pair_mem_product.mp hcell

/-! ## Assumptions -/

theorem assumeAll_subset {s t : InputState} {conditions : List Formula}
    (h : s.assumeAll conditions = .ok t) : s.condition ⊆ t.condition := by
  refine foldlM_induction (P := fun u => s.condition ⊆ u.condition) ?_ (List.Subset.refl _) h
  intro u c _ hu u' hu'
  exact List.Subset.trans hu (State.assume_subset hu')

/-- A state that assumes conditions holds only if the verdicts on all of them are true. -/
theorem verdict_of_assumeAll {s t : InputState} {conditions : List Formula}
    (h : s.assumeAll conditions = .ok t) (ht : t.Holds σ) :
    ∀ c ∈ conditions, c.verdict σ = some true := by
  induction conditions generalizing s with
  | nil => simp
  | cons c conditions ih =>
      simp only [State.assumeAll, List.foldlM_cons, bind_eq_ok] at h
      obtain ⟨u, hu, h⟩ := h
      refine List.forall_mem_cons.mpr ⟨State.verdict_of_assume hu ?_, ih h⟩
      exact ht.of_subset (assumeAll_subset h)

/-! ## Forks -/

/-- States that were not given up. -/
def goesOn (status : Status) : Bool := status ≠ .aborted

/-- A state forks into states that assume what it does, and those that go on are apart. -/
def ForksApart (σ : Assignment) (s : InputState) (forks : List (InputState × Option Formula)) :
    Prop :=
  forks.Pairwise (fun a b => a.1.Apart σ goesOn b.1) ∧
    ∀ fork ∈ forks, s.condition ⊆ fork.1.condition

theorem forksApart_single {s t : InputState} {value : Option Formula}
    (h : s.condition ⊆ t.condition) : ForksApart σ s [(t, value)] :=
  ⟨List.pairwise_singleton _ _, List.forall_mem_singleton.mpr h⟩

/-- Nothing is apart from a state that was given up. -/
theorem apart_abort (s t : InputState) : s.Apart σ goesOn t.abort := by
  intro _ hgoes
  cases hgoes

namespace Context

variable {c : Context} {s : InputState} {forks : List (InputState × Option Formula)}

/-- The value of a poll is a variable, and polling assumes nothing. -/
theorem poll_eq_ok {m : MethodRef} {arguments : List Formula} {p : Formula × Bool × InputState}
    (h : c.poll s m arguments = .ok p) :
    (∃ name t, p.1 = .var name t) ∧ p.2.2.condition = s.condition := by
  simp only [poll, bind_eq_ok] at h
  obtain ⟨texts, -, ⟨value, t⟩, hcall, h⟩ := h
  obtain ⟨hcondition, hvalue⟩ := symbolicCall_eq_ok hcall
  cases value with
  | none => simp at h
  | some value =>
      obtain ⟨name, u, rfl⟩ := hvalue value rfl
      obtain rfl := Except.ok.inj h
      refine ⟨⟨name, u, rfl⟩, hcondition.trans ?_⟩
      split <;> rfl

theorem split_forksApart {cases : List Formula} {value : Formula}
    (hcases : cases.Pairwise (Contrary σ)) (h : c.split s cases value = .ok forks) :
    ForksApart σ s forks := by
  simp only [split, bind_eq_ok] at h
  obtain ⟨kept, hkept, h⟩ := h
  have hkept := (filterM_eq_ok hkept).1
  cases kept with
  | nil =>
      obtain rfl := Except.ok.inj h
      exact forksApart_single (List.Subset.refl _)
  | cons case rest =>
      rw [mapM_eq_ok] at h
      have hcontrary := hcases.sublist hkept
      clear hkept hcases
      generalize case :: rest = kept at h hcontrary
      induction h with
      | nil => exact ⟨.nil, by simp⟩
      | cons hfork hrest ih =>
          simp only [bind_eq_ok, pure_eq_ok] at hfork
          obtain ⟨t, ht, rfl⟩ := hfork
          obtain ⟨hfirst, hothers⟩ := List.pairwise_cons.mp hcontrary
          obtain ⟨hapart, hsub⟩ := ih hothers
          refine ⟨List.pairwise_cons.mpr ⟨fun fork' hfork' => ?_, hapart⟩,
            List.forall_mem_cons.mpr ⟨State.assume_subset ht, hsub⟩⟩
          obtain ⟨case', hcase', hfork'⟩ := forall₂_exists_of_mem_right hrest hfork'
          simp only [bind_eq_ok, pure_eq_ok] at hfork'
          obtain ⟨u, hu, rfl⟩ := hfork'
          rintro - - ⟨htholds, huholds⟩
          exact hfirst case' hcase' (State.verdict_of_assume ht htholds)
            (State.verdict_of_assume hu huholds)

/-- At most one fork is made, and it assumes all conditions. -/
theorem fork?_eq_ok {conditions : List Formula}
    {finish : InputState → InputState × Option Formula}
    (h : c.fork? s conditions finish = .ok forks) :
    (∀ R, forks.Pairwise R) ∧
      ∀ fork ∈ forks, ∃ t, s.assumeAll conditions = .ok t ∧ fork = finish t := by
  simp only [fork?, bind_eq_ok] at h
  obtain ⟨possible, -, h⟩ := h
  cases possible with
  | false =>
      obtain rfl := Except.ok.inj h
      exact ⟨fun R => .nil, by simp⟩
  | true =>
      simp only [if_true, bind_eq_ok, pure_eq_ok] at h
      obtain ⟨t, ht, rfl⟩ := h
      exact ⟨fun R => List.pairwise_singleton _ _, List.forall_mem_singleton.mpr ⟨t, ht, rfl⟩⟩

/-- The three answers to an edge: it is not there, it is, or the contrary one is, which ends the
path. -/
theorem edge_forksApart {asked contrary : List Formula} {all other : Formula} {width : Nat}
    {no yes aborted : List (InputState × Option Formula)}
    (hall : Build.and asked = .ok all) (hother : Build.not all = .ok other)
    (hno : c.fork? s [other] (fun s => (s, some (.bits 0 width))) = .ok no)
    (hyes : c.fork? s asked (fun s => (s, some (.bits 1 width))) = .ok yes)
    (haborted : c.fork? s contrary (fun s => (s.abort, none)) = .ok aborted) :
    ForksApart σ s (no ++ yes ++ aborted) := by
  obtain ⟨-, rfl⟩ := Build.and_eq_ok.mp hall
  obtain ⟨-, rfl⟩ := Build.not_eq_ok.mp hother
  obtain ⟨hnopair, hno⟩ := fork?_eq_ok hno
  obtain ⟨hyespair, hyes⟩ := fork?_eq_ok hyes
  obtain ⟨habortedpair, haborted⟩ := fork?_eq_ok haborted
  refine ⟨List.pairwise_append.mpr ⟨List.pairwise_append.mpr ⟨hnopair _, hyespair _, ?_⟩,
    habortedpair _, ?_⟩, ?_⟩
  · intro fork hfork fork' hfork'
    obtain ⟨t, ht, rfl⟩ := hno fork hfork
    obtain ⟨u, hu, rfl⟩ := hyes fork' hfork'
    rintro - - ⟨htholds, huholds⟩
    have hnot := verdict_of_assumeAll ht htholds _ (List.mem_singleton_self _)
    obtain ⟨e, he, hfalse⟩ := verdict_not_and hnot
    rw [verdict_of_assumeAll hu huholds e he] at hfalse
    simp at hfalse
  · intro fork _ fork' hfork'
    obtain ⟨u, -, rfl⟩ := haborted fork' hfork'
    exact apart_abort _ u
  · intro fork hfork
    rcases List.mem_append.mp hfork with hfork | hfork
    · rcases List.mem_append.mp hfork with hfork | hfork
      · obtain ⟨t, ht, rfl⟩ := hno fork hfork
        exact assumeAll_subset ht
      · obtain ⟨t, ht, rfl⟩ := hyes fork hfork
        exact assumeAll_subset ht
    · obtain ⟨t, ht, rfl⟩ := haborted fork hfork
      exact assumeAll_subset (t := t) ht

theorem pollEdge_forksApart {edge : Edge} {pressed wasPressed : Formula} {width : Nat}
    (h : c.pollEdge s edge pressed wasPressed width = .ok forks) : ForksApart σ s forks := by
  simp only [pollEdge, bind_eq_ok] at h
  obtain ⟨wasClear, -, isSet, -, wasSet, -, isClear, -, h⟩ := h
  obtain ⟨all, hall, other, hother, no, hno, yes, hyes, aborted, haborted, h⟩ := h
  have hforks : ForksApart σ s (no ++ yes ++ aborted) := by
    cases edge with
    | down => exact edge_forksApart hall hother hno hyes haborted
    | up => exact edge_forksApart hall hother hno hyes haborted
  split at h
  · obtain rfl := Except.ok.inj h
    exact forksApart_single (List.Subset.refl _)
  · obtain rfl := Except.ok.inj h
    exact hforks

theorem ForksApart.of_eq {s t : InputState} (h : ForksApart σ t forks)
    (hcondition : t.condition = s.condition) : ForksApart σ s forks := by
  unfold ForksApart at h ⊢
  rwa [← hcondition]

theorem pollAxis_forksApart {m : MethodRef} {arguments : List Formula}
    (hnodup : c.options.axisPartition.Nodup) (h : c.pollAxis s m arguments = .ok forks) :
    ForksApart σ s forks := by
  simp only [pollAxis, bind_eq_ok] at h
  obtain ⟨⟨value, first, t⟩, hpoll, h⟩ := h
  obtain ⟨⟨name, u, rfl⟩, hcondition⟩ := poll_eq_ok hpoll
  refine ForksApart.of_eq ?_ hcondition
  cases first with
  | false =>
      obtain rfl := Except.ok.inj h
      exact forksApart_single (List.Subset.refl _)
  | true =>
      simp only [Bool.not_true, Bool.false_eq_true, if_false, bind_eq_ok] at h
      obtain ⟨conditions, hconditions, h⟩ := h
      exact split_forksApart (axisConditions_contrary (unknown_var name u) hnodup hconditions) h

theorem pollMousePosition_forksApart {m : MethodRef} {arguments : List Formula}
    (hwidth : MonotoneFractions c.options.gridWidth)
    (hheight : MonotoneFractions c.options.gridHeight)
    (h : c.pollMousePosition s m arguments = .ok forks) : ForksApart σ s forks := by
  simp only [pollMousePosition, bind_eq_ok] at h
  obtain ⟨⟨value, first, t⟩, hpoll, h⟩ := h
  obtain ⟨⟨name, u, rfl⟩, hcondition⟩ := poll_eq_ok hpoll
  refine ForksApart.of_eq ?_ hcondition
  cases first with
  | false =>
      obtain rfl := Except.ok.inj h
      exact forksApart_single (List.Subset.refl _)
  | true =>
      simp only [Bool.not_true, Bool.false_eq_true, if_false, bind_eq_ok, Build.get_eq_ok] at h
      obtain ⟨_, ⟨r, i, -, -, rfl⟩, _, ⟨r', j, -, -, rfl⟩, conditions, hconditions, h⟩ := h
      exact split_forksApart (cellConditions_contrary (unknown_get name u r i)
        (unknown_get name u r' j) hwidth hheight hconditions) h

theorem pollButton_forksApart {m : MethodRef} {arguments : List Formula}
    (h : c.pollButton s m arguments = .ok forks) : ForksApart σ s forks := by
  unfold pollButton at h
  split at h
  · simp at h
  · next base edge hbutton =>
    simp only [bind_eq_ok] at h
    obtain ⟨⟨pressed, first, t⟩, hpoll, ⟨wasPressed, again, u⟩, hpoll', w, -, h⟩ := h
    obtain ⟨-, hcondition⟩ := poll_eq_ok hpoll
    obtain ⟨-, hcondition'⟩ := poll_eq_ok hpoll'
    refine ForksApart.of_eq ?_ (hcondition'.trans hcondition)
    split at h
    · next width =>
      cases edge with
      | some edge => exact pollEdge_forksApart h
      | none =>
          cases first with
          | false =>
              obtain rfl := Except.ok.inj h
              exact forksApart_single (List.Subset.refl _)
          | true =>
              simp only [Bool.not_true, Bool.false_eq_true, if_false, bind_eq_ok] at h
              obtain ⟨e, he, n, hn, h⟩ := h
              obtain ⟨-, rfl⟩ := Build.eq_eq_ok.mp he
              obtain ⟨-, rfl⟩ := Build.ne_eq_ok.mp hn
              exact split_forksApart (List.pairwise_pair.mpr (flag_contrary _ _)) h
    · simp at h

theorem summarizeInput_forksApart {m : MethodRef} {arguments : List Formula}
    (hnodup : c.options.axisPartition.Nodup) (hwidth : MonotoneFractions c.options.gridWidth)
    (hheight : MonotoneFractions c.options.gridHeight)
    (h : c.summarizeInput s m arguments = .ok forks) : ForksApart σ s forks := by
  unfold summarizeInput at h
  split at h
  · obtain ⟨value, -, rfl⟩ := unknownCall_eq_ok.mp h
    exact forksApart_single (List.Subset.refl _)
  · split at h
    · exact pollAxis_forksApart hnodup h
    · split at h
      · exact pollMousePosition_forksApart hwidth hheight h
      · exact pollButton_forksApart h

/-! ## Starts -/

variable {t : InputState} {inside outside : List Formula}

/-- A state is reached from another one by polls. -/
inductive Polled (c : Context) (s : InputState) : InputState → Prop
  | refl : Polled c s s
  | poll {t : InputState} {m : MethodRef} {arguments : List Formula}
      {r : Formula × Bool × InputState} :
      Polled c s t → c.poll t m arguments = .ok r → Polled c s r.2.2

/-- A callback starts in the state that it is given, or, after some polls, in two states, and does
not run in the second one. -/
inductive StartsIn (c : Context) (s : InputState) : List InputState → Prop
  | stay : StartsIn c s [s]
  | split {t inside outside : InputState} {ins outs : List Formula} : c.Polled s t →
      t.assumeAll ins = .ok inside → t.assumeAll outs = .ok outside →
      StartsIn c s [inside, outside.abort]

theorem pollMouseButton_polled (h : c.Polled s t) {declaringType : String} :
    Yields (fun r => c.Polled s r.2) (c.pollMouseButton t declaringType) := by
  unfold pollMouseButton
  exact Yields.bind_of (fun _ hr => Polled.poll h hr) fun _ hr => .pure hr

theorem startStates_startsIn (h : c.Polled s t) :
    Yields (c.StartsIn s) (startStates t inside outside) := by
  intro ts hts
  simp only [startStates, bind_eq_ok, pure_eq_ok] at hts
  obtain ⟨u, hu, v, hv, rfl⟩ := hts
  exact .split h hu hv

theorem startAfterPress_startsIn {released : Bool} :
    Yields (c.StartsIn s) (c.startAfterPress s released) := by
  unfold startAfterPress
  refine (pollMouseButton_polled .refl).bind_of fun r hr => .bind fun _ => ?_
  split
  · exact .bind fun _ => .bind fun _ => .bind fun _ => startStates_startsIn hr
  · exact .bind fun _ => .bind fun _ => startStates_startsIn hr

theorem startOverBounds_startsIn {name : String} :
    Yields (c.StartsIn s) (c.startOverBounds s name) := by
  unfold startOverBounds
  dsimp only
  by_cases hstruct : (!(c.program.typeOf vectorType).isStruct) = true
  · rw [if_pos hstruct]
    exact .throw_bind
  · rw [if_neg hstruct]
    refine Yields.bind_of (fun _ hr => Polled.poll .refl hr) fun r hr => ?_
    -- The bounds, and what is inside and outside of them.
    refine .bind fun _ => .bind fun _ => .bind fun _ => .bind fun _ => .bind fun _ => .bind fun _ =>
      .bind fun _ => .bind fun _ => .bind fun _ => .bind fun _ => .bind fun _ => .bind fun _ =>
      .bind fun _ => .bind fun _ => .bind fun _ => ?_
    split
    · exact startStates_startsIn hr
    · refine (pollMouseButton_polled hr).bind_of fun r' hr' => ?_
      refine (pollMouseButton_polled hr').bind_of fun r'' hr'' => ?_
      exact .bind fun _ => .bind fun _ => .bind fun _ => startStates_startsIn hr''
    · exact .bind fun _ => .bind fun _ => startStates_startsIn hr
    · exact .bind fun _ => .bind fun _ => startStates_startsIn hr
    · refine (pollMouseButton_polled hr).bind_of fun r' hr' => ?_
      exact .bind fun _ => .bind fun _ => .bind fun _ => startStates_startsIn hr'

/-- **How callbacks start.** -/
theorem startStatesOf_startsIn : Yields (c.StartsIn s) (c.startStatesOf s) := by
  unfold startStatesOf
  split
  case h_1 | h_2 | h_3 => exact .pure .stay
  case h_4 | h_5 => exact startAfterPress_startsIn
  case h_6 | h_7 | h_8 | h_9 | h_10 => exact startOverBounds_startsIn
  case h_11 => exact .throw

/-- The state in which a callback does not run is given up. -/
theorem startStatesOf_apart {ts : List InputState} (h : c.startStatesOf s = .ok ts) :
    ts.Pairwise (State.Apart σ goesOn) := by
  cases startStatesOf_startsIn ts h with
  | stay => exact List.pairwise_singleton _ _
  | split => exact List.pairwise_pair.mpr (apart_abort _ _)

end Context

theorem input_exclusive {c : Context} (leads : LeadsResult)
    (hnodup : c.options.axisPartition.Nodup) (hwidth : MonotoneFractions c.options.gridWidth)
    (hheight : MonotoneFractions c.options.gridHeight) :
    (Policy.input c leads).Exclusive σ goesOn :=
  ⟨fun h => Context.startStatesOf_apart h,
    fun h => Context.summarizeInput_forksApart hnodup hwidth hheight h⟩

def Machine.input (c : Context) (leads : LeadsResult) : Machine Polls := ⟨c, .input c leads⟩

namespace Machine

open State

/-- **Halted states exclude each other.** If a run under the policy for input succeeds, no case of
an axis is repeated, the fractions of the screen do not decrease and the constants of every switch
are distinct, then no assignment makes all that two different halted states assume true. -/
theorem halted_apart {c : Context} {leads : LeadsResult} {states : List InputState}
    (hnodup : c.options.axisPartition.Nodup) (hwidth : MonotoneFractions c.options.gridWidth)
    (hheight : MonotoneFractions c.options.gridHeight)
    (hswitch : (Machine.input c leads).DistinctSwitches)
    (h : (Machine.input c leads).run = .ok states) :
    states.Pairwise fun s t => s.status = .halted → t.status = .halted →
      ∀ σ : Assignment, ¬ (s.Holds σ ∧ t.Holds σ) := by
  obtain ⟨a, ha, rfl⟩ := run_eq_ok.mp h
  have hapart : ∀ σ, a.stopped.reverse.Pairwise (Apart σ goesOn) := by
    intro σ
    have hall := run_apart rfl (input_exclusive (σ := σ) leads hnodup hwidth hheight) hswitch ha
    have hstopped := hall.sublist (List.sublist_append_right a.pending a.stopped)
    exact (a.stopped.reverse_perm.pairwise_iff fun hst => hst.symm).mpr hstopped
  have hgoesOn : ∀ {s : InputState}, s.status = .halted → goesOn s.status = true := by
    intro s hs
    rw [hs]
    rfl
  rw [List.pairwise_iff_getElem]
  intro i j hi hj hij hs ht σ
  exact List.pairwise_iff_getElem.mp (hapart σ) i j hi hj hij (hgoesOn hs) (hgoesOn ht)

def keyMethod : Method :=
  let key : Expression :=
    .call (.static "UnityEngine.Input" "GetKey" [.int32] .bool) [.constant (.int32 32)]
  ⟨⟨"Player", "Update", [], .void, 0⟩, [], "Game",
    some { blocks := [⟨0, [⟨.switch key [⟨[0], 1⟩, ⟨[1], 1⟩] 1, []⟩]⟩] }⟩

/-- The execution of the method, which leads to input. -/
def keyMachine : Machine Polls :=
  .input { program := .empty "Game", entry := keyMethod, options := {}
           solver := fun _ => .ok .unknown, sorts := {} }
    ⟨.ofList [(keyMethod.signature, [Location.start 0])]⟩

/-- The running states of the execution: before the poll, and with its value. -/
def keyStates : List InputState :=
  let s := State.start keyMethod ⟨0, 0⟩ {}
  s :: match keyMachine.step s with
    | .ok states => states
    | .error _ => []

theorem key_reached {s : InputState} (h : keyMachine.Reached s) (hrunning : s.isRunning = true) :
    s ∈ keyStates := by
  -- After the poll, the switch ends the method.
  have hlast : ∀ s ∈ keyStates.tail, (match keyMachine.step s with
      | .ok ts => ts.all fun t => !t.isRunning
      | .error _ => false) = true := by
    decide +kernel
  induction h with
  | start hs hts ht =>
      obtain rfl := Except.ok.inj hs
      obtain rfl := Except.ok.inj hts
      obtain rfl := List.mem_singleton.mp ht
      exact List.mem_cons_self
  | step _ hsrunning hts ht ih =>
      rcases List.mem_cons.mp (ih hsrunning) with rfl | hs
      · refine List.mem_cons_of_mem _ ?_
        rw [hts]
        exact ht
      · have hstopped := hlast _ hs
        rw [hts] at hstopped
        simpa [hrunning] using List.all_eq_true.mp hstopped _ ht

theorem key_halted_apart :
    ∃ states, keyMachine.run = .ok states ∧ states.length = 6 ∧
      (∀ s ∈ states, s.status = .halted) ∧
      states.Pairwise fun s t => ∀ σ : Assignment, ¬ (s.Holds σ ∧ t.Holds σ) := by
  have hswitch : keyMachine.DistinctSwitches := by
    have hall : ∀ s ∈ keyStates, (match keyMachine.switchConstants s with
        | .ok constants => decide constants.Nodup
        | .error _ => true) = true := by
      decide +kernel
    intro s constants hs hrunning hconstants
    have hnodup := hall s (key_reached hs hrunning)
    rw [hconstants] at hnodup
    exact of_decide_eq_true hnodup
  obtain ⟨states, hrun, hlength, hhalted⟩ : ∃ states, keyMachine.run = .ok states ∧
      states.length = 6 ∧ ∀ s ∈ states, s.status = .halted := by
    have hcheck : (match keyMachine.run with
        | .ok states => decide (states.length = 6 ∧ ∀ s ∈ states, s.status = .halted)
        | .error _ => false) = true := by
      decide +kernel
    cases hrun : keyMachine.run with
    | error e =>
        rw [hrun] at hcheck
        cases hcheck
    | ok states =>
        rw [hrun] at hcheck
        exact ⟨states, rfl, of_decide_eq_true hcheck⟩
  have hapart := halted_apart (by decide) (by decide +kernel) (by decide +kernel) hswitch hrun
  exact ⟨states, hrun, hlength, hhalted, hapart.imp_of_mem fun hs ht hst =>
    hst (hhalted _ hs) (hhalted _ ht)⟩

end Machine

end PlayerPaths
