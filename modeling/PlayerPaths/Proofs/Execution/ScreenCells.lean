import PlayerPaths.Proofs.Execution.Starts
import PlayerPaths.Proofs.Number.Quotients

/-!
# The cells of the screen

A grid cuts the screen into cells. Each has its left and its lower border, and not the other two.
The mouse is on the screen with all of its borders, so it is in exactly one cell, unless it is on
the right or on the upper border of the screen: then it is in none (`Context.mouse_cells`).

The borders are doubles. They ascend from 0 to 1 if doubles keep the sizes of the grid apart, as
they do up to `2 ^ 53` (`GridSize`).
-/

namespace PlayerPaths

open IL Formula

variable {σ : Assignment}

/-! ## Intervals of a line -/

/-- A size of a grid: not zero, and kept by doubles. -/
def GridSize (n : Nat) : Prop := n ≠ 0 ∧ n ≤ 2 ^ 53

instance (n : Nat) : Decidable (GridSize n) := inferInstanceAs (Decidable (_ ∧ _))

section

variable {n i j : Nat} {x : Float} (hn : GridSize n)

include hn

theorem fractionValue_eq (hin : i ≤ n) :
    fractionValue i n = Float.ofNat i / Float.ofNat n :=
  Double.normal_div_ofNat hn.1 hn.2 hin

theorem fractionValue_le (hij : i ≤ j) (hjn : j ≤ n) : fractionValue i n ≤ fractionValue j n := by
  rw [fractionValue_eq hn (Nat.le_trans hij hjn), fractionValue_eq hn hjn]
  exact Double.div_ofNat_le hn.1 hn.2 hij hjn

theorem monotoneFractions : MonotoneFractions n :=
  fun _ hjn _ hij => fractionValue_le hn (Nat.le_of_lt hij) hjn

theorem fractionValue_zero : fractionValue 0 n = 0.0 := by
  rw [fractionValue_eq hn (Nat.zero_le n), Double.zero_div_ofNat hn.1 hn.2]

theorem fractionValue_self : fractionValue n n = 1.0 := by
  rw [fractionValue_eq hn (Nat.le_refl n), Double.div_ofNat_self hn.1 hn.2]

/-- The end of the line is in no interval. -/
theorem InInterval.lt_one (hi : InInterval n i x) (hin : i < n) : x < 1.0 := by
  have hle := fractionValue_le hn (Nat.succ_le_of_lt hin) (Nat.le_refl n)
  rw [fractionValue_self hn] at hle
  exact Double.lt_of_lt_of_le hi.2 hle

/-- Every number on the line is in an interval. -/
theorem exists_inInterval (hzero : 0.0 ≤ x) (hone : x < 1.0) : ∃ i < n, InInterval n i x := by
  classical
  -- The interval ends at the first border above the number.
  have hborder : ∃ k, x < fractionValue k n := ⟨n, by rwa [fractionValue_self hn]⟩
  have hlast : Nat.find hborder ≤ n := Nat.find_min' hborder (by rwa [fractionValue_self hn])
  have hfirst : Nat.find hborder ≠ 0 := by
    intro h
    have hlt := Nat.find_spec hborder
    rw [h, fractionValue_zero hn] at hlt
    exact Double.not_lt_of_le hzero hlt
  obtain ⟨i, hi⟩ := Nat.exists_eq_succ_of_ne_zero hfirst
  have hbelow : ¬ x < fractionValue i n := Nat.find_min hborder (by omega)
  refine ⟨i, by omega, Double.le_of_not_lt ?_ (Double.le_self_of_le hzero) hbelow, ?_⟩
  · exact fractionValue_le hn (Nat.le_refl i) (by omega)
  · have hspec := Nat.find_spec hborder
    rwa [hi] at hspec

end

instance (n i : Nat) (x : Float) : Decidable (InInterval n i x) :=
  inferInstanceAs (Decidable (_ ∧ _))

/-! ## Coordinates -/

/-- A coordinate of the mouse position: a real formula with a number on the screen for its value. -/
structure Coordinate (σ : Assignment) (x : Formula) (p : Float) : Prop where
  sort : x.sort = .ok .real
  takes : ∃ v, x.Takes σ v ∧ v.number? = some p
  zero_le : 0.0 ≤ p
  le_one : p ≤ 1.0

theorem Coordinate.unique {x : Formula} {p q : Float} (hp : Coordinate σ x p)
    (hq : Coordinate σ x q) : p = q := by
  obtain ⟨v, hv, hp⟩ := hp.takes
  obtain ⟨w, hw, hq⟩ := hq.takes
  obtain rfl : v = w := Except.ok.inj (hv.eval.symm.trans hw.eval)
  exact Option.some.inj (hp.symm.trans hq)

/-- What is known about a coordinate gives it a number on the screen. -/
theorem coordinate_of_within {x onScreen : Formula} (hx : x.WellSorted)
    (h : within x 0.0 1.0 = .ok onScreen) (htrue : onScreen.IsTrue σ) :
    ∃ p, Coordinate σ x p := by
  simp only [within, bind_eq_ok, real_zero, Context.real_one, Build.compareArith_eq_ok] at h
  obtain ⟨low, ⟨⟨s, hsort, hreal, -⟩, rfl⟩, high, ⟨-, rfl⟩, h⟩ := h
  obtain rfl : .real = s := Except.ok.inj hreal
  obtain ⟨-, rfl⟩ := Build.and_eq_ok.mp h
  obtain ⟨hassigns, heval⟩ := htrue
  have hall := eval_and_true.mp heval
  obtain ⟨v, p, hv, hp, hlow⟩ := holds_of_comparison rfl (hall _ List.mem_cons_self)
  obtain ⟨w, q, hw, hq, hhigh⟩ :=
    holds_of_comparison rfl (hall _ (List.mem_cons_of_mem _ List.mem_cons_self))
  obtain rfl : v = w := Except.ok.inj (hv.symm.trans hw)
  obtain rfl : p = q := Option.some.inj (hp.symm.trans hq)
  refine ⟨p, hsort, ⟨v, ⟨hx, fun name s hvar => hassigns name s ?_, hv⟩, hp⟩,
    of_decide_eq_true hlow, of_decide_eq_true hhigh⟩
  rw [mem_occurrences] at hvar ⊢
  exact mem_parts_nary.mpr (.inr ⟨_, List.mem_cons_self, mem_parts_binary.mpr (.inr (.inl hvar))⟩)

/-- Coordinates are compared with numbers. -/
theorem Coordinate.compare {x : Formula} {p : Float} (hx : Coordinate σ x p)
    (op : ArithComparison) (b : Float) :
    ∃ e, Build.compareArith op x (.lit (.real b)) = .ok e ∧ e.sort = .ok .bool ∧
      e.Takes σ (.bool (op.holds p b)) := by
  obtain ⟨v, hv, hp⟩ := hx.takes
  have hbuild : Build.compareArith op x (.lit (.real b)) =
      .ok (.binary (.compareArith op) x (.lit (.real b))) :=
    Build.compareArith_eq_ok.mpr ⟨⟨.real, hx.sort, rfl, .inr rfl⟩, rfl⟩
  exact ⟨_, hbuild, rfl, hv.build_compareArith (.lit (.real b)) hp rfl _ hbuild⟩

/-- What is known about a coordinate is true of every number on the screen. -/
theorem Coordinate.within {x : Formula} {p : Float} (hx : Coordinate σ x p) :
    ∃ e, within x 0.0 1.0 = .ok e ∧ e.Takes σ (.bool true) := by
  obtain ⟨low, hlow, hlowSort, hlowTakes⟩ := hx.compare .ge 0.0
  obtain ⟨high, hhigh, hhighSort, hhighTakes⟩ := hx.compare .le 1.0
  have hand : Build.and [low, high] = .ok (.and [low, high]) :=
    Build.and_eq_ok.mpr ⟨forall_mem_pair hlowSort hhighSort, rfl⟩
  refine ⟨.and [low, high], ?_, ?_⟩
  · rw [PlayerPaths.within, real_zero, Context.real_one]
    simp only [bind_eq_ok]
    exact ⟨low, hlow, high, hhigh, hand⟩
  · have hleft : ArithComparison.ge.holds p 0.0 = true := decide_eq_true hx.zero_le
    have hright : ArithComparison.le.holds p 1.0 = true := decide_eq_true hx.le_one
    rw [hleft] at hlowTakes
    rw [hright] at hhighTakes
    exact Takes.build_and (.cons hlowTakes (.cons hhighTakes .nil)) _ hand

namespace Context

variable {c : Context} {x y : Formula} {p q : Float}

/-! ## Cells -/

/-- All cells of the grid, column by column. -/
def cells (c : Context) : List (Nat × Nat) :=
  (List.range c.options.gridWidth).product (List.range c.options.gridHeight)

/-- A point of the screen is in a cell. -/
def InCell (c : Context) (p q : Float) (cell : Nat × Nat) : Prop :=
  InInterval c.options.gridWidth cell.1 p ∧ InInterval c.options.gridHeight cell.2 q

instance (c : Context) (p q : Float) (cell : Nat × Nat) : Decidable (c.InCell p q cell) :=
  inferInstanceAs (Decidable (_ ∧ _))

/-- The condition of a cell says whether the mouse is in it. -/
theorem cellCondition_takes (hx : Coordinate σ x p) (hy : Coordinate σ y q) (cell : Nat × Nat) :
    ∃ e, c.cellCondition x y cell.1 cell.2 = .ok e ∧
      e.eval σ = .ok (.bool (decide (c.InCell p q cell))) := by
  obtain ⟨left, hleft, hleftSort, hleftTakes⟩ :=
    hx.compare .ge (fractionValue cell.1 c.options.gridWidth)
  obtain ⟨right, hright, hrightSort, hrightTakes⟩ :=
    hx.compare .lt (fractionValue (cell.1 + 1) c.options.gridWidth)
  obtain ⟨lower, hlower, hlowerSort, hlowerTakes⟩ :=
    hy.compare .ge (fractionValue cell.2 c.options.gridHeight)
  obtain ⟨upper, hupper, hupperSort, hupperTakes⟩ :=
    hy.compare .lt (fractionValue (cell.2 + 1) c.options.gridHeight)
  have hand : Build.and [left, right, lower, upper] = .ok (.and [left, right, lower, upper]) :=
    Build.and_eq_ok.mpr ⟨by simp [hleftSort, hrightSort, hlowerSort, hupperSort], rfl⟩
  refine ⟨.and [left, right, lower, upper], ?_, ?_⟩
  · simp only [cellCondition, bind_eq_ok]
    exact ⟨left, hleft, right, hright, lower, hlower, upper, hupper, hand⟩
  · have htakes := Takes.build_and (.cons hleftTakes (.cons hrightTakes
      (.cons hlowerTakes (.cons hupperTakes .nil)))) _ hand
    rw [htakes.eval]
    simp [InCell, InInterval, ArithComparison.holds, and_assoc]

/-- The conditions of the cells say which of them the mouse is in. -/
theorem cellConditions_takes (hx : Coordinate σ x p) (hy : Coordinate σ y q) :
    ∃ conditions, c.cellConditions x y = .ok conditions ∧
      List.Forall₂ (fun e b => e.eval σ = .ok (.bool b)) conditions
        (c.cells.map fun cell => decide (c.InCell p q cell)) :=
  exists_mapM_eq_ok fun cell _ => cellCondition_takes hx hy cell

theorem mem_cells {cell : Nat × Nat} :
    cell ∈ c.cells ↔ cell.1 < c.options.gridWidth ∧ cell.2 < c.options.gridHeight := by
  obtain ⟨column, row⟩ := cell
  rw [cells, List.pair_mem_product, List.mem_range, List.mem_range]

theorem cells_nodup : c.cells.Nodup := List.nodup_range.product List.nodup_range

/-- A point of the screen is in one cell, or in none on the right and on the upper border. -/
theorem countP_inCell (hwidth : GridSize c.options.gridWidth)
    (hheight : GridSize c.options.gridHeight) (hp : 0.0 ≤ p) (hq : 0.0 ≤ q) :
    c.cells.countP (fun cell => c.InCell p q cell) = if p < 1.0 ∧ q < 1.0 then 1 else 0 := by
  split
  · next hborder =>
    -- The cell is where the interval of each coordinate is, and intervals do not overlap.
    obtain ⟨column, hcolumn, hin⟩ := exists_inInterval hwidth hp hborder.1
    obtain ⟨row, hrow, hin'⟩ := exists_inInterval hheight hq hborder.2
    have hcell : (column, row) ∈ c.cells := mem_cells.mpr ⟨hcolumn, hrow⟩
    rw [← List.count_eq_one_of_mem cells_nodup hcell]
    refine List.countP_congr fun cell hmem => ?_
    obtain ⟨hcolumn', hrow'⟩ := mem_cells.mp hmem
    rw [decide_eq_true_iff, beq_iff_eq]
    constructor
    · rintro ⟨hx, hy⟩
      exact Prod.ext (hx.unique (monotoneFractions hwidth) hin hcolumn' hcolumn)
        (hy.unique (monotoneFractions hheight) hin' hrow' hrow)
    · rintro rfl
      exact ⟨hin, hin'⟩
  · next hborder =>
    refine List.countP_eq_zero.mpr fun cell hmem hin => hborder ?_
    obtain ⟨hx, hy⟩ := of_decide_eq_true hin
    obtain ⟨hcolumn, hrow⟩ := mem_cells.mp hmem
    exact ⟨hx.lt_one hwidth hcolumn, hy.lt_one hheight hrow⟩

/-! ## The mouse position -/

/-- What is known about the mouse position gives it two coordinates on the screen. -/
theorem Allows.coordinates {id : Nat} {m : MethodRef} {value : Formula} (h : c.Allows σ id m)
    (hinput : m.declaringType = c.api.inputType) (hmouse : isMousePosition m = true)
    (hvalue : freshValue c.sorts (.symcall id) m.returnType = .ok (some value)) :
    ∃ x y p q, Build.get value "x" = .ok x ∧ Build.get value "y" = .ok y ∧
      Coordinate σ x p ∧ Coordinate σ y q := by
  obtain ⟨facts, hfacts, htrue⟩ := h
  have haxis : isAxis m = false := by
    have hname : m.name = "get_mousePosition" := by simpa [isMousePosition] using hmouse
    rw [isAxis, hname]
    decide +kernel
  simp only [callAssumptions, hinput, hvalue, haxis, hmouse, ne_eq, not_true_eq_false, if_false,
    if_true, Bool.false_eq_true, bind_eq_ok, Except.ok.injEq, exists_eq_left'] at hfacts
  obtain ⟨x, hx, onX, hX, y, hy, onY, hY, hfacts⟩ := hfacts
  obtain rfl := Except.ok.inj hfacts
  obtain ⟨htrueX, htrueY⟩ := List.forall_mem_cons.mp htrue
  obtain ⟨name, s, rfl⟩ := freshValue_eq_ok hvalue
  have hsorted : (Formula.var name s).WellSorted := ⟨s, hasSort_var.mpr rfl⟩
  obtain ⟨p, hp⟩ := coordinate_of_within (Build.get_wellSorted hsorted hx) hX htrueX
  obtain ⟨q, hq⟩ := coordinate_of_within (Build.get_wellSorted hsorted hy) hY
    (htrueY _ List.mem_cons_self)
  exact ⟨x, y, p, q, hx, hy, hp, hq⟩

/-- **The mouse is in one cell.** Wherever the mouse is on the screen, the condition of every cell
is true or false, and that of exactly one cell is true. On the right and on the upper border of the
screen it is none. -/
theorem mouse_cells {id : Nat} {m : MethodRef} {value : Formula}
    (hwidth : GridSize c.options.gridWidth) (hheight : GridSize c.options.gridHeight)
    (hinput : m.declaringType = c.api.inputType) (hmouse : isMousePosition m = true)
    (hvalue : freshValue c.sorts (.symcall id) m.returnType = .ok (some value))
    (hallows : c.Allows σ id m) :
    ∃ x y p q conditions truths, Build.get value "x" = .ok x ∧ Build.get value "y" = .ok y ∧
      Coordinate σ x p ∧ Coordinate σ y q ∧ c.cellConditions x y = .ok conditions ∧
      List.Forall₂ (fun e b => e.eval σ = .ok (.bool b)) conditions truths ∧
      truths.count true = if p < 1.0 ∧ q < 1.0 then 1 else 0 := by
  obtain ⟨x, y, p, q, hx, hy, hp, hq⟩ := hallows.coordinates hinput hmouse hvalue
  obtain ⟨conditions, hconditions, htruths⟩ := cellConditions_takes (c := c) hp hq
  refine ⟨x, y, p, q, conditions, _, hx, hy, hp, hq, hconditions, htruths, ?_⟩
  rw [← countP_inCell hwidth hheight hp.zero_le hq.zero_le, List.count, List.countP_map]
  refine List.countP_congr fun cell _ => ?_
  simp

/-! ## The default grid -/

/-- The position of the mouse as the engine gives it. -/
def pointRecord : Record := ⟨vectorType, [("x", .real), ("y", .real), ("z", .real)]⟩

def gridContext : Context where
  program := (Program.empty "Game").addType ⟨vectorType, .struct, none,
    [⟨"x", .single, false⟩, ⟨"y", .single, false⟩, ⟨"z", .single, false⟩]⟩
  entry := Machine.keyMethod
  options := {}
  solver _ := .ok .unknown
  sorts := ⟨(∅ : Std.TreeMap String Record).insert vectorType pointRecord⟩

def mouseAt (p q : Float) : Assignment := fun _ =>
  some (.nary (.make pointRecord) [.lit (.real p), .lit (.real q), .lit (.real 0.0)])

def firstPoint : Formula := .var (Address.symcall 0).text pointRecord.sort

theorem gridContext_point :
    freshValue gridContext.sorts (.symcall 0) gridContext.pointer.returnType =
      .ok (some firstPoint) := by
  rfl

theorem mouseAt_takes (p q : Float) : firstPoint.Takes (mouseAt p q)
    (.nary (.make pointRecord) [.lit (.real p), .lit (.real q), .lit (.real 0.0)]) := by
  have hinRange : Formula.InRange
      (.nary (.make pointRecord) [.lit (.real p), .lit (.real q), .lit (.real 0.0)]) :=
    every_nary.mpr ⟨rfl, List.forall_mem_cons.mpr ⟨inRange_lit.mpr rfl,
      forall_mem_pair (inRange_lit.mpr rfl) (inRange_lit.mpr rfl)⟩⟩
  exact .var rfl ⟨rfl, rfl, hinRange⟩

/-- A field of the position is a coordinate. -/
theorem mouseAt_field {field : String} {i : Nat} {b : Float}
    (hget : Build.get firstPoint field = .ok (.unary (.get pointRecord i) firstPoint))
    (hsort : pointRecord.fieldSort? i = some .real)
    (hfield : [Formula.lit (.real p), .lit (.real q), .lit (.real 0.0)][i]? = some (.lit (.real b)))
    (hleft : 0.0 ≤ b) (hright : b ≤ 1.0) :
    Coordinate (mouseAt p q) (.unary (.get pointRecord i) firstPoint) b := by
  have hpoint := mouseAt_takes p q
  refine ⟨?_, ⟨.lit (.real b), ⟨Build.get_wellSorted hpoint.wellSorted hget,
    hpoint.assigns_unary, eval_unary_eq_ok.mpr ⟨_, hpoint.eval, ?_⟩⟩, rfl⟩, hleft, hright⟩
  · rw [Formula.sort, hsort]
    rfl
  · rw [UnaryFunction.apply, hfield]
    rfl

section

variable (hp : 0.0 ≤ p ∧ p ≤ 1.0) (hq : 0.0 ≤ q ∧ q ≤ 1.0)

include hp hq

theorem mouseAt_coordinates : ∃ x y, Build.get firstPoint "x" = .ok x ∧
    Build.get firstPoint "y" = .ok y ∧ Coordinate (mouseAt p q) x p ∧
    Coordinate (mouseAt p q) y q := by
  have hx : Build.get firstPoint "x" = .ok (.unary (.get pointRecord 0) firstPoint) :=
    Build.get_eq_ok.mpr ⟨pointRecord, 0, rfl, rfl, rfl⟩
  have hy : Build.get firstPoint "y" = .ok (.unary (.get pointRecord 1) firstPoint) :=
    Build.get_eq_ok.mpr ⟨pointRecord, 1, rfl, rfl, rfl⟩
  exact ⟨_, _, hx, hy, mouseAt_field hx rfl rfl hp.1 hp.2, mouseAt_field hy rfl rfl hq.1 hq.2⟩

theorem mouseAt_allows : gridContext.Allows (mouseAt p q) 0 gridContext.pointer := by
  obtain ⟨x, y, hx, hy, hp', hq'⟩ := mouseAt_coordinates hp hq
  obtain ⟨onX, honX, htrueX⟩ := hp'.within
  obtain ⟨onY, honY, htrueY⟩ := hq'.within
  exact pointer_allows gridContext_point hx hy honX honY htrueX htrueY

end

/-- On the borders between cells the mouse is in one of them. -/
theorem mouse_between_cells : ∃ x y conditions truths, Build.get firstPoint "x" = .ok x ∧
    Build.get firstPoint "y" = .ok y ∧ gridContext.cellConditions x y = .ok conditions ∧
    List.Forall₂ (fun e b => e.eval (mouseAt 0.25 0.5) = .ok (.bool b)) conditions truths ∧
    truths.count true = 1 := by
  have hp : (0.0 : Float) ≤ 0.25 ∧ (0.25 : Float) ≤ 1.0 := by decide +kernel
  have hq : (0.0 : Float) ≤ 0.5 ∧ (0.5 : Float) ≤ 1.0 := by decide +kernel
  obtain ⟨x', y', hx', hy', hxAt, hyAt⟩ := mouseAt_coordinates hp hq
  obtain ⟨x, y, p, q, conditions, truths, hx, hy, hxp, hyq, hconditions, htruths, hcount⟩ :=
    mouse_cells (c := gridContext) (by decide) (by decide) rfl (by decide +kernel)
      gridContext_point (mouseAt_allows hp hq)
  obtain rfl : x' = x := Except.ok.inj (hx'.symm.trans hx)
  obtain rfl : y' = y := Except.ok.inj (hy'.symm.trans hy)
  obtain rfl := hxAt.unique hxp
  obtain rfl := hyAt.unique hyq
  have hinside : (0.25 : Float) < 1.0 ∧ (0.5 : Float) < 1.0 := by decide +kernel
  exact ⟨_, _, conditions, truths, hx, hy, hconditions, htruths, hcount.trans (if_pos hinside)⟩

/-- On the right border of the screen the mouse is in no cell. -/
theorem mouse_right_border : (1 ≤ gridContext.options.gridWidth ∧
    1 ≤ gridContext.options.gridHeight) ∧
    gridContext.Allows (mouseAt 1.0 0.5) 0 gridContext.pointer ∧
    ∃ x y conditions truths, Build.get firstPoint "x" = .ok x ∧
      Build.get firstPoint "y" = .ok y ∧ gridContext.cellConditions x y = .ok conditions ∧
      List.Forall₂ (fun e b => e.eval (mouseAt 1.0 0.5) = .ok (.bool b)) conditions truths ∧
      truths.count true = 0 := by
  have hp : (0.0 : Float) ≤ 1.0 ∧ (1.0 : Float) ≤ 1.0 := by decide +kernel
  have hq : (0.0 : Float) ≤ 0.5 ∧ (0.5 : Float) ≤ 1.0 := by decide +kernel
  obtain ⟨x, y, hx, hy, hp', hq'⟩ := mouseAt_coordinates hp hq
  obtain ⟨conditions, hconditions, htruths⟩ := cellConditions_takes (c := gridContext) hp' hq'
  refine ⟨by decide, mouseAt_allows hp hq, x, y, conditions, _, hx, hy, hconditions, htruths, ?_⟩
  decide +kernel

end Context

end PlayerPaths
