import PlayerPaths.Proofs.Formula.Evaluation
import PlayerPaths.Proofs.Solve.Candidates
import PlayerPaths.Solve.Search

/-!
# Plans for cubes

The plan for a cube distributes its literals: a literal about one leaf and constants is decided
with that leaf (`AboutLeaf`), unless another literal mentions the leaf, and all other literals are
searched for. No literal is lost and no leaf is decided twice (`ofCube_spec`).
-/

namespace PlayerPaths

open Std Formula

/-! ## Literals about one leaf -/

/-- A leaf on one side and a constant on the other. -/
def ComparedWith (leaf a b : Formula) : Prop :=
  (a = leaf ∧ b.isConstant = true) ∨ (b = leaf ∧ a.isConstant = true)

/-- A literal that is about one leaf and constants. -/
inductive AboutLeaf (leaf : Formula) : Formula → Prop
  | truth : AboutLeaf leaf leaf
  | falsity : AboutLeaf leaf (.not leaf)
  | eq {a b : Formula} : ComparedWith leaf a b → AboutLeaf leaf (.eq a b)
  | ne {a b : Formula} : ComparedWith leaf a b → AboutLeaf leaf (.not (.eq a b))
  | compareBits {c : BitComparison} {a b : Formula} : ComparedWith leaf a b →
      AboutLeaf leaf (.binary (.compareBits c) a b)
  | compareArith {c : ArithComparison} {a b : Formula} : ComparedWith leaf a b →
      AboutLeaf leaf (.binary (.compareArith c) a b)

theorem comparedLeaf?_eq_some {a b leaf : Formula} (h : comparedLeaf? a b = some leaf) :
    leaf.isLeaf = true ∧ ComparedWith leaf a b := by
  unfold comparedLeaf? at h
  split at h
  · next hab =>
    rw [Bool.and_eq_true] at hab
    obtain rfl := Option.some.inj h
    exact ⟨hab.1, .inl ⟨rfl, hab.2⟩⟩
  · split at h
    · next hba =>
      rw [Bool.and_eq_true] at hba
      obtain rfl := Option.some.inj h
      exact ⟨hba.1, .inr ⟨rfl, hba.2⟩⟩
    · simp at h

/-- What is decided on its own is a leaf that is no record, in a literal about it. -/
theorem simpleLeaf?_eq_some {literal leaf : Formula} (h : simpleLeaf? literal = .ok (some leaf)) :
    leaf.isLeaf = true ∧ AboutLeaf leaf literal ∧
      ∃ t, leaf.sort = .ok t ∧ ∀ r : Record, t ≠ r.sort := by
  simp only [simpleLeaf?] at h
  split at h
  · simp at h
  · next found hfound =>
    obtain ⟨t, ht, h⟩ := bind_eq_ok.mp h
    obtain ⟨rfl, hrecord⟩ : found = leaf ∧ ∀ r : Record, t ≠ r.sort := by
      split at h
      · simp at h
      · next hne => exact ⟨by simpa using h, fun r heq => hne _ _ heq⟩
    have key : found.isLeaf = true ∧ AboutLeaf found literal := by
      split at hfound
      · have := comparedLeaf?_eq_some hfound
        exact ⟨this.1, .ne this.2⟩
      · split at hfound
        · next hleaf =>
          obtain rfl := Option.some.inj hfound
          exact ⟨hleaf, .falsity⟩
        · simp at hfound
      · have := comparedLeaf?_eq_some hfound
        exact ⟨this.1, .eq this.2⟩
      · have := comparedLeaf?_eq_some hfound
        exact ⟨this.1, .compareBits this.2⟩
      · have := comparedLeaf?_eq_some hfound
        exact ⟨this.1, .compareArith this.2⟩
      · split at hfound
        · next hleaf =>
          obtain rfl := Option.some.inj hfound
          exact ⟨hleaf, .truth⟩
        · simp at hfound
    exact ⟨key.1, key.2, t, ht, hrecord⟩

theorem ComparedWith.eval_congr {leaf a b : Formula} {σ τ : Assignment}
    (h : ComparedWith leaf a b) (hleaf : leaf.eval σ = leaf.eval τ) :
    a.eval σ = a.eval τ ∧ b.eval σ = b.eval τ := by
  rcases h with ⟨rfl, hc⟩ | ⟨rfl, hc⟩
  · exact ⟨hleaf, by rw [eval_constant hc, eval_constant hc]⟩
  · exact ⟨by rw [eval_constant hc, eval_constant hc], hleaf⟩

/-- The value of a literal about a leaf depends on the value of the leaf only. -/
theorem AboutLeaf.eval_congr {leaf literal : Formula} {σ τ : Assignment}
    (h : AboutLeaf leaf literal) (hleaf : leaf.eval σ = leaf.eval τ) :
    literal.eval σ = literal.eval τ := by
  cases h with
  | truth => exact hleaf
  | falsity => simp [eval, hleaf]
  | eq h | compareBits h | compareArith h =>
      obtain ⟨ha, hb⟩ := h.eval_congr hleaf
      simp [eval, ha, hb]
  | ne h =>
      obtain ⟨ha, hb⟩ := h.eval_congr hleaf
      simp [eval, ha, hb]

theorem leaves_of_isLeaf {leaf : Formula} (h : leaf.isLeaf = true) : leaf.leaves = [leaf] := by
  cases leaf with
  | var name s => rfl
  | unary f a => rw [leaves, if_pos h]
  | _ => simp [isLeaf] at h

/-- A literal about a leaf mentions the leaf. -/
theorem AboutLeaf.mem_leaves {leaf literal : Formula} (h : AboutLeaf leaf literal)
    (hleaf : leaf.isLeaf = true) : leaf ∈ literal.leaves := by
  have hself : leaf ∈ leaf.leaves := by simp [leaves_of_isLeaf hleaf]
  have hcompared : ∀ {a b}, ComparedWith leaf a b → leaf ∈ a.leaves ++ b.leaves := by
    rintro a b (⟨rfl, -⟩ | ⟨rfl, -⟩)
    · exact List.mem_append_left _ hself
    · exact List.mem_append_right _ hself
  cases h with
  | truth => exact hself
  | falsity => simpa [leaves, isLeaf] using hself
  | eq h | compareBits h | compareArith h => simpa [leaves] using hcompared h
  | ne h => simpa [leaves, isLeaf] using hcompared h

/-! ## Grouping by leaf -/

/-- Literals by leaf: in the order of the leaves, and each literal is about its leaf. -/
structure Grouped (groups : List (Formula × List Formula)) : Prop where
  sorted : groups.Pairwise fun a b => a.1.order b.1 = .lt
  about : ∀ g ∈ groups, ∀ l ∈ g.2, simpleLeaf? l = .ok (some g.1)
  nonempty : ∀ g ∈ groups, g.2 ≠ []

theorem mem_addLiteral {leaf literal : Formula} {groups : List (Formula × List Formula)}
    {g : Formula × List Formula} (h : g ∈ addLiteral leaf literal groups) :
    g ∈ groups ∨ (g.1 = leaf ∧ literal ∈ g.2 ∧
      ∀ l ∈ g.2, l = literal ∨ ∃ g' ∈ groups, g'.1 = leaf ∧ l ∈ g'.2) := by
  induction groups with
  | nil =>
      obtain rfl := List.mem_singleton.mp h
      exact .inr ⟨rfl, by simp⟩
  | cons other groups ih =>
      obtain ⟨key, literals⟩ := other
      unfold addLiteral at h
      split at h
      · rcases List.mem_cons.mp h with rfl | h
        · exact .inr ⟨rfl, by simp⟩
        · exact .inl h
      · next heq =>
        obtain rfl := eq_of_order_eq _ _ heq
        rcases List.mem_cons.mp h with rfl | h
        · refine .inr ⟨rfl, by simp, fun l hl => ?_⟩
          rcases List.mem_append.mp hl with hl | hl
          · exact .inr ⟨_, List.mem_cons_self, rfl, hl⟩
          · exact .inl (by simpa using hl)
        · exact .inl (List.mem_cons_of_mem _ h)
      · rcases List.mem_cons.mp h with rfl | h
        · exact .inl List.mem_cons_self
        · rcases ih h with h | ⟨hkey, hliteral, hall⟩
          · exact .inl (List.mem_cons_of_mem _ h)
          · refine .inr ⟨hkey, hliteral, fun l hl => (hall l hl).imp_right ?_⟩
            rintro ⟨g', hg', hl⟩
            exact ⟨g', List.mem_cons_of_mem _ hg', hl⟩

/-- Some group has the literal. -/
def Holding (groups : List (Formula × List Formula)) (l : Formula) : Prop :=
  ∃ g ∈ groups, l ∈ g.2

theorem holding_addLiteral {leaf literal l : Formula} {groups : List (Formula × List Formula)} :
    Holding (addLiteral leaf literal groups) l ↔ l = literal ∨ Holding groups l := by
  induction groups with
  | nil => simp [Holding, addLiteral]
  | cons other groups ih =>
      obtain ⟨key, literals⟩ := other
      simp only [Holding, List.mem_cons, exists_eq_or_imp] at ih ⊢
      unfold addLiteral
      split
      · simp
      · simp only [List.mem_cons, exists_eq_or_imp, List.mem_append, List.not_mem_nil, or_false]
        rw [or_assoc, or_left_comm]
      · simp only [List.mem_cons, exists_eq_or_imp, ih]
        rw [or_left_comm]

theorem addLiteral_sorted {leaf literal : Formula} {groups : List (Formula × List Formula)}
    (h : groups.Pairwise fun a b => a.1.order b.1 = .lt) :
    (addLiteral leaf literal groups).Pairwise fun a b => a.1.order b.1 = .lt := by
  induction groups with
  | nil => exact List.pairwise_singleton _ _
  | cons other groups ih =>
      obtain ⟨key, literals⟩ := other
      obtain ⟨hkey, hrest⟩ := List.pairwise_cons.mp h
      unfold addLiteral
      split
      · next hlt =>
        refine List.pairwise_cons.mpr ⟨fun g hg => ?_, h⟩
        rcases List.mem_cons.mp hg with rfl | hg
        · exact hlt
        · exact TransCmp.lt_trans hlt (hkey g hg)
      · exact List.pairwise_cons.mpr ⟨hkey, hrest⟩
      · next hgt =>
        refine List.pairwise_cons.mpr ⟨fun g hg => ?_, ih hrest⟩
        rcases mem_addLiteral hg with hg | ⟨hg, -⟩
        · exact hkey g hg
        · rw [hg]
          exact OrientedCmp.lt_of_gt hgt

theorem addLiteral_grouped {leaf literal : Formula} {groups : List (Formula × List Formula)}
    (h : Grouped groups) (hl : simpleLeaf? literal = .ok (some leaf)) :
    Grouped (addLiteral leaf literal groups) where
  sorted := addLiteral_sorted h.sorted
  about g hg l hmem := by
    rcases mem_addLiteral hg with hg | ⟨hkey, -, hall⟩
    · exact h.about g hg l hmem
    · rcases hall l hmem with rfl | ⟨g', hg', hkey', hl'⟩
      · rw [hl, hkey]
      · rw [h.about g' hg' l hl', hkey', hkey]
  nonempty g hg := by
    rcases mem_addLiteral hg with hg | ⟨-, hmem, -⟩
    · exact h.nonempty g hg
    · exact List.ne_nil_of_mem hmem

/-! ## The plan -/

/-- One step of the distribution of literals. -/
def distribute (state : List (Formula × List Formula) × List Formula) (literal : Formula) :
    Result (List (Formula × List Formula) × List Formula) := do
  match ← simpleLeaf? literal with
  | some leaf => return (addLiteral leaf literal state.1, state.2)
  | none => return (state.1, state.2 ++ [literal])

theorem foldlM_distribute {cube : List Formula} {start finish}
    (h : cube.foldlM distribute start = .ok finish) (hstart : Grouped start.1) :
    Grouped finish.1 ∧ ∀ l, (l ∈ finish.2 ∨ Holding finish.1 l) ↔
      (l ∈ start.2 ∨ Holding start.1 l) ∨ l ∈ cube := by
  induction cube generalizing start with
  | nil =>
      obtain rfl : start = finish := by simpa using h
      exact ⟨hstart, by simp⟩
  | cons literal cube ih =>
      simp only [List.foldlM_cons, bind_eq_ok] at h
      obtain ⟨next, hnext, h⟩ := h
      simp only [distribute, bind_eq_ok] at hnext
      obtain ⟨found, hfound, hnext⟩ := hnext
      cases found with
      | some leaf =>
          obtain rfl := pure_eq_ok.mp hnext
          obtain ⟨hgrouped, hcontent⟩ := ih h (addLiteral_grouped hstart hfound)
          refine ⟨hgrouped, fun l => ?_⟩
          rw [hcontent, holding_addLiteral, List.mem_cons]
          grind
      | none =>
          obtain rfl := pure_eq_ok.mp hnext
          obtain ⟨hgrouped, hcontent⟩ := ih h hstart
          refine ⟨hgrouped, fun l => ?_⟩
          rw [hcontent, List.mem_append, List.mem_singleton, List.mem_cons]
          grind

/-- What the plan for a cube is. -/
structure CubePlan.For (plan : CubePlan) (cube : List Formula) : Prop where
  /-- Every literal is decided with its leaf, or searched for. -/
  complete : ∀ l ∈ cube, Holding plan.exact l ∨ l ∈ plan.searched
  about : ∀ g ∈ plan.exact, ∀ l ∈ g.2, l ∈ cube ∧ simpleLeaf? l = .ok (some g.1)
  nonempty : ∀ g ∈ plan.exact, g.2 ≠ []
  /-- No leaf is decided twice. -/
  nodup : (plan.exact.map Prod.fst).Nodup
  apart : ∀ g ∈ plan.exact, g.1 ∉ plan.open
  searched : ∀ l ∈ plan.searched, l ∈ cube
  «open» : ∀ leaf ∈ plan.open, ∃ l ∈ cube, leaf ∈ l.leaves

/-- **The plan for a cube distributes its literals.** -/
theorem ofCube_spec {cube : List Formula} {plan : CubePlan} (h : CubePlan.ofCube cube = .ok plan) :
    plan.For cube := by
  unfold CubePlan.ofCube at h
  obtain ⟨⟨simple, rest⟩, hfold, h⟩ := bind_eq_ok.mp h
  obtain rfl := pure_eq_ok.mp h
  change cube.foldlM distribute ([], []) = _ at hfold
  obtain ⟨hgrouped, hcontent⟩ := foldlM_distribute hfold ⟨.nil, by simp, by simp⟩
  have hcontent : ∀ l, (l ∈ rest ∨ Holding simple l) ↔ l ∈ cube := by
    intro l
    rw [hcontent]
    simp [Holding]
  have hcube : ∀ g ∈ simple, ∀ l ∈ g.2, l ∈ cube := fun g hg l hl =>
    (hcontent l).mp (.inr ⟨g, hg, hl⟩)
  constructor
  · intro l hl
    rcases (hcontent l).mpr hl with hl | ⟨g, hg, hl⟩
    · exact .inr (List.mem_append_right _ hl)
    · by_cases hopen : g.1 ∈ setOf (leavesAll rest)
      · refine .inr (List.mem_append_left _ (List.mem_flatMap.mpr ⟨g, ?_, hl⟩))
        simpa [hopen] using hg
      · exact .inl ⟨g, by simpa [hopen] using hg, hl⟩
  · intro g hg l hl
    have hg := List.mem_of_mem_filter hg
    exact ⟨hcube g hg l hl, hgrouped.about g hg l hl⟩
  · exact fun g hg => hgrouped.nonempty g (List.mem_of_mem_filter hg)
  · have hlt : simple.Pairwise fun a b => a.1 ≠ b.1 :=
      hgrouped.sorted.imp fun hlt heq => by simp [heq, ReflCmp.compare_self] at hlt
    exact (List.pairwise_map.mpr hlt).sublist ((List.filter_sublist).map _)
  · intro g hg
    simpa using (List.mem_filter.mp hg).2
  · intro l hl
    rcases List.mem_append.mp hl with hl | hl
    · obtain ⟨g, hg, hl⟩ := List.mem_flatMap.mp hl
      exact hcube g (List.mem_of_mem_filter hg) l hl
    · exact (hcontent l).mp (.inl hl)
  · intro leaf hleaf
    rw [mem_setOf, leavesAll_eq] at hleaf
    obtain ⟨l, hl, hleaf⟩ := List.mem_flatMap.mp hleaf
    exact ⟨l, (hcontent l).mp (.inl hl), hleaf⟩

/-! ## Decided leaves and found models -/

theorem value?_eq_some {α : Type} {x : Evaluation α} {a : α} :
    x.value? = .ok (some a) ↔ x = .ok a := by
  cases x with
  | ok b => simp [Evaluation.value?]
  | error e => cases e <;> simp [Evaluation.value?]

theorem allHold_eq_true {literals : List Formula} {m : Model} :
    allHold literals m = .ok true ↔ ∀ l ∈ literals, m.eval l = .ok (.bool true) := by
  induction literals with
  | nil => simp [allHold]
  | cons l literals ih =>
      rw [allHold, List.forall_mem_cons, ← ih, bind_eq_ok]
      constructor
      · rintro ⟨found, hfound, h⟩
        split at h
        · exact ⟨value?_eq_some.mp hfound, h⟩
        · simp at h
        · simp at h
      · rintro ⟨hl, h⟩
        exact ⟨some (.bool true), value?_eq_some.mpr hl, h⟩

/-- Each leaf that is decided has a value that its literals hold for. -/
theorem decideLeaves?_eq_some {vars : List (String × SmtSort)}
    {groups : List (Formula × List Formula)} {fixed : LeafValues}
    (h : decideLeaves? vars groups = .ok (some fixed)) :
    List.Forall₂ (fun g entry => entry.1 = g.1 ∧ decideLeaf? vars g.1 g.2 = .ok (some entry.2))
      groups fixed := by
  induction groups generalizing fixed with
  | nil =>
      obtain rfl : [] = fixed := by simpa [decideLeaves?] using h
      exact .nil
  | cons g groups ih =>
      obtain ⟨leaf, literals⟩ := g
      simp only [decideLeaves?, bind_eq_ok] at h
      obtain ⟨value, hvalue, h⟩ := h
      cases value with
      | none => simp at h
      | some value =>
          simp only [bind_eq_ok] at h
          obtain ⟨rest, hrest, h⟩ := h
          cases rest with
          | none => simp at h
          | some rest =>
              obtain rfl : (leaf, value) :: rest = fixed := by simpa using h
              exact .cons ⟨rfl, hvalue⟩ (ih hrest)

/-- The leaves that are decided are those of the groups. -/
theorem decideLeaves?_leaves {vars : List (String × SmtSort)}
    {groups : List (Formula × List Formula)} {fixed : LeafValues}
    (h : decideLeaves? vars groups = .ok (some fixed)) :
    fixed.map Prod.fst = groups.map Prod.fst := by
  rw [← List.forall₂_eq_eq_eq, List.forall₂_map_left_iff, List.forall₂_map_right_iff]
  exact (decideLeaves?_eq_some h).flip.imp fun _ _ hentry => hentry.1

/-- If no values are found, one leaf has none. -/
theorem decideLeaves?_eq_none {vars : List (String × SmtSort)}
    {groups : List (Formula × List Formula)} (h : decideLeaves? vars groups = .ok none) :
    ∃ g ∈ groups, decideLeaf? vars g.1 g.2 = .ok none := by
  induction groups with
  | nil => simp [decideLeaves?] at h
  | cons g groups ih =>
      obtain ⟨leaf, literals⟩ := g
      simp only [decideLeaves?, bind_eq_ok] at h
      obtain ⟨value, hvalue, h⟩ := h
      cases value with
      | none => exact ⟨_, List.mem_cons_self, hvalue⟩
      | some value =>
          simp only [bind_eq_ok] at h
          obtain ⟨rest, hrest, h⟩ := h
          cases rest with
          | none =>
              obtain ⟨g, hg, hnone⟩ := ih hrest
              exact ⟨g, List.mem_cons_of_mem _ hg, hnone⟩
          | some rest => simp at h

theorem decideLeaf?_eq_ok {vars : List (String × SmtSort)} {leaf : Formula}
    {literals : List Formula} {found : Option Formula}
    (h : decideLeaf? vars leaf literals = .ok found) :
    ∃ t values, leaf.sort = .ok t ∧
      candidates t (setOf (constantsAll literals)) = .ok values ∧
      values.findM? (fun value => allHold literals (compose vars [(leaf, value)])) = .ok found := by
  simp only [decideLeaf?, bind_eq_ok] at h
  obtain ⟨t, ht, values, hvalues, h⟩ := h
  exact ⟨t, values, ht, hvalues, h⟩

/-- What is chosen at some positions is among the candidates. -/
theorem mem_options_of_chosen {options : List (Formula × List Formula)} {positions : List Nat}
    {entry : Formula × Formula}
    (h : entry ∈ (options.zip positions).filterMap fun option =>
      option.1.2[option.2]?.map fun value => (option.1.1, value)) :
    ∃ values, (entry.1, values) ∈ options ∧ entry.2 ∈ values := by
  obtain ⟨⟨⟨leaf, values⟩, i⟩, hzip, hentry⟩ := List.mem_filterMap.mp h
  obtain ⟨value, hvalue, rfl⟩ := Option.map_eq_some_iff.mp hentry
  exact ⟨values, (List.of_mem_zip hzip).1, List.mem_of_getElem? hvalue⟩

/-- A model that a search finds makes the literals true, and is composed of candidates. -/
theorem search_eq_sat {vars : List (String × SmtSort)} {fixed : LeafValues}
    {options : List (Formula × List Formula)} {searched : List Formula} {attempts : Nat}
    {positions : List Nat} {m : Model}
    (h : search vars fixed options searched attempts positions = .ok (.sat m)) :
    ∃ chosen : LeafValues, m = compose vars (sortLeafValues (fixed ++ chosen)) ∧
      (∀ entry ∈ chosen, ∃ values, (entry.1, values) ∈ options ∧ entry.2 ∈ values) ∧
      ∀ l ∈ searched, m.eval l = .ok (.bool true) := by
  induction attempts generalizing positions with
  | zero => simp [search] at h
  | succ attempts ih =>
      simp only [search, bind_eq_ok] at h
      obtain ⟨hold, hhold, h⟩ := h
      cases hold with
      | true =>
          obtain rfl : compose vars _ = m := by simpa using h
          exact ⟨_, rfl, fun entry hentry => mem_options_of_chosen hentry,
            allHold_eq_true.mp hhold⟩
      | false =>
          simp only [Bool.false_eq_true, ↓reduceIte] at h
          split at h
          · exact ih h
          · simp at h

theorem search_ne_unsat {vars : List (String × SmtSort)} {fixed : LeafValues}
    {options : List (Formula × List Formula)} {searched : List Formula} {attempts : Nat}
    {positions : List Nat} :
    search vars fixed options searched attempts positions ≠ .ok .unsat := by
  induction attempts generalizing positions with
  | zero => simp [search]
  | succ attempts ih =>
      intro h
      simp only [search, bind_eq_ok] at h
      obtain ⟨hold, hhold, h⟩ := h
      cases hold with
      | true => simp at h
      | false =>
          simp only [Bool.false_eq_true, ↓reduceIte] at h
          split at h
          · exact ih h
          · simp at h

end PlayerPaths
