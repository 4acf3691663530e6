import Mathlib.Data.List.Perm.Subperm
import PlayerPaths.Flow.Dominators
import PlayerPaths.Proofs.Collections

/-!
# The equations of the dominators are solved

While the equations are solved one after another, every set stays above the right-hand side of its
equation, because smaller sets make the right-hand sides smaller (`Descending`). So every step
either changes nothing or takes elements away, the fuel outlasts the elements, and what comes out
solves all equations. It is the greatest solution: nothing is ever taken away that belongs to one
(`Solves.greatest`).
-/

namespace PlayerPaths.DominatorSets

open Std

variable {predecessors : List (List Nat)} {dom dom' : DominatorSets} {i j x : Nat}

/-! ## Right-hand sides -/

theorem mem_foldl_common {sets : List (List Nat)} {set : List Nat} :
    x ∈ sets.foldl (fun common set => common.filter (· ∈ set)) set ↔
      x ∈ set ∧ ∀ s ∈ sets, x ∈ s := by
  induction sets generalizing set with
  | nil => simp
  | cons s sets ih =>
      rw [List.foldl_cons, ih, List.mem_filter, List.forall_mem_cons, decide_eq_true_eq, and_assoc]

theorem mem_intersection {sets : List (List Nat)} :
    x ∈ intersection sets ↔ sets ≠ [] ∧ ∀ s ∈ sets, x ∈ s := by
  cases sets with
  | nil => simp [intersection]
  | cons set sets =>
      rw [intersection, mem_foldl_common, List.forall_mem_cons]
      simp

theorem foldl_common_sublist (sets : List (List Nat)) (set : List Nat) :
    (sets.foldl (fun common set => common.filter (· ∈ set)) set).Sublist set := by
  induction sets generalizing set with
  | nil => exact List.Sublist.refl _
  | cons s sets ih =>
      rw [List.foldl_cons]
      exact (ih _).trans List.filter_sublist

theorem intersection_increasing {sets : List (List Nat)}
    (h : ∀ s ∈ sets, Sorted.Increasing compare s) :
    Sorted.Increasing compare (intersection sets) := by
  cases sets with
  | nil => exact List.Pairwise.nil
  | cons set sets => exact (h set List.mem_cons_self).sublist (foldl_common_sublist sets set)

theorem mem_equation : x ∈ equation predecessors dom i ↔
    x = i ∨ predecessors.getD i [] ≠ [] ∧ ∀ p ∈ predecessors.getD i [], x ∈ dom.setAt p := by
  rw [equation, Sorted.mem_insert, mem_intersection, List.forall_mem_map, ne_eq,
    List.map_eq_nil_iff]

theorem equation_increasing (h : ∀ i, Sorted.Increasing compare (dom.setAt i)) :
    Sorted.Increasing compare (equation predecessors dom i) := by
  apply Sorted.Increasing.insert
  apply intersection_increasing
  intro s hs
  obtain ⟨p, -, rfl⟩ := List.mem_map.mp hs
  exact h p

/-- Smaller sets make a right-hand side smaller. -/
theorem equation_mono (h : ∀ i, ∀ x ∈ dom'.setAt i, x ∈ dom.setAt i) :
    ∀ x ∈ equation predecessors dom' i, x ∈ equation predecessors dom i := by
  intro x hx
  rw [mem_equation] at hx ⊢
  rcases hx with hx | ⟨hne, hx⟩
  · exact .inl hx
  · exact .inr ⟨hne, fun p hp => h p x (hx p hp)⟩

/-! ## One step -/

/-- What holds while the equations are being solved: no set is below its right-hand side. -/
structure Descending (predecessors : List (List Nat)) (dom : DominatorSets) : Prop where
  length : dom.length = predecessors.length
  increasing : ∀ i, Sorted.Increasing compare (dom.setAt i)
  shrinks : ∀ i, 0 < i → i < dom.length → ∀ x ∈ equation predecessors dom i, x ∈ dom.setAt i

theorem length_solveAt : (solveAt predecessors dom i).length = dom.length := List.length_set

theorem setAt_solveAt (hi : i < dom.length) : (solveAt predecessors dom i).setAt j =
    if i = j then equation predecessors dom i else dom.setAt j := by
  unfold solveAt setAt
  rw [List.getD_eq_getElem?_getD, List.getElem?_set, if_pos hi, List.getD_eq_getElem?_getD]
  split <;> rfl

theorem Descending.solveAt (h : Descending predecessors dom) (hpos : 0 < i) (hi : i < dom.length) :
    Descending predecessors (dom.solveAt predecessors i) := by
  have hbelow : ∀ j, ∀ x ∈ (DominatorSets.solveAt predecessors dom i).setAt j, x ∈ dom.setAt j := by
    intro j x hx
    rw [setAt_solveAt hi] at hx
    split at hx
    · next heq => exact heq ▸ h.shrinks i hpos hi x hx
    · exact hx
  refine ⟨length_solveAt.trans h.length, ?_, ?_⟩
  · intro j
    rw [setAt_solveAt hi]
    split
    · exact equation_increasing h.increasing
    · exact h.increasing j
  · intro j hjpos hj x hx
    rw [length_solveAt] at hj
    have hx := equation_mono hbelow x hx
    rw [setAt_solveAt hi]
    split
    · next heq => exact heq ▸ hx
    · exact h.shrinks j hjpos hj x hx

def size : DominatorSets → Nat
  | [] => 0
  | set :: dom => set.length + size dom

theorem size_set (hi : i < dom.length) (s : List Nat) :
    size (dom.set i s) + (dom.setAt i).length = size dom + s.length := by
  induction dom generalizing i with
  | nil => exact absurd hi (Nat.not_lt_zero _)
  | cons set dom ih =>
      cases i with
      | zero =>
          simp only [size, setAt, List.set_cons_zero, List.getD_cons_zero]
          omega
      | succ i =>
          have hrest := ih (Nat.lt_of_succ_lt_succ hi)
          simp only [size, setAt, List.set_cons_succ, List.getD_cons_succ] at hrest ⊢
          omega

/-- Solving an equation takes elements away, unless it is solved already. -/
theorem Descending.size_solveAt (h : Descending predecessors dom) (hpos : 0 < i)
    (hi : i < dom.length) : size (dom.solveAt predecessors i) < size dom ∨
      equation predecessors dom i = dom.setAt i ∧ dom.solveAt predecessors i = dom := by
  have hsize := size_set hi (equation predecessors dom i)
  have hincreasing : Sorted.Increasing compare (equation predecessors dom i) :=
    equation_increasing h.increasing
  have hsub := List.subperm_of_subset hincreasing.nodup (h.shrinks i hpos hi)
  -- The new set is part of the old one, so with as many elements it is the old one.
  rcases Nat.lt_or_ge (equation predecessors dom i).length (dom.setAt i).length with hlt | hge
  · left
    show size (dom.set i (equation predecessors dom i)) < size dom
    omega
  · right
    have heq : equation predecessors dom i = dom.setAt i := by
      refine (hsub.perm_of_length_le hge).eq_of_pairwise ?_ hincreasing (h.increasing i)
      intro a b _ _ hab hba
      exact absurd (OrientedCmp.gt_of_lt hab) (by rw [hba]; decide)
    refine ⟨heq, ?_⟩
    unfold DominatorSets.solveAt
    rw [heq, setAt, List.getD_eq_getElem?_getD, List.getElem?_eq_getElem hi, Option.getD_some,
      List.set_getElem_self]

/-! ## Sweeps -/

/-- A run through some places takes elements away, unless all their equations are solved already. -/
theorem Descending.run (h : Descending predecessors dom) (places : List Nat)
    (hplaces : ∀ i ∈ places, 0 < i ∧ i < dom.length) :
    Descending predecessors (places.foldl (DominatorSets.solveAt predecessors) dom) ∧
      (size (places.foldl (DominatorSets.solveAt predecessors) dom) < size dom ∨
        places.foldl (DominatorSets.solveAt predecessors) dom = dom ∧
          ∀ i ∈ places, equation predecessors dom i = dom.setAt i) := by
  induction places generalizing dom with
  | nil => exact ⟨h, .inr ⟨rfl, by simp⟩⟩
  | cons i places ih =>
      obtain ⟨⟨hpos, hi⟩, hothers⟩ := List.forall_mem_cons.mp hplaces
      have hnext := h.solveAt hpos hi
      obtain ⟨hdescending, hrun⟩ := ih hnext (by rwa [length_solveAt])
      rw [List.foldl_cons]
      refine ⟨hdescending, ?_⟩
      rcases h.size_solveAt hpos hi with hlt | ⟨hsolved, hsame⟩
      · -- Nothing that comes later gives the elements back.
        rcases hrun with hlater | ⟨hlater, -⟩
        · exact .inl (Nat.lt_trans hlater hlt)
        · rw [hlater]
          exact .inl hlt
      · rw [hsame] at hrun ⊢
        rcases hrun with hlater | ⟨hlater, hall⟩
        · exact .inl hlater
        · exact .inr ⟨hlater, List.forall_mem_cons.mpr ⟨hsolved, hall⟩⟩

theorem mem_places {count : Nat} : i ∈ List.range' 1 (count - 1) ↔ 0 < i ∧ i < count := by
  rw [List.mem_range'_1]
  omega

def Solved (predecessors : List (List Nat)) (dom : DominatorSets) : Prop :=
  ∀ i, 0 < i → i < dom.length → equation predecessors dom i = dom.setAt i

theorem settle_solved {fuel : Nat} (h : Descending predecessors dom) (hfuel : size dom < fuel) :
    Descending predecessors (settle predecessors fuel dom) ∧
      Solved predecessors (settle predecessors fuel dom) := by
  induction fuel generalizing dom with
  | zero => exact absurd hfuel (Nat.not_lt_zero _)
  | succ fuel ih =>
      obtain ⟨hswept, hsize⟩ := h.run (List.range' 1 (dom.length - 1)) fun i hi => mem_places.mp hi
      unfold settle
      dsimp only
      split
      · next hsame =>
        refine ⟨h, fun i hpos hi => ?_⟩
        rcases hsize with hlt | ⟨-, hall⟩
        · rw [show List.foldl _ dom _ = dom from hsame] at hlt
          exact absurd hlt (Nat.lt_irrefl _)
        · exact hall i (mem_places.mpr ⟨hpos, hi⟩)
      · next hchanged =>
        -- A sweep that changes something takes elements away, which pays for the fuel.
        refine ih hswept ?_
        rcases hsize with hlt | ⟨hsame, -⟩
        · exact Nat.lt_of_lt_of_le hlt (Nat.le_of_lt_succ hfuel)
        · exact absurd hsame hchanged

/-- What solving an equation preserves, all sweeps preserve. -/
theorem settle_induction {P : DominatorSets → Prop} {fuel : Nat}
    (step : ∀ dom i, 0 < i → i < dom.length → P dom → P (dom.solveAt predecessors i))
    (start : P dom) : P (settle predecessors fuel dom) := by
  have hrun : ∀ (places : List Nat) (dom : DominatorSets),
      (∀ i ∈ places, 0 < i ∧ i < dom.length) → P dom →
        P (places.foldl (DominatorSets.solveAt predecessors) dom) := by
    intro places
    induction places with
    | nil => exact fun dom _ h => h
    | cons i places ih =>
        intro dom hplaces h
        obtain ⟨⟨hpos, hi⟩, hothers⟩ := List.forall_mem_cons.mp hplaces
        exact ih _ (by rwa [length_solveAt]) (step dom i hpos hi h)
  induction fuel generalizing dom with
  | zero => exact start
  | succ fuel ih =>
      unfold settle
      dsimp only
      split
      · exact start
      · exact ih (hrun _ dom (fun i hi => mem_places.mp hi) start)

/-! ## The solution -/

theorem setAt_start {count : Nat} : (start count).setAt i =
    if i < count then if i = 0 then [0] else List.range count else [] := by
  unfold start setAt
  by_cases hi : i < count
  · simp [hi]
  · simp [hi]

theorem length_start {count : Nat} : (start count).length = count := by
  simp [start]

theorem range_increasing (count : Nat) : Sorted.Increasing compare (List.range count) :=
  List.pairwise_lt_range.imp fun h => Nat.compare_eq_lt.mpr h

theorem descending_start : Descending predecessors (start predecessors.length) := by
  have hbound : ∀ i, ∀ x ∈ (start predecessors.length).setAt i, x < predecessors.length := by
    intro i x hx
    rw [setAt_start] at hx
    split at hx
    · split at hx
      · rw [List.mem_singleton] at hx
        omega
      · exact List.mem_range.mp hx
    · exact absurd hx List.not_mem_nil
  refine ⟨length_start, ?_, ?_⟩
  · intro i
    rw [setAt_start]
    split
    · split
      · exact List.pairwise_singleton _ _
      · exact range_increasing _
    · exact List.Pairwise.nil
  · intro i hpos hi x hx
    rw [length_start] at hi
    rw [setAt_start, if_pos hi, if_neg (Nat.ne_of_gt hpos), List.mem_range]
    rcases mem_equation.mp hx with rfl | ⟨hne, hx⟩
    · exact hi
    · obtain ⟨p, hp⟩ := List.exists_mem_of_ne_nil _ hne
      exact hbound p x (hx p hp)

theorem size_le {bound : Nat} (h : ∀ set ∈ dom, set.length ≤ bound) :
    size dom ≤ dom.length * bound := by
  induction dom with
  | nil => exact Nat.zero_le _
  | cons set dom ih =>
      obtain ⟨hset, hdom⟩ := List.forall_mem_cons.mp h
      have hrest := ih hdom
      rw [size, List.length_cons, Nat.add_mul]
      omega

theorem size_start_le (count : Nat) : size (start count) ≤ count * count := by
  have hle : ∀ set ∈ start count, set.length ≤ count := by
    intro set hset
    obtain ⟨i, hi, rfl⟩ := List.mem_map.mp hset
    have hi := List.mem_range.mp hi
    split
    · rw [List.length_singleton]
      omega
    · exact Nat.le_of_eq List.length_range
  have hsize := size_le hle
  rwa [length_start] at hsize

/-- The sets are the greatest solution of the equations of the dominators. -/
structure Solves (predecessors : List (List Nat)) (dom : DominatorSets) : Prop
    extends Descending predecessors dom where
  head : 0 < predecessors.length → dom.setAt 0 = [0]
  solved : Solved predecessors dom
  greatest : ∀ D : Nat → Nat → Prop,
    (∀ x i, D x i → x < predecessors.length ∧ i < predecessors.length) →
    (∀ x, D x 0 → x = 0) →
    (∀ x i, 0 < i → D x i →
      x = i ∨ predecessors.getD i [] ≠ [] ∧ ∀ p ∈ predecessors.getD i [], D x p) →
    ∀ x i, D x i → x ∈ dom.setAt i

/-- **The dominators are the greatest solution of their equations.** -/
theorem ofPredecessors_solves (predecessors : List (List Nat)) :
    Solves predecessors (ofPredecessors predecessors) := by
  have hfuel : size (start predecessors.length) < predecessors.length * predecessors.length + 1 :=
    Nat.lt_succ_of_le (size_start_le _)
  obtain ⟨hdescending, hsolved⟩ := settle_solved descending_start hfuel
  refine ⟨hdescending, ?_, hsolved, ?_⟩
  · intro hpos
    refine settle_induction (P := fun dom => dom.setAt 0 = [0]) ?_ ?_
    · intro dom i hipos hi hhead
      rw [setAt_solveAt hi, if_neg (Nat.ne_of_gt hipos), hhead]
    · rw [setAt_start, if_pos hpos, if_pos rfl]
  · intro D hbound hhead hstep
    -- A solution is within the sets at the start, and solving an equation does not lose it.
    refine settle_induction (P := fun dom => ∀ x i, D x i → x ∈ dom.setAt i) ?_ ?_
    · intro dom j hjpos hj hD x i hxi
      rw [setAt_solveAt hj]
      split
      · next heq =>
        subst heq
        rw [mem_equation]
        rcases hstep x j hjpos hxi with hx | ⟨hne, hx⟩
        · exact .inl hx
        · exact .inr ⟨hne, fun p hp => hD x p (hx p hp)⟩
      · exact hD x i hxi
    · intro x i hxi
      obtain ⟨hx, hi⟩ := hbound x i hxi
      rw [setAt_start, if_pos hi]
      split
      · next hzero =>
        subst hzero
        exact List.mem_singleton.mpr (hhead x hxi)
      · exact List.mem_range.mpr hx

end PlayerPaths.DominatorSets
