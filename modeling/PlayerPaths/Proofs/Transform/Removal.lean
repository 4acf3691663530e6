import PlayerPaths.Proofs.Transform.Handlers

/-!
# Removing blocks renumbers the others

The blocks that are not removed, the survivors, move together and keep their order. So the number of
survivors before a survivor is its new number (`survivorsBelow_eq`). For any other target the same
count is the place of the next survivor, or the place behind all of them
(`getElem?_count_below`): a branch to a removed block leads to where control falls through to from
there.

The blocks to keep are found by the numbers that they carry, while targets are counted by positions,
and these are the same in numbered bodies only. Main statement:
`Body.Numbered.removeBlocks_compacts`.
-/

namespace PlayerPaths.IL

/-- A statement whose targets are replaced, and nothing else. -/
inductive Operation.Retargeted (f : Nat → Nat) : Operation → Operation → Prop
  | branchIf {condition : Expression} {target : Nat} :
      Retargeted f (.branchIf condition target) (.branchIf condition (f target))
  | branch {target : Nat} : Retargeted f (.branch target) (.branch (f target))
  | switch {value : Expression} {cases cases' : List SwitchCase} {default : Nat} :
      List.Forall₂ (fun c c' => c'.values = c.values ∧ c'.target = f c.target) cases cases' →
      Retargeted f (.switch value cases default) (.switch value cases' (f default))
  | straight {o : Operation} : o.targets = [] → Retargeted f o o

theorem Operation.mapTargets_retargeted (f : Nat → Nat) (o : Operation) :
    Retargeted f o (o.mapTargets f) := by
  cases o with
  | branchIf => exact .branchIf
  | branch => exact .branch
  | switch value cases default =>
      refine .switch (List.forall₂_map_right_iff.mpr ?_)
      exact List.forall₂_same.mpr fun _ _ => ⟨rfl, rfl⟩
  | _ => exact .straight rfl

namespace Body

variable {b : Body} {removed : List Nat} {k t : Nat}

/-- The instructions of a block with the targets replaced, and nothing else. -/
def Retargeted (f : Nat → Nat) (block block' : Block) : Prop :=
  List.Forall₂ (fun i i' => i'.ranges = i.ranges ∧ i.operation.Retargeted f i'.operation)
    block.instructions block'.instructions

theorem retargeted_moved (f : Nat → Nat) (index : Nat) (block : Block) :
    Retargeted f block (Block.moved index f block) := by
  refine List.forall₂_map_right_iff.mpr ?_
  exact List.forall₂_same.mpr fun i _ => ⟨rfl, i.operation.mapTargets_retargeted f⟩

/-! ## Survivors -/

/-- The numbers of the blocks that are not removed. -/
def survivors (b : Body) (removed : List Nat) : List Nat :=
  (List.range b.blocks.length).filter (· ∉ removed)

/-- How many survivors have a number below another one. -/
def survivorsBelow (b : Body) (removed : List Nat) (t : Nat) : Nat :=
  ((b.survivors removed).filter (· < t)).length

theorem mem_survivors : k ∈ b.survivors removed ↔ k < b.blocks.length ∧ k ∉ removed := by
  simp [survivors]

theorem survivors_increasing (b : Body) (removed : List Nat) :
    (b.survivors removed).Pairwise (· < ·) :=
  List.pairwise_lt_range.filter _

/-- The table of new numbers counts survivors. -/
theorem renumbered_eq_survivorsBelow (b : Body) (removed : List Nat) (t : Nat) :
    b.renumbered removed t = b.survivorsBelow removed t := by
  have hbelow : ∀ n, (List.range n).filter (· < t) = List.range (min t n) := by
    intro n
    induction n with
    | zero => simp
    | succ n ih =>
        rw [List.range_succ, List.filter_append, ih]
        by_cases hn : n < t
        · have hmin : min t n = n := by omega
          have hmin' : min t (n + 1) = n + 1 := by omega
          rw [hmin, hmin', List.range_succ]
          simp [hn]
        · have hmin : min t (n + 1) = min t n := by omega
          rw [hmin]
          simp [hn]
  rw [renumbered, survivorsBelow, survivors, List.filter_filter, ← hbelow, List.filter_filter]
  exact congrArg List.length (List.filter_congr fun _ _ => Bool.and_comm _ _)

/-- In an increasing list, the first element that is not below a number stands behind those that
are. -/
theorem getElem?_count_below {l : List Nat} (hl : l.Pairwise (· < ·)) (hk : k ∈ l) (hle : t ≤ k)
    (hleast : ∀ j ∈ l, t ≤ j → k ≤ j) : l[(l.filter (· < t)).length]? = some k := by
  induction l with
  | nil => cases hk
  | cons a l ih =>
      obtain ⟨ha, hl⟩ := List.pairwise_cons.mp hl
      by_cases hat : a < t
      · have hne : k ≠ a := by omega
        have hk : k ∈ l := (List.mem_cons.mp hk).resolve_left hne
        rw [List.filter_cons_of_pos (by simpa using hat), List.length_cons,
          List.getElem?_cons_succ]
        exact ih hl hk fun j hj => hleast j (List.mem_cons_of_mem a hj)
      · -- The element is the first one of the list, and all others are larger.
        have hak : k = a := by
          have hka := hleast a List.mem_cons_self (Nat.le_of_not_lt hat)
          rcases List.mem_cons.mp hk with heq | hk
          · exact heq
          · exact absurd (ha k hk) (Nat.not_lt.mpr hka)
        have hnone : (a :: l).filter (· < t) = [] := by
          refine List.filter_eq_nil_iff.mpr (List.forall_mem_cons.mpr ⟨by simpa using hat, ?_⟩)
          intro j hj
          have := ha j hj
          simp only [decide_eq_true_eq]
          omega
        rw [hnone, hak]
        rfl

/-- The survivors before a survivor are as many as its place. -/
theorem survivorsBelow_eq {i : Nat} (h : (b.survivors removed)[i]? = some k) :
    b.survivorsBelow removed k = i := by
  have hincreasing := b.survivors_increasing removed
  have hnodup : (b.survivors removed).Nodup := hincreasing.imp Nat.ne_of_lt
  have hplace := getElem?_count_below hincreasing (List.mem_of_getElem? h) (Nat.le_refl k)
    fun _ _ hle => hle
  obtain ⟨hlt, hk⟩ := List.getElem?_eq_some_iff.mp hplace
  obtain ⟨hlt', hk'⟩ := List.getElem?_eq_some_iff.mp h
  exact hnodup.getElem_inj_iff.mp (hk.trans hk'.symm)

/-! ## Renumbering -/

/-- **What it means that blocks were removed.** The survivors stand in their order, numbered by
position, and are as they were but for their targets. A target becomes the number of survivors below
it: the new number of the block if it survives, else that of the next survivor, and the new length if
there is none. -/
structure Compacts (b : Body) (removed : List Nat) (b' : Body) : Prop where
  numbered : b'.Numbered
  length_eq : b'.blocks.length = (b.survivors removed).length
  blocks : ∀ {i k : Nat} {block : Block}, (b.survivors removed)[i]? = some k →
    b.blocks[k]? = some block →
    ∃ block', b'.blocks[i]? = some block' ∧ Retargeted (b.survivorsBelow removed) block block'
  survives : ∀ {t : Nat}, t ∈ b.survivors removed →
    (b.survivors removed)[b.survivorsBelow removed t]? = some t
  next : ∀ {t k : Nat}, t ∉ b.survivors removed → k ∈ b.survivors removed → t < k →
    (∀ j ∈ b.survivors removed, t < j → k ≤ j) →
    (b.survivors removed)[b.survivorsBelow removed t]? = some k
  none_left : ∀ {t : Nat}, (∀ k ∈ b.survivors removed, k < t) →
    b.survivorsBelow removed t = b'.blocks.length
  rest : b'.handlers = b.handlers ∧ b'.nextOffset = b.nextOffset

theorem Numbered.length_removeBlocks (h : b.Numbered) (removed : List Nat) :
    (b.removeBlocks removed).blocks.length = (b.survivors removed).length := by
  have hall : (b.survivors removed).filter (· < b.blocks.length) = b.survivors removed :=
    List.filter_eq_self.mpr fun k hk => by simpa using (mem_survivors.mp hk).1
  have hcount := h.renumbered_eq removed b.blocks.length
  rw [renumbered_eq_survivorsBelow, survivorsBelow, hall, List.take_length] at hcount
  rw [hcount, removeBlocks, List.length_mapIdx]

/-- **Removing blocks of a numbered body renumbers the others**, whatever numbers are given. -/
theorem Numbered.removeBlocks_compacts (h : b.Numbered) (removed : List Nat) :
    b.Compacts removed (b.removeBlocks removed) where
  numbered i hi := by simp only [removeBlocks, List.getElem_mapIdx, Block.moved]
  length_eq := h.length_removeBlocks removed
  blocks {i k block} hi hblock := by
    have hkept : k ∉ removed := (mem_survivors.mp (List.mem_of_getElem? hi)).2
    have hmoved := h.removeBlocks_getElem? hkept
    rw [renumbered_eq_survivorsBelow, survivorsBelow_eq hi, hblock,
      funext (b.renumbered_eq_survivorsBelow removed)] at hmoved
    exact ⟨_, hmoved, retargeted_moved _ i block⟩
  survives {t} ht :=
    getElem?_count_below (b.survivors_increasing removed) ht (Nat.le_refl t) fun _ _ hle => hle
  next {t k} ht hk hlt hleast := by
    refine getElem?_count_below (b.survivors_increasing removed) hk (Nat.le_of_lt hlt) ?_
    intro j hj hle
    have hne : t ≠ j := fun heq => ht (heq ▸ hj)
    exact hleast j hj (Nat.lt_of_le_of_ne hle hne)
  none_left {t} ht := by
    have hall : (b.survivors removed).filter (· < t) = b.survivors removed :=
      List.filter_eq_self.mpr fun k hk => by simpa using ht k hk
    rw [survivorsBelow, hall, h.length_removeBlocks]
  rest := ⟨rfl, rfl⟩

/-- A menu that branches to blocks that stay, to one in the middle that goes, to the last one, which
goes too, and past the end. -/
def menu : Body where
  blocks := [
    ⟨0, [⟨.branchIf (.constant (.int32 1)) 2, [⟨0, 0⟩]⟩,
      ⟨.switch (.constant (.int32 2)) [⟨[0, 1], 3⟩, ⟨[2], 1⟩, ⟨[], 5⟩] 9, [⟨1, 4⟩]⟩]⟩,
    ⟨1, [⟨playerCall "Log", [⟨5, 5⟩]⟩]⟩,
    ⟨2, [⟨playerCall "Retry", [⟨6, 6⟩]⟩]⟩,
    ⟨3, [⟨playerCall "Save", [⟨7, 7⟩]⟩, ⟨.branch 4, []⟩]⟩,
    ⟨4, [⟨.leave none, [⟨8, 8⟩]⟩]⟩,
    ⟨5, [⟨.endFinally, [⟨9, 9⟩]⟩]⟩]

theorem menu_compacts :
    let b := menu.removeBlocks [5, 1, 7, 2, 1]
    menu.Numbered ∧ menu.Compacts [5, 1, 7, 2, 1] b ∧ menu.survivors [5, 1, 7, 2, 1] = [0, 3, 4] ∧
      (b.blocks.map fun block => block.instructions.map fun i => i.operation.targets) =
        [[[1], [1, 1, 3, 3]], [[], [2]], [[]]] := by
  have hnumbered : menu.Numbered := by
    unfold Numbered
    decide
  exact ⟨hnumbered, hnumbered.removeBlocks_compacts _, by decide, by decide⟩

end Body

end PlayerPaths.IL
