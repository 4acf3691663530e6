import Mathlib.Data.List.Nodup
import Mathlib.Logic.Relation
import PlayerPaths.Flow.Resolve
import PlayerPaths.Proofs.Computation

/-!
# Real instructions

Control never rests on glue: `Body.resolve` gives a location of an instruction that is none
(`Body.resolve_real`), and so do the successors. In a body that is numbered by position, the
locations of the listing are those at which the instructions are found.

From a location that holds no real instruction the walk has one way to go on: behind the end of a
block the next block begins, and glue leads to its target (`Body.Skips`). So the walk either ends,
at a real instruction or past the last block, or it comes back to a location, and then it goes round
for ever. Marking the locations on the way finds out which (`Body.Settles`). Behind its first step
the walk only meets starts of blocks, and there are no more of them than blocks. That is why
`Body.resolve`, which marks nothing and counts its steps, gives the answer of the walk with marks
(`Body.settles_resolve`), and so exactly what the walk comes to (`Body.resolve_skips_glue`).
-/

namespace PlayerPaths.IL

namespace Body

variable {b : Body} {l l' : Location}

/-- An instruction stands at the location, and it is no glue. -/
def Real (b : Body) (l : Location) : Prop := ∃ i, b.instruction? l = some i ∧ i.isGlue = false

theorem block_eq_ok {i : Nat} {block : Block} : b.block i = .ok block ↔ b.blocks[i]? = some block := by
  unfold Body.block
  split <;> simp_all

theorem resolveWithin_real {steps : Nat} (h : b.resolveWithin steps l = some l') : b.Real l' := by
  induction steps generalizing l with
  | zero => simp [resolveWithin] at h
  | succ steps ih =>
      unfold resolveWithin at h
      split at h
      · simp at h
      · next block hblock =>
        split at h
        · exact ih h
        · next i hi =>
          split at h
          · exact ih h
          · next hglue =>
            obtain rfl := Option.some.inj h
            refine ⟨i, by simp [instruction?, hblock, hi], ?_⟩
            -- Glue is a branch, which has been followed.
            by_contra hne
            have hne : i.isGlue = true := by simpa using hne
            have hbranch : i.operation.isBranch = true := by
              simp only [Instruction.isGlue, Bool.and_eq_true] at hne
              exact hne.2
            cases hoperation : i.operation with
            | branch target => exact hglue target hne hoperation
            | _ => simp [hoperation, Operation.isBranch] at hbranch

/-- Where control goes, there is an instruction that is no glue. -/
theorem resolve_real (h : b.resolve l = some l') : b.Real l' := resolveWithin_real h

theorem mem_successorsOf {o : Operation} : l' ∈ b.successorsOf l o ↔
    (o.isTerminator = false ∧ b.resolve l.next = some l') ∨
      ∃ t ∈ o.targets, b.resolve (.start t) = some l' := by
  simp only [successorsOf, List.mem_eraseDups, List.mem_append, Option.mem_toList,
    List.mem_filterMap]
  cases o.isTerminator <;> simp

/-- The ways out of a statement: where it falls through to, and where it branches to. A way without
a location leaves the method. -/
def ways (b : Body) (l : Location) (o : Operation) : List (Option Location) :=
  (if o.isTerminator then [] else [b.resolve l.next]) ++ o.targets.map fun t => b.resolve (.start t)

/-- The successors are the ways that stay in the method. -/
theorem mem_successorsOf_iff_ways {o : Operation} :
    l' ∈ b.successorsOf l o ↔ some l' ∈ b.ways l o := by
  rw [mem_successorsOf, ways, List.mem_append, List.mem_map]
  cases o.isTerminator with
  | false => simp [eq_comm]
  | true => simp

theorem mem_ways_next {o : Operation} (h : o.isTerminator = false) :
    b.resolve l.next ∈ b.ways l o := by
  rw [ways, h]
  exact List.mem_append_left _ List.mem_cons_self

theorem mem_ways_target {o : Operation} {target : Nat} (h : target ∈ o.targets) :
    b.resolve (.start target) ∈ b.ways l o :=
  List.mem_append_right _ (List.mem_map_of_mem h)

theorem successorsOf_real {o : Operation} (h : l' ∈ b.successorsOf l o) : b.Real l' := by
  rcases mem_successorsOf.mp h with ⟨-, h⟩ | ⟨t, -, h⟩ <;> exact resolve_real h

theorem successors_eq_ok {ls : List Location} : b.successors l = .ok ls ↔
    ∃ i, b.instruction? l = some i ∧ b.successorsOf l i.operation = ls := by
  simp only [successors, bind_eq_ok, block_eq_ok, instruction?, Option.bind_eq_some_iff]
  constructor
  · rintro ⟨block, hblock, h⟩
    split at h
    · next i hi => exact ⟨i, ⟨block, hblock, hi⟩, by simpa using h⟩
    · simp at h
  · rintro ⟨i, ⟨block, hblock, hi⟩, h⟩
    exact ⟨block, hblock, by simp [hi, h]⟩

/-- In a numbered body, the listing names every instruction by its location. -/
theorem Numbered.mem_locations (h : b.Numbered) {i : Instruction} :
    (l, i) ∈ b.locations ↔ b.instruction? l = some i := by
  simp only [locations, blockLocations, List.mem_flatMap, List.mem_map, Prod.exists,
    Prod.mk.injEq, instruction?, Option.bind_eq_some_iff]
  constructor
  · rintro ⟨block, hblock, i, k, hik, rfl, rfl⟩
    obtain ⟨n, hn, rfl⟩ := List.getElem_of_mem hblock
    refine ⟨b.blocks[n], ?_, ?_⟩
    · show b.blocks[b.blocks[n].index]? = some b.blocks[n]
      rw [h n hn, List.getElem?_eq_getElem hn]
    · exact List.mem_zipIdx_iff_getElem?.mp hik
  · rintro ⟨block, hblock, hi⟩
    obtain ⟨hlt, rfl⟩ := List.getElem?_eq_some_iff.mp hblock
    refine ⟨_, List.getElem_mem hlt, i, l.index, List.mem_zipIdx_iff_getElem?.mpr hi, ?_, rfl⟩
    rw [h l.block hlt]

end Body

theorem Method.requireBody_eq_ok {m : Method} {b : Body} :
    m.requireBody = .ok b ↔ m.body = some b := by
  unfold Method.requireBody
  split <;> simp_all

theorem Method.instruction_eq_ok {m : Method} {l : Location} {i : Instruction} :
    m.instruction l = .ok i ↔ ∃ b, m.body = some b ∧ b.instruction? l = some i := by
  simp only [Method.instruction, bind_eq_ok, Method.requireBody_eq_ok, Body.block_eq_ok,
    Body.instruction?, Option.bind_eq_some_iff]
  constructor
  · rintro ⟨b, hb, block, hblock, h⟩
    split at h
    · next j hj => exact ⟨b, hb, block, hblock, by simpa [hj] using h⟩
    · simp at h
  · rintro ⟨b, hb, block, hblock, hi⟩
    exact ⟨b, hb, block, hblock, by simp [hi]⟩

end PlayerPaths.IL

namespace PlayerPaths

open IL

/-- The steps of a graph are those of the real instructions. -/
theorem InstructionGraph.ofBody_eq_ok {b : Body} (hb : b.Numbered) {g : InstructionGraph}
    (h : InstructionGraph.ofBody b = .ok g) : g.first = b.resolve (.start 0) ∧
      ∀ l ls, (l, ls) ∈ g.steps ↔ ∃ i, b.instruction? l = some i ∧ i.isGlue = false ∧
        b.successorsOf l i.operation = ls := by
  simp only [InstructionGraph.ofBody, bind_eq_ok, pure_eq_ok] at h
  obtain ⟨steps, hsteps, rfl⟩ := h
  refine ⟨rfl, fun l ls => ?_⟩
  rw [mapM_eq_ok] at hsteps
  constructor
  · intro hmem
    obtain ⟨⟨l', i⟩, hi, hstep⟩ := forall₂_exists_of_mem_right hsteps hmem
    obtain ⟨hloc, hglue⟩ := List.mem_filter.mp hi
    simp only [bind_eq_ok, pure_eq_ok, Body.successors_eq_ok, Prod.mk.injEq] at hstep
    obtain ⟨ls', ⟨j, hj, hls⟩, rfl, rfl⟩ := hstep
    obtain rfl := Option.some.inj ((hb.mem_locations.mp hloc).symm.trans hj)
    exact ⟨i, hj, by simpa using hglue, hls⟩
  · rintro ⟨i, hi, hglue, rfl⟩
    have hmem : (l, i) ∈ b.locations.filter fun entry => !entry.2.isGlue :=
      List.mem_filter.mpr ⟨hb.mem_locations.mpr hi, by simpa using hglue⟩
    obtain ⟨step, hstep, heq⟩ := forall₂_exists_of_mem_left hsteps hmem
    simp only [bind_eq_ok, pure_eq_ok, Body.successors_eq_ok] at heq
    obtain ⟨ls, ⟨j, hj, rfl⟩, rfl⟩ := heq
    obtain rfl := Option.some.inj (hi.symm.trans hj)
    exact hstep

end PlayerPaths

namespace PlayerPaths.IL.Body

open Relation

variable {b : Body} {l l' m : Location}

/-! ## The walk -/

/-- There is no block at the location. -/
def PastEnd (b : Body) (l : Location) : Prop := b.blocks[l.block]? = none

/-- The walk goes on at another location. -/
inductive Skips (b : Body) : Location → Location → Prop
  | fall {l : Location} {block : Block} : b.blocks[l.block]? = some block →
      block.instructions[l.index]? = none → Skips b l (.start (l.block + 1))
  | glue {l : Location} {ranges : List OffsetRange} {target : Nat} :
      b.instruction? l = some ⟨.branch target, ranges⟩ →
      Instruction.isGlue ⟨.branch target, ranges⟩ = true → Skips b l (.start target)

/-- The walk comes from one location to another. -/
def WalksTo (b : Body) : Location → Location → Prop := ReflTransGen b.Skips

/-- The walk from a location comes back to it. -/
def Revisits (b : Body) (l : Location) : Prop := TransGen b.Skips l l

/-- The walk with the locations on the way marked, and where it ends. It ends nowhere when it comes
to a marked location or past the last block. -/
inductive Settles (b : Body) : (marked : List Location) → Location → Option Location → Prop
  | revisit {marked : List Location} {l : Location} : l ∈ marked → Settles b marked l none
  | pastEnd {marked : List Location} {l : Location} : l ∉ marked → b.PastEnd l →
      Settles b marked l none
  | found {marked : List Location} {l : Location} : l ∉ marked → b.Real l →
      Settles b marked l (some l)
  | skip {marked : List Location} {l l' : Location} {r : Option Location} : l ∉ marked →
      b.Skips l l' → Settles b (l :: marked) l' r → Settles b marked l r

/-! ## One step -/

/-- At every location the walk ends or goes on. -/
theorem step_cases (b : Body) (l : Location) :
    b.PastEnd l ∨ b.Real l ∨ ∃ l', b.Skips l l' := by
  cases hblock : b.blocks[l.block]? with
  | none => exact .inl hblock
  | some block =>
      cases hi : block.instructions[l.index]? with
      | none => exact .inr (.inr ⟨_, .fall hblock hi⟩)
      | some i =>
          have hinstruction : b.instruction? l = some i := by simp [instruction?, hblock, hi]
          cases hglue : i.isGlue with
          | false => exact .inr (.inl ⟨i, hinstruction, hglue⟩)
          | true =>
              obtain ⟨operation, ranges⟩ := i
              cases operation with
              | branch target => exact .inr (.inr ⟨_, .glue hinstruction hglue⟩)
              | _ => simp [Instruction.isGlue, Operation.isBranch] at hglue

theorem PastEnd.not_skips (h : b.PastEnd l) : ¬ b.Skips l l' := by
  unfold PastEnd at h
  intro hskip
  cases hskip with
  | fall hblock => simp [h] at hblock
  | glue hi => simp [instruction?, h] at hi

theorem Real.not_skips (h : b.Real l) : ¬ b.Skips l l' := by
  obtain ⟨i, hi, hglue⟩ := h
  intro hskip
  cases hskip with
  | fall hblock hend => simp [instruction?, hblock, hend] at hi
  | glue hi' hglue' =>
      obtain rfl := Option.some.inj (hi.symm.trans hi')
      rw [hglue'] at hglue
      cases hglue

theorem PastEnd.not_real (h : b.PastEnd l) : ¬ b.Real l := by
  rintro ⟨i, hi, -⟩
  unfold PastEnd at h
  simp [instruction?, h] at hi

/-- The walk has one way to go on. -/
theorem skips_unique : Relator.RightUnique b.Skips := by
  intro l l' m h h'
  cases h with
  | fall hblock hend =>
      cases h' with
      | fall => rfl
      | glue hi => simp [instruction?, hblock, hend] at hi
  | glue hi =>
      cases h' with
      | fall hblock hend => simp [instruction?, hblock, hend] at hi
      | glue hi' =>
          obtain ⟨heq, -⟩ := Instruction.mk.inj (Option.some.inj (hi.symm.trans hi'))
          rw [Operation.branch.inj heq]

/-- The walk goes on at the start of a block. -/
theorem Skips.exists_start (h : b.Skips l l') : ∃ k, l' = .start k := by
  cases h with
  | fall => exact ⟨_, rfl⟩
  | glue => exact ⟨_, rfl⟩

/-! ## The counted walk does the steps of the walk -/

theorem resolveWithin_of_pastEnd (h : b.PastEnd l) (steps : Nat) :
    b.resolveWithin steps l = none := by
  unfold PastEnd at h
  cases steps with
  | zero => rfl
  | succ steps => simp [resolveWithin, h]

theorem resolveWithin_of_real (h : b.Real l) (steps : Nat) :
    b.resolveWithin (steps + 1) l = some l := by
  obtain ⟨i, hi, hglue⟩ := h
  obtain ⟨block, hblock, hi⟩ := Option.bind_eq_some_iff.mp hi
  simp [resolveWithin, hblock, hi, hglue]

theorem resolveWithin_of_skips (h : b.Skips l l') (steps : Nat) :
    b.resolveWithin (steps + 1) l = b.resolveWithin steps l' := by
  cases h with
  | fall hblock hend => simp [resolveWithin, hblock, hend]
  | glue hi hglue =>
      obtain ⟨block, hblock, hi⟩ := Option.bind_eq_some_iff.mp hi
      simp [resolveWithin, hblock, hi, hglue]

/-- What the counted walk finds is where the walk comes to. -/
theorem walksTo_of_resolveWithin {steps : Nat} (h : b.resolveWithin steps l = some l') :
    b.WalksTo l l' := by
  induction steps generalizing l with
  | zero => cases h
  | succ steps ih =>
      rcases b.step_cases l with hpast | hreal | ⟨m, hskip⟩
      · rw [resolveWithin_of_pastEnd hpast] at h
        cases h
      · rw [resolveWithin_of_real hreal] at h
        obtain rfl := Option.some.inj h
        exact .refl
      · rw [resolveWithin_of_skips hskip] at h
        exact .head hskip (ih h)

/-! ## A walk that comes back -/

theorem Revisits.step (h : b.Revisits l) (hskip : b.Skips l m) : b.Revisits m := by
  obtain ⟨m', hskip', hback⟩ := TransGen.head'_iff.mp h
  obtain rfl := skips_unique hskip hskip'
  exact TransGen.tail' hback hskip

/-- A walk that comes back goes round for ever. -/
theorem Revisits.walksTo (h : b.Revisits l) (hwalk : b.WalksTo l l') : b.Revisits l' := by
  induction hwalk with
  | refl => exact h
  | tail _ hskip ih => exact ih.step hskip

theorem Revisits.exists_skips (h : b.Revisits l) : ∃ l', b.Skips l l' := by
  obtain ⟨l', hskip, -⟩ := TransGen.head'_iff.mp h
  exact ⟨l', hskip⟩

/-- Where the walk ends, every way of it ends. -/
theorem WalksTo.to_end (h : b.WalksTo l l') (hend : ∀ n, ¬ b.Skips l' n) (h' : b.WalksTo l m) :
    b.WalksTo m l' := by
  rcases ReflTransGen.total_of_right_unique skips_unique h h' with hwalk | hwalk
  · rcases hwalk.cases_head with rfl | ⟨n, hskip, -⟩
    · exact .refl
    · exact absurd hskip (hend n)
  · exact hwalk

/-! ## Where the walk ends -/

/-- The walk comes past the last block, or back to where it was. -/
def LeadsNowhere (b : Body) (l : Location) : Prop :=
  (∃ m, b.WalksTo l m ∧ b.PastEnd m) ∨ ∃ m, b.WalksTo l m ∧ b.Revisits m

/-- A walk that comes to a real instruction leads somewhere. -/
theorem WalksTo.not_leadsNowhere (h : b.WalksTo l l') (hreal : b.Real l') :
    ¬ b.LeadsNowhere l := by
  rintro (⟨m, hwalk, hpast⟩ | ⟨m, hwalk, hback⟩)
  · have hend := h.to_end (fun _ => hreal.not_skips) hwalk
    rcases hend.cases_head with rfl | ⟨n, hskip, -⟩
    · exact hpast.not_real hreal
    · exact hpast.not_skips hskip
  · have hend := h.to_end (fun _ => hreal.not_skips) hwalk
    obtain ⟨n, hskip⟩ := (hback.walksTo hend).exists_skips
    exact hreal.not_skips hskip

/-- The walk comes to one real instruction. -/
theorem WalksTo.unique (h : b.WalksTo l l') (hreal : b.Real l') (h' : b.WalksTo l m)
    (hreal' : b.Real m) : l' = m := by
  have hend := h.to_end (fun _ => hreal.not_skips) h'
  rcases hend.cases_head with rfl | ⟨n, hskip, -⟩
  · rfl
  · exact absurd hskip hreal'.not_skips

/-- **What the walk with marks finds out**, when every marked location leads to where it stands. -/
theorem Settles.outcome {marked : List Location} {r : Option Location} (h : b.Settles marked l r)
    (hmarked : ∀ m ∈ marked, TransGen b.Skips m l) :
    (∀ l', r = some l' → b.WalksTo l l' ∧ b.Real l') ∧ (r = none → b.LeadsNowhere l) := by
  induction h with
  | revisit hmem => exact ⟨by simp, fun _ => .inr ⟨_, .refl, hmarked _ hmem⟩⟩
  | pastEnd _ hpast => exact ⟨by simp, fun _ => .inl ⟨_, .refl, hpast⟩⟩
  | found _ hreal =>
      refine ⟨fun l' heq => ?_, by simp⟩
      obtain rfl := Option.some.inj heq
      exact ⟨.refl, hreal⟩
  | @skip marked l m r _ hskip _ ih =>
      have hnext : ∀ n ∈ l :: marked, TransGen b.Skips n m :=
        List.forall_mem_cons.mpr ⟨.single hskip, fun n hn => (hmarked n hn).tail hskip⟩
      obtain ⟨hsome, hnone⟩ := ih hnext
      refine ⟨fun l' heq => ?_, fun heq => ?_⟩
      · obtain ⟨hwalk, hreal⟩ := hsome l' heq
        exact ⟨.head hskip hwalk, hreal⟩
      · rcases hnone heq with ⟨n, hwalk, hpast⟩ | ⟨n, hwalk, hback⟩
        · exact .inl ⟨n, .head hskip hwalk, hpast⟩
        · exact .inr ⟨n, .head hskip hwalk, hback⟩

/-- The walk with marks ends in one way. -/
theorem Settles.unique {marked : List Location} {r r' : Option Location}
    (h : b.Settles marked l r) (h' : b.Settles marked l r') : r = r' := by
  induction h with
  | revisit hmem =>
      cases h' with
      | revisit => rfl
      | pastEnd hnot => exact absurd hmem hnot
      | found hnot => exact absurd hmem hnot
      | skip hnot => exact absurd hmem hnot
  | pastEnd hnot hpast =>
      cases h' with
      | revisit => rfl
      | pastEnd => rfl
      | found _ hreal => exact absurd hreal hpast.not_real
      | skip _ hskip => exact absurd hskip hpast.not_skips
  | found hnot hreal =>
      cases h' with
      | revisit hmem => exact absurd hmem hnot
      | pastEnd _ hpast => exact absurd hreal hpast.not_real
      | found => rfl
      | skip _ hskip => exact absurd hskip hreal.not_skips
  | skip hnot hskip _ ih =>
      cases h' with
      | revisit hmem => exact absurd hmem hnot
      | pastEnd _ hpast => exact absurd hskip hpast.not_skips
      | found _ hreal => exact absurd hskip hreal.not_skips
      | skip _ hskip' h' =>
          obtain rfl := skips_unique hskip hskip'
          exact ih h'

/-! ## Counting the steps -/

/-- A marked location that leads to itself is no real instruction, however many steps are taken. -/
theorem resolveWithin_of_revisits (h : b.Revisits l) (steps : Nat) :
    b.resolveWithin steps l = none := by
  cases hr : b.resolveWithin steps l with
  | none => rfl
  | some l' =>
      obtain ⟨m, hskip⟩ := (h.walksTo (walksTo_of_resolveWithin hr)).exists_skips
      exact absurd hskip (resolveWithin_real hr).not_skips

/-- From the start of a block, one step for every block whose start is not marked is enough. -/
theorem settles_start {steps : Nat} {marked : List Location} {fresh : List Nat} {k : Nat}
    (hsteps : fresh.length ≤ steps) (hfresh : ∀ j < b.blocks.length, .start j ∉ marked → j ∈ fresh)
    (hmarked : ∀ m ∈ marked, TransGen b.Skips m (.start k)) :
    b.Settles marked (.start k) (b.resolveWithin steps (.start k)) := by
  induction steps generalizing marked fresh k with
  | zero =>
      by_cases hmem : .start k ∈ marked
      · exact .revisit hmem
      · -- Nothing is fresh any more, so the block does not exist.
        refine .pastEnd hmem (List.getElem?_eq_none (Nat.le_of_not_lt fun hlt => ?_))
        have hk := List.length_pos_of_mem (hfresh k hlt hmem)
        omega
  | succ steps ih =>
      by_cases hmem : .start k ∈ marked
      · rw [resolveWithin_of_revisits (hmarked _ hmem)]
        exact .revisit hmem
      rcases b.step_cases (.start k) with hpast | hreal | ⟨l', hskip⟩
      · rw [resolveWithin_of_pastEnd hpast]
        exact .pastEnd hmem hpast
      · rw [resolveWithin_of_real hreal]
        exact .found hmem hreal
      · obtain ⟨next, rfl⟩ := hskip.exists_start
        have hk : k ∈ fresh := by
          refine hfresh k (Nat.lt_of_not_le fun hle => ?_) hmem
          have hpast : b.PastEnd (.start k) := List.getElem?_eq_none hle
          exact hpast.not_skips hskip
        have hlength : (fresh.erase k).length ≤ steps := by
          rw [List.length_erase_of_mem hk]
          omega
        have hfresh' : ∀ j < b.blocks.length, .start j ∉ .start k :: marked → j ∈ fresh.erase k := by
          intro j hj hnot
          obtain ⟨hne, hnot⟩ := not_or.mp (List.mem_cons.not.mp hnot)
          exact (List.mem_erase_of_ne fun heq => hne (by rw [heq])).mpr (hfresh j hj hnot)
        have hmarked' : ∀ m ∈ .start k :: marked, TransGen b.Skips m (.start next) :=
          List.forall_mem_cons.mpr ⟨.single hskip, fun m hm => (hmarked m hm).tail hskip⟩
        rw [resolveWithin_of_skips hskip]
        exact .skip hmem hskip (ih hlength hfresh' hmarked')

/-- **The walk with marks ends with what the counted walk finds.** -/
theorem settles_resolve (b : Body) (l : Location) : b.Settles [] l (b.resolve l) := by
  unfold resolve
  rcases b.step_cases l with hpast | hreal | ⟨l', hskip⟩
  · rw [resolveWithin_of_pastEnd hpast]
    exact .pastEnd List.not_mem_nil hpast
  · rw [resolveWithin_of_real hreal]
    exact .found List.not_mem_nil hreal
  · obtain ⟨k, rfl⟩ := hskip.exists_start
    have hlength : (List.range b.blocks.length).length ≤ b.blocks.length :=
      Nat.le_of_eq List.length_range
    have hfresh : ∀ j < b.blocks.length, .start j ∉ [l] → j ∈ List.range b.blocks.length :=
      fun j hj _ => List.mem_range.mpr hj
    have hmarked : ∀ m ∈ [l], TransGen b.Skips m (.start k) :=
      List.forall_mem_singleton.mpr (.single hskip)
    rw [resolveWithin_of_skips hskip]
    exact .skip List.not_mem_nil hskip (settles_start hlength hfresh hmarked)

/-- **Resolving a location skips exactly the glue.** Marking the locations on its way, the walk from
any location of any body ends, and it ends with what `resolve` gives: a location exactly when blocks
that end and glue lead to a real instruction there, and none exactly when they lead past the last
block or back to where the walk was. -/
theorem resolve_skips_glue (b : Body) (l : Location) :
    (∀ r, b.Settles [] l r ↔ r = b.resolve l) ∧
      (∀ l', b.resolve l = some l' ↔ b.WalksTo l l' ∧ b.Real l') ∧
      (b.resolve l = none ↔ b.LeadsNowhere l) := by
  have hsettles := b.settles_resolve l
  obtain ⟨hsome, hnone⟩ := hsettles.outcome (by simp)
  refine ⟨fun r => ⟨fun h => h.unique hsettles, fun h => h ▸ hsettles⟩, fun l' => ?_, ?_⟩
  · refine ⟨hsome l', fun ⟨hwalk, hreal⟩ => ?_⟩
    cases hr : b.resolve l with
    | none => exact absurd (hnone hr) (hwalk.not_leadsNowhere hreal)
    | some m =>
        obtain ⟨hwalk', hreal'⟩ := hsome m hr
        rw [hwalk.unique hreal hwalk' hreal']
  · refine ⟨hnone, fun hnowhere => ?_⟩
    cases hr : b.resolve l with
    | none => rfl
    | some m =>
        obtain ⟨hwalk, hreal⟩ := hsome m hr
        exact absurd hnowhere (hwalk.not_leadsNowhere hreal)

end PlayerPaths.IL.Body
