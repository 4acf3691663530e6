import Mathlib.Data.List.Chain
import PlayerPaths.Proofs.Collections
import PlayerPaths.Proofs.Flow.Resolve
import PlayerPaths.Transform.Handlers

/-!
# Removing handlers keeps paths

A path of a body goes from place to place (`Body.Follows`): along an instruction, to its targets, and
from the end of a block to the next one. Without handlers, a block has lost the branches that leave
protected regions, and the kept blocks stand closer together (`Stripped`). Where a lost branch leads
behind the removed blocks that follow, the block falls through to the same place. Then every step of a
path that avoids the handlers is a step of the new body (`Stripped.follows`), and the path as a whole
executes the same statements (`path_without_handlers`). The transformation does not look where the
branch leads, though, so the condition is needed (`misdirected_exit`).
-/

namespace PlayerPaths.IL

/-! ## Paths -/

namespace Body

/-- Control goes from a place to another one. The end of a block is a place as well. -/
def Follows (b : Body) (l l' : Location) : Prop :=
  match b.instruction? l with
  | some i => i.operation.isTerminator = false ∧ l' = l.next ∨
      ∃ target ∈ i.operation.targets, l' = .start target
  | none => l.block < b.blocks.length ∧ l' = .start (l.block + 1)

/-- The places of a path from the start of a body. -/
structure IsPath (b : Body) (ls : List Location) : Prop where
  start : ls.head? = some (.start 0)
  chain : ls.IsChain b.Follows

/-- The statement that is executed at a place. Branches only direct control. -/
def executedAt (b : Body) (l : Location) : Option Operation :=
  ((b.instruction? l).map Instruction.operation).filter fun o => !o.isBranch

/-- The statements that a path executes. -/
def executed (b : Body) (ls : List Location) : List Operation := ls.filterMap b.executedAt

def handlerBlocks (b : Body) : List Nat :=
  b.handlers.flatMap fun h => List.range' h.handlerBlocks.1 (h.handlerBlocks.2 + 1 - h.handlerBlocks.1)

/-- The number of a block when the handlers are gone. -/
def renumber (b : Body) (k : Nat) : Nat :=
  if b.handlers.isEmpty then k else b.renumbered b.handlerBlocks k

/-- Drop branches at the end of a block, up to some number of them. -/
def withoutExits : Nat → List Instruction → List Instruction
  | 0, is => is
  | n + 1, is =>
    if is.getLast?.any fun i => i.operation.isBranch then withoutExits n is.dropLast else is

/-- The number of protected regions that end in a block. -/
def regionsEnding (handlers : List Handler) (k : Nat) : Nat :=
  handlers.countP fun h => h.protectedBlocks.2 = k

/-- What is left of a block when the handlers are gone. -/
def kept (b : Body) (k : Nat) (block : Block) : List Instruction :=
  withoutExits (regionsEnding b.handlers k) block.instructions

/-- A branch that is dropped leads to where its region falls through to. Only handlers are in
between. -/
def ExitFallsThrough (b : Body) (l : Location) : Prop :=
  ∀ block i target, b.blocks[l.block]? = some block → l.index = (b.kept l.block block).length →
    block.instructions[l.index]? = some i → i.operation = .branch target →
      target ∉ b.handlerBlocks → b.renumber target = b.renumber (l.block + 1)

end Body

/-! ## Targets -/

namespace Operation

variable {f : Nat → Nat} {o : Operation}

@[simp] theorem isTerminator_mapTargets : (o.mapTargets f).isTerminator = o.isTerminator := by
  cases o <;> rfl

@[simp] theorem isBranch_mapTargets : (o.mapTargets f).isBranch = o.isBranch := by
  cases o <;> rfl

@[simp] theorem targets_mapTargets : (o.mapTargets f).targets = o.targets.map f := by
  cases o <;> simp [mapTargets, targets, Function.comp_def]

theorem mapTargets_id : o.mapTargets id = o := by
  cases o <;> simp [mapTargets]

end Operation

namespace Body

/-! ## Dropped exits -/

/-- The exits may be dropped one after another. -/
theorem withoutExits_succ (n : Nat) (is : List Instruction) :
    withoutExits (n + 1) is = withoutExits n (withoutExits 1 is) := by
  have hone : withoutExits 1 is =
      if is.getLast?.any fun i => i.operation.isBranch then is.dropLast else is := rfl
  rw [hone]
  split
  · next hlast => rw [withoutExits, if_pos hlast]
  · next hlast =>
    rw [withoutExits, if_neg hlast]
    cases n with
    | zero => rfl
    | succ n => rw [withoutExits, if_neg hlast]

/-- What is kept stands at the front. -/
theorem withoutExits_prefix (n : Nat) (is : List Instruction) : (withoutExits n is) <+: is := by
  induction n generalizing is with
  | zero => exact List.prefix_refl is
  | succ n ih =>
      unfold withoutExits
      split
      · exact (ih is.dropLast).trans is.dropLast_prefix
      · exact List.prefix_refl is

/-- What stands behind is a branch. -/
theorem isBranch_of_dropped {n j : Nat} {is : List Instruction} {i : Instruction}
    (hj : (withoutExits n is).length ≤ j) (hi : is[j]? = some i) : i.operation.isBranch = true := by
  have hlt := (List.getElem?_eq_some_iff.mp hi).1
  induction n generalizing is with
  | zero => exact absurd hj (Nat.not_le.mpr hlt)
  | succ n ih =>
      unfold withoutExits at hj
      split at hj
      · next hlast =>
        rcases Nat.lt_or_ge j (is.length - 1) with hbefore | hlast'
        · have hdropped : is.dropLast[j]? = some i := by
            rw [List.getElem?_dropLast, if_pos hbefore, hi]
          exact ih hj hdropped (List.getElem?_eq_some_iff.mp hdropped).1
        · obtain rfl : j = is.length - 1 := by omega
          rw [List.getLast?_eq_getElem?, hi] at hlast
          exact hlast
      · exact absurd hj (Nat.not_le.mpr hlt)

/-- Before the dropped exits, nothing changes. -/
theorem getElem?_withoutExits {n j : Nat} {is : List Instruction}
    (hj : j < (withoutExits n is).length) : (withoutExits n is)[j]? = is[j]? := by
  obtain ⟨dropped, hdropped⟩ := withoutExits_prefix n is
  conv_rhs => rw [← hdropped]
  rw [List.getElem?_append_left hj]

end Body

/-! ## Stripping -/

/-- A block without up to some number of branches at its end. -/
def Block.withoutExits (n : Nat) (block : Block) : Block :=
  { block with instructions := Body.withoutExits n block.instructions }

namespace Body

variable {b b' : Body} {k : Nat}

theorem takeExit_eq_ok {exit : Option Instruction} (h : b.takeExit k = .ok (exit, b')) (j : Nat) :
    b'.blocks[j]? = b.blocks[j]?.map fun block =>
      if k = j then block.withoutExits 1 else block := by
  simp only [takeExit, bind_eq_ok, block_eq_ok] at h
  obtain ⟨block, hblock, h⟩ := h
  have hone : Body.withoutExits 1 block.instructions =
      if (exit? block).isSome then block.instructions.dropLast else block.instructions := by
    rw [exit?]
    cases hlast : block.instructions.getLast? with
    | none => simp [withoutExits, hlast]
    | some i => cases hbranch : i.operation.isBranch <;> simp [withoutExits, hlast, hbranch]
  split at h
  · next exit hexit =>
    obtain ⟨-, rfl⟩ := Prod.mk.inj (pure_eq_ok.mp h)
    rw [hexit, Option.isSome_some, if_pos rfl] at hone
    rw [mapBlock, List.getElem?_modify]
    split
    · next heq =>
      subst heq
      simp [hblock, Block.withoutExits, hone]
    · simp
  · next hexit =>
    obtain ⟨-, rfl⟩ := Prod.mk.inj (pure_eq_ok.mp h)
    rw [hexit, Option.isSome_none, if_neg Bool.false_ne_true] at hone
    split
    · next heq =>
      subst heq
      simp [hblock, Block.withoutExits, hone]
    · simp

end Body

namespace Stripping

variable {s s' : Stripping} {signature : String}

/-- A handler that is dropped takes the exit of its protected region along. -/
theorem strip_eq_ok {h : Handler} (hkind : h.kind ≠ .finally) (hs : s.strip signature h = .ok s') :
    s'.removed = s.removed ++
        List.range' h.handlerBlocks.1 (h.handlerBlocks.2 + 1 - h.handlerBlocks.1) ∧
      ∀ j, s'.body.blocks[j]? = s.body.blocks[j]?.map fun block =>
        if h.protectedBlocks.2 = j then block.withoutExits 1 else block := by
  simp only [strip] at hs
  split at hs
  · simp at hs
  · simp only [bind_eq_ok, Prod.exists] at hs
    obtain ⟨exit, body, hexit, hs⟩ := hs
    have hblocks := Body.takeExit_eq_ok hexit
    split at hs
    · obtain rfl := Except.ok.inj hs
      exact ⟨rfl, hblocks⟩
    · obtain rfl := Except.ok.inj hs
      exact ⟨rfl, hblocks⟩
    · obtain rfl := Except.ok.inj hs
      exact ⟨rfl, hblocks⟩
    · next hfinally => exact absurd hfinally hkind

/-- All handlers together. -/
theorem foldlM_strip {hs : List Handler} (hkinds : ∀ h ∈ hs, h.kind ≠ .finally)
    (h : hs.foldlM (strip signature) s = .ok s') :
    s'.removed = s.removed ++ (hs.flatMap fun h =>
        List.range' h.handlerBlocks.1 (h.handlerBlocks.2 + 1 - h.handlerBlocks.1)) ∧
      ∀ j, s'.body.blocks[j]? =
        s.body.blocks[j]?.map (Block.withoutExits (Body.regionsEnding hs j)) := by
  induction hs generalizing s with
  | nil =>
      obtain rfl := Except.ok.inj h
      refine ⟨by simp, fun j => ?_⟩
      have hid : Block.withoutExits (Body.regionsEnding [] j) = id := rfl
      rw [hid, Option.map_id]
      rfl
  | cons first hs ih =>
      obtain ⟨hfirst, hkinds⟩ := List.forall_mem_cons.mp hkinds
      simp only [List.foldlM_cons, bind_eq_ok] at h
      obtain ⟨middle, hmiddle, h⟩ := h
      obtain ⟨hremoved, hblocks⟩ := strip_eq_ok hfirst hmiddle
      obtain ⟨hremoved', hblocks'⟩ := ih hkinds h
      refine ⟨by rw [hremoved', hremoved, List.append_assoc, List.flatMap_cons], fun j => ?_⟩
      rw [hblocks', hblocks, Option.map_map]
      congr 1
      funext block
      simp only [Function.comp_apply, Body.regionsEnding, List.countP_cons, decide_eq_true_eq]
      split
      · simp only [Block.withoutExits, ← Body.withoutExits_succ]
      · rfl

end Stripping

/-! ## Removing blocks -/

namespace Body

variable {b : Body} {removed : List Nat} {k : Nat}

/-- A kept block stands behind the kept blocks before it. -/
theorem Numbered.renumbered_eq (h : b.Numbered) (removed : List Nat) (k : Nat) :
    b.renumbered removed k =
      ((b.blocks.take k).filter fun block => block.index ∉ removed).length := by
  have hindices : (b.blocks.take k).map Block.index = List.range (min k b.blocks.length) := by
    refine List.ext_getElem (by simp) fun i hi hi' => ?_
    rw [List.getElem_map, List.getElem_take, List.getElem_range]
    exact h i _
  rw [renumbered, ← hindices, List.filter_map, List.length_map]
  rfl

theorem Numbered.removeBlocks_getElem? (h : b.Numbered) (hk : k ∉ removed) :
    (b.removeBlocks removed).blocks[b.renumbered removed k]? =
      b.blocks[k]?.map (Block.moved (b.renumbered removed k) (b.renumbered removed)) := by
  have hkept : (b.blocks.filter fun block => block.index ∉ removed)[b.renumbered removed k]? =
      b.blocks[k]? := by
    rw [h.renumbered_eq]
    refine getElem?_filter_take fun block hblock => ?_
    obtain ⟨hlt, rfl⟩ := List.getElem?_eq_some_iff.mp hblock
    rw [h k hlt]
    exact decide_eq_true hk
  simp only [removeBlocks, List.getElem?_mapIdx, hkept]

/-- The next block follows a kept one. -/
theorem renumbered_succ (hlt : k < b.blocks.length) (hk : k ∉ removed) :
    b.renumbered removed (k + 1) = b.renumbered removed k + 1 := by
  have hnext : min (k + 1) b.blocks.length = k + 1 := by omega
  have hself : min k b.blocks.length = k := by omega
  rw [renumbered, renumbered, hnext, hself, List.range_succ, List.filter_append, List.length_append]
  simp [hk]

end Body

/-! ## Without handlers -/

namespace Body

/-- An instruction whose targets have new numbers. -/
def moved (b : Body) (i : Instruction) : Instruction :=
  { i with operation := i.operation.mapTargets b.renumber }

/-- The blocks that are no handlers stand at their new numbers, without the exits. -/
structure Stripped (b b' : Body) : Prop where
  first : b.renumber 0 = 0
  next : ∀ {k}, k < b.blocks.length → k ∉ b.handlerBlocks → b.renumber (k + 1) = b.renumber k + 1
  blocks : ∀ {k}, k ∉ b.handlerBlocks → (b'.blocks[b.renumber k]?).map Block.instructions =
    b.blocks[k]?.map fun block => (b.kept k block).map b.moved

variable {b b' : Body} {l l' : Location}

/-- A body without handlers stays as it is. -/
theorem stripped_self (h : b.handlers = []) : b.Stripped b := by
  have hrenumber : b.renumber = id := by
    funext k
    simp [renumber, h]
  refine ⟨by rw [hrenumber]; rfl, by simp [hrenumber], fun {k} _ => ?_⟩
  have hmoved : b.moved = id := by
    funext i
    simp only [moved, hrenumber, Operation.mapTargets_id]
    rfl
  have hkept : ∀ block, b.kept k block = block.instructions := by
    intro block
    rw [kept, h]
    rfl
  simp [hrenumber, hmoved, hkept]

theorem stripped_of_withoutHandlers {m m' : Method} (hbody : m.body = some b)
    (hnumbered : b.Numbered) (hkinds : ∀ h ∈ b.handlers, h.kind ≠ .finally)
    (h : m.withoutHandlers = .ok m') : ∃ b', m'.body = some b' ∧ b.Stripped b' := by
  simp only [Method.withoutHandlers, bind_eq_ok, Method.requireBody_eq_ok] at h
  obtain ⟨b', hb', h⟩ := h
  obtain rfl := Option.some.inj (hbody.symm.trans hb')
  split at h
  · next hempty =>
    obtain rfl := Except.ok.inj h
    exact ⟨b, hbody, stripped_self (List.isEmpty_iff.mp hempty)⟩
  · next hhandlers =>
    simp only [bind_eq_ok, pure_eq_ok] at h
    obtain ⟨s, hs, rfl⟩ := h
    obtain ⟨hremoved, hblocks⟩ := Stripping.foldlM_strip hkinds hs
    have hremoved : s.removed = b.handlerBlocks := hremoved
    have hmap : s.body.blocks =
        b.blocks.mapIdx fun k => Block.withoutExits (regionsEnding b.handlers k) :=
      List.ext_getElem? fun k => by rw [hblocks, List.getElem?_mapIdx]
    have hlength : s.body.blocks.length = b.blocks.length := by rw [hmap, List.length_mapIdx]
    have hstripped : Numbered { s.body with handlers := [] } := by
      intro k hk
      simp only [hmap, List.getElem_mapIdx, Block.withoutExits]
      exact hnumbered k _
    have hrenumber : b.renumber = Body.renumbered { s.body with handlers := [] } s.removed := by
      funext k
      simp [renumber, renumbered, hhandlers, hlength, hremoved]
    refine ⟨_, rfl, ?_, fun {k} hlt hk => ?_, fun {k} hk => ?_⟩
    · simp [hrenumber, renumbered]
    · rw [hrenumber]
      exact renumbered_succ (hlength ▸ hlt) (hremoved ▸ hk)
    · have hmoved (i : Instruction) : b.moved i =
          let renumber := Body.renumbered { s.body with handlers := [] } s.removed
          { i with operation := i.operation.mapTargets renumber } := by
        rw [moved, hrenumber]
      rw [funext hmoved, hrenumber, hstripped.removeBlocks_getElem? (hremoved ▸ hk), hblocks,
        Option.map_map, Option.map_map]
      rfl

/-! ## Steps -/

/-- The place of an instruction when the handlers are gone. -/
def place (b : Body) (l : Location) : Location := ⟨b.renumber l.block, l.index⟩

/-- No exit before the place has been dropped. -/
def InKept (b : Body) (l : Location) : Prop :=
  ∀ block, b.blocks[l.block]? = some block → l.index ≤ (b.kept l.block block).length

/-- An instruction that is kept, an exit that is dropped, or no instruction at all. -/
inductive Fate (b b' : Body) (l : Location) : Prop
  | kept {i : Instruction} (before : b.instruction? l = some i)
      (after : b'.instruction? (b.place l) = some (b.moved i)) (next : b.InKept l.next)
  | dropped {block : Block} {i : Instruction} {target : Nat} (found : b.blocks[l.block]? = some block)
      (exit : l.index = (b.kept l.block block).length)
      (before : block.instructions[l.index]? = some i) (branch : i.operation = .branch target)
      (after : b'.instruction? (b.place l) = none)
  | nothing (before : b.instruction? l = none) (after : b'.instruction? (b.place l) = none)

namespace Stripped

variable (h : b.Stripped b')

include h

theorem instruction? (hl : l.block ∉ b.handlerBlocks) : b'.instruction? (b.place l) =
    b.blocks[l.block]?.bind fun block => (b.kept l.block block)[l.index]?.map b.moved := by
  have hblocks := h.blocks hl
  cases hblock : b.blocks[l.block]? with
  | none =>
      rw [hblock, Option.map_none, Option.map_eq_none_iff] at hblocks
      simp [Body.instruction?, place, hblocks]
  | some block =>
      rw [hblock, Option.map_some, Option.map_eq_some_iff] at hblocks
      obtain ⟨block', hblock', hinstructions⟩ := hblocks
      simp [Body.instruction?, place, hblock', hinstructions]

theorem length_iff {k : Nat} (hk : k ∉ b.handlerBlocks) :
    b.renumber k < b'.blocks.length ↔ k < b.blocks.length := by
  have hnone := congrArg Option.isNone (h.blocks hk)
  rw [Option.isNone_map, Option.isNone_map, Bool.eq_iff_iff, Option.isNone_iff_eq_none,
    Option.isNone_iff_eq_none, List.getElem?_eq_none_iff, List.getElem?_eq_none_iff] at hnone
  omega

theorem fate (hl : l.block ∉ b.handlerBlocks) (hkept : b.InKept l) : b.Fate b' l := by
  have hafter := h.instruction? hl
  cases hblock : b.blocks[l.block]? with
  | none =>
      rw [hblock, Option.bind_none] at hafter
      exact .nothing (by simp [Body.instruction?, hblock]) hafter
  | some block =>
      rw [hblock, Option.bind_some] at hafter
      have hbefore : b.instruction? l = block.instructions[l.index]? := by
        simp [Body.instruction?, hblock]
      rcases Nat.lt_or_ge l.index (b.kept l.block block).length with hlt | hge
      · have hsame : (b.kept l.block block)[l.index]? = block.instructions[l.index]? :=
          getElem?_withoutExits hlt
        have hi := List.getElem?_eq_getElem hlt
        rw [hi, Option.map_some] at hafter
        refine .kept (hbefore.trans (hsame.symm.trans hi)) hafter fun block' hblock' => ?_
        obtain rfl := Option.some.inj (hblock.symm.trans hblock')
        exact hlt
      · rw [List.getElem?_eq_none hge, Option.map_none] at hafter
        have hindex : l.index = (b.kept l.block block).length :=
          Nat.le_antisymm (hkept block hblock) hge
        cases hi : block.instructions[l.index]? with
        | none => exact .nothing (hbefore.trans hi) hafter
        | some i =>
            have hbranch := isBranch_of_dropped (n := regionsEnding b.handlers l.block) hge hi
            cases hoperation : i.operation with
            | branch target => exact .dropped hblock hindex hi hoperation hafter
            | _ => simp [hoperation, Operation.isBranch] at hbranch

/-- **A step of a path that avoids the handlers is a step of the new body.** -/
theorem follows (hexit : b.ExitFallsThrough l) (hl : l.block ∉ b.handlerBlocks)
    (hl' : l'.block ∉ b.handlerBlocks) (hkept : b.InKept l) (hstep : b.Follows l l') :
    b'.Follows (b.place l) (b.place l') ∧ b.InKept l' := by
  unfold Follows at hstep ⊢
  cases h.fate hl hkept with
  | @kept i hbefore hafter hnext =>
      rw [hbefore] at hstep
      rw [hafter]
      rcases hstep with ⟨hterminator, rfl⟩ | ⟨target, htarget, rfl⟩
      · exact ⟨.inl ⟨by simpa [moved] using hterminator, rfl⟩, hnext⟩
      · refine ⟨.inr ⟨b.renumber target, ?_, rfl⟩, fun _ _ => Nat.zero_le _⟩
        simp only [moved, Operation.targets_mapTargets]
        exact List.mem_map_of_mem htarget
  | @dropped block i target hblock hindex hbefore hbranch hafter =>
      simp only [Body.instruction?, hblock, Option.bind_some, hbefore, hbranch] at hstep
      rw [hafter]
      have hlt : l.block < b.blocks.length := (List.getElem?_eq_some_iff.mp hblock).1
      rcases hstep with ⟨hterminator, -⟩ | ⟨target', htarget, rfl⟩
      · cases hterminator
      · obtain rfl := List.mem_singleton.mp htarget
        have hfalls := hexit block i target' hblock hindex hbefore hbranch hl'
        refine ⟨⟨(h.length_iff hl).mpr hlt, ?_⟩, fun _ _ => Nat.zero_le _⟩
        rw [place, Location.start, hfalls, h.next hlt hl]
        rfl
  | nothing hbefore hafter =>
      rw [hbefore] at hstep
      rw [hafter]
      obtain ⟨hlt, rfl⟩ := hstep
      refine ⟨⟨(h.length_iff hl).mpr hlt, ?_⟩, fun _ _ => Nat.zero_le _⟩
      rw [place, Location.start, h.next hlt hl]
      rfl

/-- The same statement is executed at a place, unless it is a branch. -/
theorem executedAt (hl : l.block ∉ b.handlerBlocks) (hkept : b.InKept l) :
    b'.executedAt (b.place l) = (b.executedAt l).map (Operation.mapTargets b.renumber) := by
  unfold Body.executedAt
  cases h.fate hl hkept with
  | @kept i hbefore hafter _ =>
      rw [hbefore, hafter]
      cases hbranch : i.operation.isBranch <;> simp [moved, Option.filter, hbranch]
  | @dropped block i target hblock _ hbefore hbranch hafter =>
      rw [hafter]
      simp [Body.instruction?, hblock, hbefore, hbranch, Operation.isBranch, Option.filter]
  | nothing hbefore hafter =>
      rw [hbefore, hafter]
      rfl

/-- A path that avoids the handlers, from a place on. -/
theorem path {ls : List Location} (havoid : ∀ l ∈ ls, l.block ∉ b.handlerBlocks)
    (hexits : ∀ l ∈ ls, b.ExitFallsThrough l) (hkept : ∀ l ∈ ls.head?, b.InKept l)
    (hchain : ls.IsChain b.Follows) : (ls.map b.place).IsChain b'.Follows ∧
      b'.executed (ls.map b.place) = (b.executed ls).map (Operation.mapTargets b.renumber) := by
  induction ls with
  | nil => exact ⟨.nil, rfl⟩
  | cons l ls ih =>
      obtain ⟨hl, havoid⟩ := List.forall_mem_cons.mp havoid
      obtain ⟨hexit, hexits⟩ := List.forall_mem_cons.mp hexits
      have hkept : b.InKept l := hkept l rfl
      obtain ⟨hfirst, hchain⟩ := List.isChain_cons.mp hchain
      have hstep : ∀ l' ∈ ls.head?, b'.Follows (b.place l) (b.place l') ∧ b.InKept l' :=
        fun l' hl' => h.follows hexit hl (havoid l' (List.mem_of_mem_head? hl')) hkept (hfirst l' hl')
      obtain ⟨hrest, hexecuted⟩ := ih havoid hexits (fun l' hl' => (hstep l' hl').2) hchain
      constructor
      · refine List.isChain_cons.mpr ⟨fun l' hl' => ?_, hrest⟩
        rw [List.head?_map] at hl'
        obtain ⟨l, hl, rfl⟩ := Option.map_eq_some_iff.mp hl'
        exact (hstep l hl).1
      · simp only [executed, List.map_cons, List.filterMap_cons, h.executedAt hl hkept]
          at hexecuted ⊢
        cases b.executedAt l with
        | none => exact hexecuted
        | some o => simpa using hexecuted

end Stripped

/-- **Without handlers, paths execute the same statements.** A path from the start of a numbered body
that never enters a handler has a path of the body without handlers that executes the same statements
with their targets renumbered. The handlers are dropped, no matter how many share a region, as long as
every exit on the path that is dropped with them leads to where its region falls through to. -/
theorem path_without_handlers {m m' : Method} {ls : List Location} (hbody : m.body = some b)
    (hnumbered : b.Numbered) (hkinds : ∀ h ∈ b.handlers, h.kind ≠ .finally)
    (h : m.withoutHandlers = .ok m') (hpath : b.IsPath ls)
    (havoid : ∀ l ∈ ls, l.block ∉ b.handlerBlocks) (hexits : ∀ l ∈ ls, b.ExitFallsThrough l) :
    ∃ b' ls', m'.body = some b' ∧ b'.IsPath ls' ∧
      b'.executed ls' = (b.executed ls).map (Operation.mapTargets b.renumber) := by
  obtain ⟨b', hb', hstripped⟩ := stripped_of_withoutHandlers hbody hnumbered hkinds h
  have hkept : ∀ l ∈ ls.head?, b.InKept l := by
    intro l hl
    obtain rfl := Option.some.inj (hpath.start.symm.trans hl)
    exact fun _ _ => Nat.zero_le _
  obtain ⟨hchain, hexecuted⟩ := hstripped.path havoid hexits hkept hpath.chain
  refine ⟨b', ls.map b.place, hb', ⟨?_, hchain⟩, hexecuted⟩
  rw [List.head?_map, hpath.start, Option.map_some, place, Location.start, hstripped.first]

def playerCall (name : String) : Operation := .call ⟨⟨"Player", name, [], .void, 1⟩, []⟩

/-- Save, log a failure, and go on. The retry stands behind the handler, and then the end. -/
def saving (exit : Nat) : Body where
  blocks := [
    ⟨0, [⟨playerCall "Save", [⟨0, 0⟩]⟩, ⟨.branch exit, [⟨1, 1⟩]⟩]⟩,
    ⟨1, [⟨playerCall "Log", [⟨2, 2⟩]⟩, ⟨.branch 2, [⟨3, 3⟩]⟩]⟩,
    ⟨2, [⟨playerCall "Retry", [⟨4, 4⟩]⟩]⟩,
    ⟨3, [⟨.leave none, [⟨5, 5⟩]⟩]⟩]
  handlers := [⟨.catch, (0, 0), (1, 1)⟩]
  nextOffset := 6

def updating (b : Body) : Method := ⟨⟨"Player", "Update", [], .void, 0⟩, [], "Game", some b⟩

theorem path_without_handlers_saving : ∃ m' b' ls, (updating (saving 2)).withoutHandlers = .ok m' ∧
    m'.body = some b' ∧ b'.IsPath ls ∧
      b'.executed ls = [playerCall "Save", playerCall "Retry", .leave none] := by
  have hsuccess : (updating (saving 2)).withoutHandlers = .ok _ := rfl
  have hpath : (saving 2).IsPath [⟨0, 0⟩, ⟨0, 1⟩, ⟨2, 0⟩, ⟨2, 1⟩, ⟨3, 0⟩] :=
    ⟨rfl, by simp [Follows, saving, instruction?, playerCall, Operation.isTerminator,
      Operation.targets, Location.next, Location.start]⟩
  have hfalls : ∀ l ∈ [⟨0, 0⟩, ⟨0, 1⟩, ⟨2, 0⟩, ⟨2, 1⟩, ⟨3, 0⟩], (saving 2).ExitFallsThrough l := by
    intro l hl block i target hblock _ hi hbranch _
    simp only [List.mem_cons, List.not_mem_nil, or_false] at hl
    rcases hl with rfl | rfl | rfl | rfl | rfl <;> cases hblock <;> cases hi <;> cases hbranch
    rfl
  obtain ⟨b', ls', hb', hpath', hexecuted⟩ := path_without_handlers rfl
    (by unfold Numbered; decide) (by decide) hsuccess hpath (by decide) hfalls
  exact ⟨_, b', ls', hsuccess, hb', hpath', hexecuted⟩

/-- **Exits are dropped wherever they lead.** Saving jumps over the retry. Without the handler it falls
into it, and no path goes from saving to the end. -/
theorem misdirected_exit : ∃ m' b' ls, (updating (saving 3)).withoutHandlers = .ok m' ∧
    m'.body = some b' ∧ (saving 3).IsPath ls ∧ (∀ l ∈ ls, l.block ∉ (saving 3).handlerBlocks) ∧
      ∀ ls', b'.IsPath ls' → b'.executed ls' ≠
        ((saving 3).executed ls).map (Operation.mapTargets (saving 3).renumber) := by
  refine ⟨_, _, [⟨0, 0⟩, ⟨0, 1⟩, ⟨3, 0⟩], rfl, rfl, ?_, by decide, fun ls' hpath heq => ?_⟩
  · exact ⟨rfl, by simp [Follows, saving, instruction?, playerCall, Operation.isTerminator,
      Operation.targets, Location.next, Location.start]⟩
  · -- Behind the saving stands the end of its block, and behind that the retry.
    rcases ls' with _ | ⟨l, ls⟩
    · cases hpath.start
    obtain rfl := Option.some.inj hpath.start
    rcases ls with _ | ⟨l, ls⟩
    · cases heq
    obtain ⟨⟨-, rfl⟩ | ⟨_, htarget, -⟩, hrest⟩ := List.isChain_cons_cons.mp hpath.chain
    · rcases ls with _ | ⟨l, ls⟩
      · cases heq
      · obtain ⟨⟨-, rfl⟩, -⟩ := List.isChain_cons_cons.mp hrest
        cases heq
    · cases htarget

end Body

end PlayerPaths.IL
