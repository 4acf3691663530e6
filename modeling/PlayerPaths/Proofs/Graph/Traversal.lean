import Mathlib.Data.List.Nodup
import Mathlib.Data.List.Perm.Subperm
import Mathlib.Data.List.TakeWhile
import Mathlib.Logic.Relation
import PlayerPaths.Graph.Traversal
import PlayerPaths.Proofs.Collections

/-!
# Depth-first order lists what a root reaches

Nothing is listed twice. Whatever is listed was put on the stack by a chain of successors.
Conversely, nothing that is fresh gets lost: it is listed once it is on the stack, and so are the
fresh successors of what is listed. A flood lists what its queue reaches, and takes no more steps
than there are vertices that are fresh or in the queue.
-/

namespace PlayerPaths

open Relation

/-! ## Nothing is listed twice -/

/-- What is on top of the stack, once everything that was listed is off it, is fresh. -/
theorem fresh_of_dropWhile {α κ : Type} [DecidableEq κ] {key : α → κ} {fresh : List κ}
    {stack rest : List α} {v : α} (h : (stack.dropWhile fun v => key v ∉ fresh) = v :: rest) :
    key v ∈ fresh := by
  have hhead := List.head?_dropWhile_not (fun v => decide (key v ∉ fresh)) stack
  rw [h] at hhead
  simpa using hhead

theorem depthFirstWithin_nodup {α κ : Type} [DecidableEq κ] (key : α → κ)
    (successors : α → List α) (limit : Nat) {fresh : List κ} (hfresh : fresh.Nodup)
    (stack : List α) :
    ((depthFirstWithin key successors limit fresh stack).map key).Nodup ∧
      ∀ v ∈ depthFirstWithin key successors limit fresh stack, key v ∈ fresh := by
  induction limit generalizing fresh stack with
  | zero => simp [depthFirstWithin]
  | succ limit ih =>
      unfold depthFirstWithin
      split
      · simp
      · next v rest hrest =>
        have hv : key v ∈ fresh := fresh_of_dropWhile hrest
        obtain ⟨hnodup, hsub⟩ := ih (hfresh.erase _) (successors v ++ rest)
        refine ⟨List.nodup_cons.mpr ⟨fun hmem => ?_, hnodup⟩, List.forall_mem_cons.mpr ⟨hv, ?_⟩⟩
        · obtain ⟨w, hw, heq⟩ := List.mem_map.mp hmem
          have hkey := hsub w hw
          rw [heq] at hkey
          exact hfresh.not_mem_erase hkey
        · exact fun w hw => List.mem_of_mem_erase (hsub w hw)

/-- Depth-first order lists nothing twice, and only what is fresh. -/
theorem depthFirst_nodup {α κ : Type} [DecidableEq κ] (key : α → κ) (successors : α → List α)
    {fresh : List κ} (hfresh : fresh.Nodup) (stack : List α) :
    ((depthFirst key successors fresh stack).map key).Nodup ∧
      ∀ v ∈ depthFirst key successors fresh stack, key v ∈ fresh :=
  depthFirstWithin_nodup key successors fresh.length hfresh stack

/-! ## Everything in reach is listed -/

variable {α : Type} [DecidableEq α] {successors : α → List α}

theorem mem_dropWhile_of_fresh {fresh stack : List α} {w : α} (hw : w ∈ stack)
    (hfresh : w ∈ fresh) : w ∈ stack.dropWhile fun v => id v ∉ fresh := by
  rw [← List.takeWhile_append_dropWhile (p := fun v => decide (id v ∉ fresh)) (l := stack)] at hw
  rcases List.mem_append.mp hw with hw | hw
  · have hnot := List.mem_takeWhile_imp hw
    simp [hfresh] at hnot
  · exact hw

theorem depthFirstWithin_sound {limit : Nat} {fresh stack : List α} {v : α}
    (h : v ∈ depthFirstWithin id successors limit fresh stack) :
    ∃ w ∈ stack, ReflTransGen (fun a b => b ∈ successors a) w v := by
  induction limit generalizing fresh stack with
  | zero => simp [depthFirstWithin] at h
  | succ limit ih =>
      unfold depthFirstWithin at h
      split at h
      · simp at h
      · next u rest hrest =>
        have hsub : ∀ w ∈ u :: rest, w ∈ stack := by
          intro w hw
          rw [← hrest] at hw
          exact (List.dropWhile_sublist _).mem hw
        rcases List.mem_cons.mp h with rfl | h
        · exact ⟨v, hsub v List.mem_cons_self, .refl⟩
        · obtain ⟨w, hw, hreach⟩ := ih h
          rcases List.mem_append.mp hw with hw | hw
          · exact ⟨u, hsub u List.mem_cons_self, .head hw hreach⟩
          · exact ⟨w, hsub w (List.mem_cons_of_mem _ hw), hreach⟩

/-- With one step for every fresh vertex, the fresh part of the stack is listed, and so are the
fresh successors of what is listed. -/
theorem depthFirstWithin_complete (successors : α → List α) {limit : Nat} {fresh : List α}
    (hlimit : fresh.length ≤ limit)
    (stack : List α) :
    (∀ w ∈ stack, w ∈ fresh → w ∈ depthFirstWithin id successors limit fresh stack) ∧
      ∀ v ∈ depthFirstWithin id successors limit fresh stack, ∀ w ∈ successors v, w ∈ fresh →
        w ∈ depthFirstWithin id successors limit fresh stack := by
  induction limit generalizing fresh stack with
  | zero =>
      rw [List.length_eq_zero_iff.mp (Nat.le_zero.mp hlimit)]
      simp
  | succ limit ih =>
      unfold depthFirstWithin
      split
      · next hnone =>
        constructor
        · intro w hw hfresh
          have hmem := mem_dropWhile_of_fresh hw hfresh
          rw [hnone] at hmem
          exact absurd hmem List.not_mem_nil
        · intro v hv
          exact absurd hv List.not_mem_nil
      · next v rest hrest =>
        have hv : v ∈ fresh := fresh_of_dropWhile hrest
        have hlength : (fresh.erase v).length ≤ limit := by
          rw [List.length_erase_of_mem hv]
          omega
        obtain ⟨hstack, hsuccessors⟩ := ih hlength (successors v ++ rest)
        -- What is fresh and not the vertex itself stays fresh while the rest is listed.
        have hkeep : ∀ w ∈ fresh, (w ∈ fresh.erase v → w ∈ depthFirstWithin id successors limit
            (fresh.erase v) (successors v ++ rest)) → w ∈ v :: depthFirstWithin id successors limit
            (fresh.erase v) (successors v ++ rest) := by
          intro w hw hlisted
          by_cases heq : w = v
          · rw [heq]
            exact List.mem_cons_self
          · exact List.mem_cons_of_mem _ (hlisted ((List.mem_erase_of_ne heq).mpr hw))
        constructor
        · intro w hw hfresh
          have hmem := mem_dropWhile_of_fresh hw hfresh
          rw [hrest] at hmem
          rcases List.mem_cons.mp hmem with rfl | hmem
          · exact List.mem_cons_self
          · exact hkeep w hfresh (hstack w (List.mem_append_right _ hmem))
        · intro u hu w hw hfresh
          rcases List.mem_cons.mp hu with rfl | hu
          · exact hkeep w hfresh (hstack w (List.mem_append_left _ hw))
          · exact hkeep w hfresh (hsuccessors u hu w hw)

/-- **Depth-first order lists what the root reaches**, when everything that can be reached is
fresh. -/
theorem mem_depthFirst_iff {fresh : List α} {root v : α} (hroot : root ∈ fresh)
    (hclosed : ∀ a ∈ fresh, ∀ b ∈ successors a, b ∈ fresh) :
    v ∈ depthFirst id successors fresh [root] ↔
      ReflTransGen (fun a b => b ∈ successors a) root v := by
  obtain ⟨hstack, hsuccessors⟩ :=
    depthFirstWithin_complete successors (Nat.le_refl fresh.length) [root]
  constructor
  · intro hv
    obtain ⟨w, hw, hreach⟩ := depthFirstWithin_sound hv
    rwa [List.mem_singleton.mp hw] at hreach
  · intro hreach
    -- On the way, everything is fresh and listed.
    have hboth : v ∈ fresh ∧ v ∈ depthFirst id successors fresh [root] := by
      induction hreach with
      | refl => exact ⟨hroot, hstack root List.mem_cons_self hroot⟩
      | tail _ hstep ih =>
          have hfresh := hclosed _ ih.1 _ hstep
          exact ⟨hfresh, hsuccessors _ ih.2 _ hstep hfresh⟩
    exact hboth.2

/-! ## Flooding -/

theorem mem_newSuccessors {fresh : List α} {v w : α} :
    w ∈ newSuccessors successors fresh v ↔ w ∈ successors v ∧ w ∈ fresh := by
  rw [newSuccessors, List.mem_eraseDups, List.mem_filter, decide_eq_true_eq]

theorem mem_without {xs removed : List α} {x : α} :
    x ∈ without xs removed ↔ x ∈ xs ∧ x ∉ removed := by
  rw [without, List.mem_filter, decide_eq_true_eq]

/-- What enters the queue stops being fresh. -/
theorem length_newSuccessors (successors : α → List α) (fresh : List α) (v : α) :
    (newSuccessors successors fresh v).length +
      (without fresh (newSuccessors successors fresh v)).length ≤ fresh.length := by
  generalize hnew : newSuccessors successors fresh v = new
  have hnodup : new.Nodup := by
    rw [← hnew]
    exact nodup_eraseDups _
  have hsub : ∀ w ∈ new, w ∈ fresh.filter (· ∈ new) := by
    intro w hw
    have hfresh : w ∈ fresh := by
      rw [← hnew, mem_newSuccessors] at hw
      exact hw.2
    exact List.mem_filter.mpr ⟨hfresh, by simpa using hw⟩
  have hle := (List.subperm_of_subset hnodup hsub).length_le
  have hsplit := List.length_eq_length_filter_add (l := fresh) fun w => decide (w ∈ new)
  have hwithout : without fresh new = fresh.filter fun w => !decide (w ∈ new) := by
    unfold without
    exact List.filter_congr fun w _ => by simp
  rw [hwithout]
  omega

/-- With one step for everything that is fresh or in the queue, the queue is listed, and what it
reaches through fresh vertices. -/
theorem mem_floodWithin_iff {limit : Nat} {fresh queue : List α} {v : α}
    (hlimit : fresh.length + queue.length ≤ limit) :
    v ∈ floodWithin successors limit fresh queue ↔
      ∃ w ∈ queue, ReflTransGen (fun a b => b ∈ successors a ∧ b ∈ fresh) w v := by
  induction limit generalizing fresh queue with
  | zero =>
      rw [List.length_eq_zero_iff.mp (show queue.length = 0 by omega)]
      simp [floodWithin]
  | succ limit ih =>
      cases queue with
      | nil => simp [floodWithin]
      | cons u queue =>
          have hnew := length_newSuccessors successors fresh u
          rw [List.length_cons] at hlimit
          rw [floodWithin, List.mem_cons, ih (by rw [List.length_append]; omega)]
          clear ih
          constructor
          · rintro (rfl | ⟨w, hw, hreach⟩)
            · exact ⟨v, List.mem_cons_self, .refl⟩
            · have hreach : ReflTransGen (fun a b => b ∈ successors a ∧ b ∈ fresh) w v :=
                ReflTransGen.mono
                  (fun _ _ hstep => ⟨hstep.1, (mem_without.mp hstep.2).1⟩) w v hreach
              rcases List.mem_append.mp hw with hw | hw
              · exact ⟨u, List.mem_cons_self, .head (mem_newSuccessors.mp hw) hreach⟩
              · exact ⟨w, List.mem_cons_of_mem _ hw, hreach⟩
          · rintro ⟨w, hw, hreach⟩
            -- A vertex that stops being fresh on the way is in the queue, and reaches the rest.
            induction hreach with
            | refl =>
                rcases List.mem_cons.mp hw with rfl | hw
                · exact .inl rfl
                · exact .inr ⟨w, List.mem_append_right _ hw, .refl⟩
            | @tail a b _ hstep ihreach =>
                by_cases hb : b ∈ newSuccessors successors fresh u
                · exact .inr ⟨b, List.mem_append_left _ hb, .refl⟩
                · rcases ihreach with rfl | ⟨x, hx, hreach⟩
                  · exact absurd (mem_newSuccessors.mpr hstep) hb
                  · exact .inr ⟨x, hx, hreach.tail ⟨hstep.1, mem_without.mpr ⟨hstep.2, hb⟩⟩⟩

/-- **A flood lists its queue and what the queue reaches** through fresh vertices. -/
theorem mem_flood_iff {fresh queue : List α} {v : α} :
    v ∈ flood successors fresh queue ↔
      ∃ w ∈ queue, ReflTransGen (fun a b => b ∈ successors a ∧ b ∈ fresh) w v :=
  mem_floodWithin_iff (Nat.le_refl _)

theorem floodWithin_nodup {limit : Nat} {fresh queue : List α} (h : (fresh ++ queue).Nodup) :
    (floodWithin successors limit fresh queue).Nodup ∧
      floodWithin successors limit fresh queue ⊆ fresh ++ queue := by
  induction limit generalizing fresh queue with
  | zero => simp [floodWithin]
  | succ limit ih =>
      cases queue with
      | nil => simp [floodWithin]
      | cons v queue =>
          obtain ⟨hfresh, hqueue, hapart⟩ := List.nodup_append'.mp h
          obtain ⟨hvfresh, hapart⟩ := List.disjoint_cons_right.mp hapart
          obtain ⟨hv, hqueue⟩ := List.nodup_cons.mp hqueue
          rw [floodWithin]
          generalize hnew : newSuccessors successors fresh v = new
          have hnewFresh : new ⊆ fresh := by
            intro w hw
            rw [← hnew] at hw
            exact (mem_newSuccessors.mp hw).2
          have hnewNodup : new.Nodup := hnew ▸ nodup_eraseDups _
          -- The vertices that are new move from the fresh ones to the queue.
          have hmoved : (without fresh new ++ (new ++ queue)).Nodup := by
            refine List.nodup_append'.mpr ⟨hfresh.filter _, ?_, ?_⟩
            · exact List.nodup_append'.mpr
                ⟨hnewNodup, hqueue, fun w hw => hapart (hnewFresh hw)⟩
            · intro w hw hw'
              obtain ⟨hwfresh, hwnew⟩ := mem_without.mp hw
              rcases List.mem_append.mp hw' with hw' | hw'
              · exact hwnew hw'
              · exact hapart hwfresh hw'
          have hsub : without fresh new ++ (new ++ queue) ⊆ fresh ++ queue := by
            intro w hw
            simp only [List.mem_append, mem_without] at hw ⊢
            rcases hw with hw | hw | hw
            · exact .inl hw.1
            · exact .inl (hnewFresh hw)
            · exact .inr hw
          obtain ⟨hnodup, hlisted⟩ := ih hmoved
          refine ⟨List.nodup_cons.mpr ⟨fun hmem => ?_, hnodup⟩, List.cons_subset.mpr ⟨by simp, ?_⟩⟩
          · rcases List.mem_append.mp (hsub (hlisted hmem)) with hmem | hmem
            · exact hvfresh hmem
            · exact hv hmem
          · intro w hw
            have hw := hsub (hlisted hw)
            simp only [List.mem_append, List.mem_cons] at hw ⊢
            exact hw.imp_right .inr

/-- A flood lists nothing twice, when nothing is fresh and in the queue. -/
theorem flood_nodup {fresh queue : List α} (h : (fresh ++ queue).Nodup) :
    (flood successors fresh queue).Nodup :=
  (floodWithin_nodup h).1

end PlayerPaths
