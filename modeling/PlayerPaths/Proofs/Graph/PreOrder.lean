import PlayerPaths.Proofs.Graph.Traversal

/-!
# Depth-first order is the order of a recursive traversal

A recursive traversal visits vertices one after another. A vertex whose key was visited is skipped;
any other vertex is listed, and its successors are visited before the vertices behind it
(`PreOrder`). What such a traversal lists is known from its rules alone: every key once, and those
keys that chains of successors lead to.

The explicit stack of `depthFirst` holds vertices twice, and some that were visited since they were
put there, and still lists what the recursive traversal lists (`depthFirst_preOrder`). So does an
iteration that gives out one vertex at a time and keeps no list of fresh keys
(`PreOrder.iterates`).
-/

namespace PlayerPaths

open Relation

variable {α κ : Type} {key : α → κ} {successors : α → List α}

/-- **The recursive traversal** of vertices, one after another: the keys that were visited before
it, the vertices that it lists, and the keys that are visited behind it. -/
inductive PreOrder (key : α → κ) (successors : α → List α) :
    (visited : List κ) → (vertices listed : List α) → (after : List κ) → Prop
  | nil {visited : List κ} : PreOrder key successors visited [] [] visited
  | skip {visited after : List κ} {v : α} {vs listed : List α} : key v ∈ visited →
      PreOrder key successors visited vs listed after →
      PreOrder key successors visited (v :: vs) listed after
  | visit {visited between after : List κ} {v : α} {vs below listed : List α} : key v ∉ visited →
      PreOrder key successors (key v :: visited) (successors v) below between →
      PreOrder key successors between vs listed after →
      PreOrder key successors visited (v :: vs) (v :: (below ++ listed)) after

namespace PreOrder

variable {visited after : List κ} {vs listed : List α}

/-- The recursive traversal lists one thing. -/
theorem unique {listed' : List α} {after' : List κ}
    (h : PreOrder key successors visited vs listed after)
    (h' : PreOrder key successors visited vs listed' after') :
    listed = listed' ∧ after = after' := by
  induction h generalizing listed' after' with
  | nil =>
      cases h'
      exact ⟨rfl, rfl⟩
  | skip hv _ ih =>
      cases h' with
      | skip _ h' => exact ih h'
      | visit hv' => exact absurd hv hv'
  | visit hv _ _ ihbelow ih =>
      cases h' with
      | skip hv' => exact absurd hv' hv
      | visit _ hbelow' h' =>
          obtain ⟨rfl, rfl⟩ := ihbelow hbelow'
          obtain ⟨rfl, rfl⟩ := ih h'
          exact ⟨rfl, rfl⟩

/-- What is listed becomes visited, and nothing else does. -/
theorem mem_after (h : PreOrder key successors visited vs listed after) (k : κ) :
    k ∈ after ↔ k ∈ visited ∨ k ∈ listed.map key := by
  induction h with
  | nil => simp
  | skip _ _ ih => exact ih
  | visit _ _ _ ihbelow ih =>
      rw [ih, ihbelow]
      simp only [List.map_cons, List.map_append, List.mem_cons, List.mem_append, or_assoc]
      exact or_left_comm

/-- No key is listed twice, and none that was visited before. -/
theorem nodup (h : PreOrder key successors visited vs listed after) :
    (listed.map key).Nodup ∧ ∀ k ∈ listed.map key, k ∉ visited := by
  induction h with
  | nil => simp
  | skip _ _ ih => exact ih
  | @visit visited between after v vs below listed hv hbelow _ ihbelow ih =>
      obtain ⟨hbelowNodup, hbelowNew⟩ := ihbelow
      obtain ⟨hnodup, hnew⟩ := ih
      have hbetween : ∀ k ∈ listed.map key, k ≠ key v ∧ k ∉ visited ∧ k ∉ below.map key := by
        intro k hk
        simpa [hbelow.mem_after, and_assoc] using hnew k hk
      have hbelowNew : ∀ k ∈ below.map key, k ≠ key v ∧ k ∉ visited := by
        intro k hk
        simpa using hbelowNew k hk
      rw [List.map_cons, List.map_append]
      constructor
      · refine List.nodup_cons.mpr ⟨fun hmem => ?_, ?_⟩
        · rcases List.mem_append.mp hmem with hmem | hmem
          · exact (hbelowNew _ hmem).1 rfl
          · exact (hbetween _ hmem).1 rfl
        · refine List.nodup_append'.mpr ⟨hbelowNodup, hnodup, fun k hk hk' => ?_⟩
          exact (hbetween k hk').2.2 hk
      · intro k hk
        rcases List.mem_cons.mp hk with rfl | hk
        · exact hv
        rcases List.mem_append.mp hk with hk | hk
        · exact (hbelowNew k hk).2
        · exact (hbetween k hk).2.1

/-- A vertex that is listed is reached from what is visited, through listed vertices. -/
theorem reached (h : PreOrder key successors visited vs listed after) :
    ∀ u ∈ listed, ∃ w ∈ vs, ReflTransGen (fun a b => a ∈ listed ∧ b ∈ successors a) w u := by
  induction h with
  | nil => simp
  | skip _ _ ih =>
      intro u hu
      obtain ⟨w, hw, hchain⟩ := ih u hu
      exact ⟨w, List.mem_cons_of_mem _ hw, hchain⟩
  | @visit visited between after v vs below listed _ _ _ ihbelow ih =>
      have hmono : ∀ part : List α, part ⊆ v :: (below ++ listed) → ∀ {a b : α},
          ReflTransGen (fun a b => a ∈ part ∧ b ∈ successors a) a b →
          ReflTransGen (fun a b => a ∈ v :: (below ++ listed) ∧ b ∈ successors a) a b :=
        fun part hpart a b => ReflTransGen.mono (fun _ _ hstep => ⟨hpart hstep.1, hstep.2⟩) a b
      intro u hu
      rcases List.mem_cons.mp hu with rfl | hu
      · exact ⟨u, List.mem_cons_self, .refl⟩
      rcases List.mem_append.mp hu with hu | hu
      · obtain ⟨w, hw, hchain⟩ := ihbelow u hu
        have hchain := hmono below (fun a ha => by simp [ha]) hchain
        exact ⟨v, List.mem_cons_self, .head ⟨List.mem_cons_self, hw⟩ hchain⟩
      · obtain ⟨w, hw, hchain⟩ := ih u hu
        exact ⟨w, List.mem_cons_of_mem _ hw, hmono listed (fun a ha => by simp [ha]) hchain⟩

/-- Everything that is to be visited is visited, and so are the successors of what is listed. -/
theorem closed (h : PreOrder key successors visited vs listed after) :
    (∀ w ∈ vs, key w ∈ after) ∧ ∀ u ∈ listed, ∀ w ∈ successors u, key w ∈ after := by
  induction h with
  | nil => simp
  | skip hv h ih =>
      obtain ⟨hvs, hlisted⟩ := ih
      exact ⟨List.forall_mem_cons.mpr ⟨(h.mem_after _).mpr (.inl hv), hvs⟩, hlisted⟩
  | @visit visited between after v vs below listed _ hbelow h ihbelow ih =>
      obtain ⟨hsuccessors, hbelowClosed⟩ := ihbelow
      obtain ⟨hvs, hlisted⟩ := ih
      have hlater : ∀ {k}, k ∈ between → k ∈ after := fun hk => (h.mem_after _).mpr (.inl hk)
      have hv : key v ∈ between := (hbelow.mem_after _).mpr (.inl List.mem_cons_self)
      refine ⟨List.forall_mem_cons.mpr ⟨hlater hv, hvs⟩, ?_⟩
      refine List.forall_mem_cons.mpr ⟨fun w hw => hlater (hsuccessors w hw), fun u hu w hw => ?_⟩
      rcases List.mem_append.mp hu with hu | hu
      · exact hlater (hbelowClosed u hu w hw)
      · exact hlisted u hu w hw

/-! ## From a root -/

section

variable {root : α} (h : PreOrder key successors [] [root] listed after)

include h

theorem head? : listed.head? = some root := by
  cases h with
  | skip hv => cases hv
  | visit => rfl

/-- Listed vertices lead from the root to a listed vertex. -/
theorem chain {v : α} (hv : v ∈ listed) :
    ReflTransGen (fun a b => a ∈ listed ∧ b ∈ successors a) root v := by
  obtain ⟨w, hw, hchain⟩ := h.reached v hv
  obtain rfl := List.mem_singleton.mp hw
  exact hchain

/-- The traversal of a root lists the keys that chains of successors of what is listed lead to. -/
theorem mem_keys_iff {k : κ} : k ∈ listed.map key ↔
    ∃ v, ReflTransGen (fun a b => a ∈ listed ∧ b ∈ successors a) root v ∧ key v = k := by
  have hafter : ∀ {k}, k ∈ after → k ∈ listed.map key := fun hk => by
    simpa using (h.mem_after _).mp hk
  constructor
  · intro hk
    obtain ⟨v, hv, rfl⟩ := List.mem_map.mp hk
    exact ⟨v, h.chain hv, rfl⟩
  · rintro ⟨v, hchain, rfl⟩
    obtain ⟨hroot, hsuccessors⟩ := h.closed
    rcases hchain.cases_tail with rfl | ⟨a, -, ha, hv⟩
    · exact hafter (hroot _ List.mem_cons_self)
    · exact hafter (hsuccessors a ha v hv)

/-- Where vertices of one key have the same successors, it does not matter which of them are
listed. -/
theorem mem_keys_iff_of_agree
    (hagree : ∀ a b, ReflTransGen (fun a b => b ∈ successors a) root a →
      ReflTransGen (fun a b => b ∈ successors a) root b → key a = key b →
      successors a = successors b) {k : κ} :
    k ∈ listed.map key ↔ ∃ v, ReflTransGen (fun a b => b ∈ successors a) root v ∧ key v = k := by
  have hforget : ∀ {v}, ReflTransGen (fun a b => a ∈ listed ∧ b ∈ successors a) root v →
      ReflTransGen (fun a b => b ∈ successors a) root v :=
    fun {v} => ReflTransGen.mono (fun _ _ hstep => hstep.2) root v
  constructor
  · intro hk
    obtain ⟨v, hchain, rfl⟩ := h.mem_keys_iff.mp hk
    exact ⟨v, hforget hchain, rfl⟩
  · rintro ⟨v, hchain, rfl⟩
    induction hchain with
    | refl => exact h.mem_keys_iff.mpr ⟨root, .refl, rfl⟩
    | @tail a b hchain hb ih =>
        -- The vertex that was listed for `a` has `b` as a successor, too.
        obtain ⟨a', ha', hkey⟩ := List.mem_map.mp ih
        have heq := hagree a' a (hforget (h.chain ha')) hchain hkey
        exact h.mem_keys_iff.mpr ⟨b, (h.chain ha').tail ⟨ha', heq ▸ hb⟩, rfl⟩

end

end PreOrder

/-! ## The explicit stack -/

variable [DecidableEq κ]

/-- Of the keys that there are, those are fresh that were not visited. -/
structure Complementary (keys fresh visited : List κ) : Prop where
  nodup : fresh.Nodup
  mem_iff : ∀ k ∈ keys, (k ∈ fresh ↔ k ∉ visited)

theorem Complementary.visit {keys fresh visited : List κ} (h : Complementary keys fresh visited)
    (k : κ) : Complementary keys (fresh.erase k) (k :: visited) where
  nodup := h.nodup.erase k
  mem_iff j hj := by
    rw [h.nodup.mem_erase_iff, h.mem_iff j hj, List.mem_cons, not_or]

theorem depthFirst_nil {fresh : List κ} : depthFirst key successors fresh [] = [] := by
  unfold depthFirst
  cases fresh.length <;> rfl

/-- The vertices on top of a stack are listed by the recursive traversal, and what is fresh then is
left for the rest of the stack. -/
theorem exists_preOrder {keys : List κ}
    (hclosed : ∀ v, key v ∈ keys → ∀ w ∈ successors v, key w ∈ keys) {fresh visited : List κ}
    (h : Complementary keys fresh visited) {vs : List α} (hvs : ∀ v ∈ vs, key v ∈ keys) :
    ∃ listed after rest, PreOrder key successors visited vs listed after ∧
      Complementary keys rest after ∧ rest.length ≤ fresh.length ∧
      ∀ stack, depthFirst key successors fresh (vs ++ stack) =
        listed ++ depthFirst key successors rest stack := by
  induction hlength : fresh.length using Nat.strong_induction_on generalizing fresh visited vs with
  | _ n ih =>
    subst hlength
    induction vs with
    | nil => exact ⟨[], visited, fresh, .nil, h, Nat.le_refl _, fun stack => rfl⟩
    | cons v vs ihvs =>
        obtain ⟨hv, hvs⟩ := List.forall_mem_cons.mp hvs
        by_cases hfresh : key v ∈ fresh
        · have hlt : (fresh.erase (key v)).length < fresh.length := by
            have := List.length_pos_of_mem hfresh
            rw [List.length_erase_of_mem hfresh]
            omega
          obtain ⟨below, between, rest, hbelow, hrest, hle, hstack⟩ :=
            ih _ hlt (h.visit (key v)) (hclosed v hv) rfl
          obtain ⟨listed, after, rest', hlisted, hrest', hle', hstack'⟩ :=
            ih _ (by omega) hrest hvs rfl
          refine ⟨v :: (below ++ listed), after, rest',
            .visit ((h.mem_iff _ hv).mp hfresh) hbelow hlisted, hrest', by omega, fun stack => ?_⟩
          rw [List.cons_append, depthFirst_cons, if_pos hfresh, hstack, hstack',
            List.cons_append, List.append_assoc]
        · obtain ⟨listed, after, rest, hlisted, hrest, hle, hstack⟩ := ihvs hvs
          have hvisited : key v ∈ visited := by
            by_contra hnot
            exact hfresh ((h.mem_iff _ hv).mpr hnot)
          refine ⟨listed, after, rest, .skip hvisited hlisted, hrest, hle, fun stack => ?_⟩
          rw [List.cons_append, depthFirst_cons, if_neg hfresh, hstack]

/-- **The explicit stack lists what the recursive traversal lists.** -/
theorem depthFirst_preOrder {keys : List κ} (hkeys : keys.Nodup)
    (hclosed : ∀ v, key v ∈ keys → ∀ w ∈ successors v, key w ∈ keys) {vs : List α}
    (hvs : ∀ v ∈ vs, key v ∈ keys) :
    ∃ after, PreOrder key successors [] vs (depthFirst key successors keys vs) after := by
  have hstart : Complementary keys keys [] := ⟨hkeys, fun k hk => by simp [hk]⟩
  obtain ⟨listed, after, rest, hlisted, -, -, hstack⟩ := exists_preOrder hclosed hstart hvs
  refine ⟨after, ?_⟩
  have heq := hstack []
  rw [List.append_nil, depthFirst_nil, List.append_nil] at heq
  rwa [heq]

/-! ## One vertex at a time -/

/-- What is left of an iteration: the vertices to look at, and the keys that were visited. -/
structure Iteration (α κ : Type) where
  stack : List α
  visited : List κ

namespace Iteration

/-- The next vertex, and the iteration behind it. What was visited is dropped from the stack, and
the successors that were not are put on it. -/
def next? (key : α → κ) (successors : α → List α) (i : Iteration α κ) :
    Option (α × Iteration α κ) :=
  match i.stack.dropWhile fun v => decide (key v ∈ i.visited) with
  | [] => none
  | v :: stack =>
    let visited := key v :: i.visited
    some (v, ⟨(successors v).filter (fun w => decide (key w ∉ visited)) ++ stack, visited⟩)

/-- An iteration gives vertices one after another, and ends. -/
inductive Gives (key : α → κ) (successors : α → List α) : Iteration α κ → List α → Prop
  | done {i : Iteration α κ} : i.next? key successors = none → Gives key successors i []
  | next {i rest : Iteration α κ} {v : α} {vs : List α} :
      i.next? key successors = some (v, rest) → Gives key successors rest vs →
      Gives key successors i (v :: vs)

/-- An iteration gives one list. -/
theorem Gives.unique {i : Iteration α κ} {vs ws : List α} (h : Gives key successors i vs)
    (h' : Gives key successors i ws) : vs = ws := by
  induction h generalizing ws with
  | done hi =>
      cases h' with
      | done => rfl
      | next hi' => cases hi.symm.trans hi'
  | next hi _ ih =>
      cases h' with
      | done hi' => cases hi.symm.trans hi'
      | next hi' h' =>
          obtain ⟨rfl, rfl⟩ := Prod.mk.inj (Option.some.inj (hi.symm.trans hi'))
          rw [ih h']

/-- The part of a stack that was not visited. -/
def pending (key : α → κ) (visited : List κ) (stack : List α) : List α :=
  stack.filter fun v => decide (key v ∉ visited)

theorem next?_eq_none {visited : List κ} {stack : List α} (h : pending key visited stack = []) :
    (⟨stack, visited⟩ : Iteration α κ).next? key successors = none := by
  have hdrop : (stack.dropWhile fun v => decide (key v ∈ visited)) = [] := by
    rw [List.dropWhile_eq_nil_iff]
    intro v hv
    simpa using List.filter_eq_nil_iff.mp h v hv
  simp only [next?, hdrop]

theorem exists_next? {visited : List κ} {stack rest : List α} {v : α}
    (h : pending key visited stack = v :: rest) :
    ∃ below, pending key visited below = rest ∧
      (⟨stack, visited⟩ : Iteration α κ).next? key successors =
        some (v, ⟨pending key (key v :: visited) (successors v) ++ below, key v :: visited⟩) := by
  obtain ⟨before, below, rfl, hbefore, hv, hrest⟩ := List.filter_eq_cons_iff.mp h
  have hdrop : ((before ++ v :: below).dropWhile fun v => decide (key v ∈ visited)) =
      v :: below := by
    rw [List.dropWhile_append_of_pos (by simpa using hbefore), List.dropWhile_cons_of_neg]
    simpa using hv
  exact ⟨below, hrest, by simp only [next?, hdrop, pending]⟩

/-- Stacks with one unvisited part still have one when more was visited. -/
theorem pending_congr {visited : List κ} {stack stack' : List α} (k : κ)
    (h : pending key visited stack = pending key visited stack') :
    pending key (k :: visited) stack = pending key (k :: visited) stack' := by
  have hrefine : ∀ stack : List α, pending key (k :: visited) stack =
      (pending key visited stack).filter fun v => decide (key v ≠ k) := by
    intro stack
    rw [pending, pending, List.filter_filter]
    exact List.filter_congr fun v _ => by simp
  rw [hrefine, hrefine, h]

end Iteration

open Iteration in
/-- An iteration whose stack begins with the vertices of a recursive traversal, up to what was
visited, gives what the traversal lists, and goes on with the rest of the stack. -/
theorem PreOrder.iterates_append {visited after : List κ} {vs listed : List α}
    (h : PreOrder key successors visited vs listed after) {stack rest others : List α}
    (hstack : pending key visited stack = pending key visited (vs ++ rest))
    (hrest : ∀ stack, pending key after stack = pending key after rest →
      Gives key successors ⟨stack, after⟩ others) :
    Gives key successors ⟨stack, visited⟩ (listed ++ others) := by
  induction h generalizing stack rest others with
  | nil => exact hrest stack hstack
  | skip hv _ ih =>
      refine ih ?_ hrest
      rw [hstack, pending, List.cons_append, List.filter_cons_of_neg (by simpa using hv), pending]
  | @visit visited between after v vs below listed hv _ _ ihbelow ih =>
      rw [pending, pending, List.cons_append, List.filter_cons_of_pos (by simpa using hv)] at hstack
      obtain ⟨stack', hstack', hnext⟩ := exists_next? hstack
      rw [List.cons_append, List.append_assoc]
      have hbetween : ∀ stack, pending key between stack = pending key between (vs ++ rest) →
          Gives key successors ⟨stack, between⟩ (listed ++ others) :=
        fun stack hbetween => ih hbetween hrest
      refine .next hnext (ihbelow ?_ hbetween)
      have hcongr := pending_congr (key v) hstack'
      simp only [pending, List.filter_append, List.filter_filter, Bool.and_self] at hcongr ⊢
      rw [hcongr]

/-- **An iteration gives what the recursive traversal lists, and ends.** -/
theorem PreOrder.iterates {vs listed : List α} {after : List κ}
    (h : PreOrder key successors [] vs listed after) :
    Iteration.Gives key successors ⟨vs, []⟩ listed := by
  have hend : ∀ stack : List α, Iteration.pending key after stack = Iteration.pending key after [] →
      Iteration.Gives key successors ⟨stack, after⟩ [] :=
    fun stack hstack => .done (Iteration.next?_eq_none hstack)
  have hstack : Iteration.pending key ([] : List κ) vs = Iteration.pending key [] (vs ++ []) := by
    rw [List.append_nil]
  simpa using h.iterates_append hstack hend

end PlayerPaths
