import PlayerPaths.Dependence.Slice
import PlayerPaths.Proofs.Dependence.Graph
import PlayerPaths.Proofs.Flow.Resolve
import PlayerPaths.Proofs.Graph.Traversal

/-!
# The slice is the backward closure

A slice is known by the offsets and methods that it has, since offsets are kept in order
(`Slice.Ordered.toList_eq`). What `computeSlice` covers is the closure of the instructions that
depend on input: the nodes that reach one of them along the edges, themselves included.

No other order would cover anything else. A traversal may take any node off its queue and put what
the node depends on there in any order (`Visit`). All that is known is part of the closure, and
what has been visited depends on known nodes only (`Frontier`), so that the closure has been visited
once nothing is left in the queue (`computeSlice_exact`).
-/

namespace PlayerPaths

open IL Std Relation

/-! ## What a slice has -/

namespace Slice

variable {s s' : Slice} {signature sig : String} {offsets : List Nat} {o : Nat}

/-- The offsets of every method increase. -/
def Ordered (s : Slice) : Prop :=
  ∀ (signature : String) offsets, s.methods[signature]? = some offsets →
    Sorted.Increasing compare offsets

theorem ordered_empty : empty.Ordered := by
  intro signature offsets h
  simp [empty] at h

theorem Ordered.getD (h : s.Ordered) (signature : String) :
    Sorted.Increasing compare (s.methods.getD signature []) := by
  rw [TreeMap.getD_eq_getD_getElem?]
  cases hoffsets : s.methods[signature]? with
  | none => exact .nil
  | some offsets => exact h signature offsets hoffsets

theorem Ordered.add (h : s.Ordered) : (s.add signature offsets).Ordered := by
  intro sig offsets' hoffsets'
  rw [Slice.add, TreeMap.getElem?_insert] at hoffsets'
  split at hoffsets'
  · obtain rfl := Option.some.inj hoffsets'
    exact (h.getD signature).union offsets
  · exact h sig offsets' hoffsets'

theorem contains_add : (s.add signature offsets).contains sig o = true ↔
    s.contains sig o = true ∨ sig = signature ∧ o ∈ offsets := by
  simp only [contains, Slice.add, TreeMap.getD_insert, List.contains_iff_mem]
  split
  · next heq =>
    obtain rfl := LawfulEqCmp.eq_of_compare heq
    rw [Sorted.mem_union]
    simp
  · next hne =>
    have hne : sig ≠ signature := fun heq => hne (Std.compare_eq_iff_eq.mpr heq.symm)
    simp [hne]

theorem containsMethod_add : (s.add signature offsets).containsMethod sig = true ↔
    s.containsMethod sig = true ∨ sig = signature := by
  simp only [containsMethod, Slice.add, TreeMap.contains_insert, Bool.or_eq_true, beq_iff_eq,
    Std.compare_eq_iff_eq]
  rw [or_comm, eq_comm (a := signature)]

/-- **A slice is known by what it has.** -/
theorem Ordered.toList_eq (h : s.Ordered) (h' : s'.Ordered)
    (hmethods : ∀ signature, s.containsMethod signature = true ↔ s'.containsMethod signature = true)
    (hoffsets : ∀ signature o, s.contains signature o = true ↔ s'.contains signature o = true) :
    s.methods.toList = s'.methods.toList := by
  refine (TreeMap.Equiv.of_forall_constGet?_eq fun signature => ?_).toList_eq
  have hsame : s.methods.getD signature [] = s'.methods.getD signature [] := by
    have hiff : ∀ o, o ∈ s.methods.getD signature [] ↔ o ∈ s'.methods.getD signature [] := by
      intro o
      simpa only [contains, List.contains_iff_mem] using hoffsets signature o
    refine (h.getD signature).eq_of_subset (h'.getD signature) (fun o => (hiff o).mp) ?_
    exact (List.subperm_of_subset (h'.getD signature).nodup fun o => (hiff o).mpr).length_le
  have hboth := hmethods signature
  simp only [containsMethod, TreeMap.contains_eq_isSome_getElem?] at hboth
  rw [TreeMap.getD_eq_getD_getElem?, TreeMap.getD_eq_getD_getElem?] at hsame
  cases hfirst : s.methods[signature]? <;> cases hsecond : s'.methods[signature]? <;>
    simp_all

end Slice

/-! ## What a node puts into a slice -/

namespace DependenceNode

variable {p : Program} {s s' : Slice} {n : DependenceNode} {signature : String} {o : Nat}

/-- A node that stands for an instruction covers its offsets, in the method of the instruction. -/
def Covers (p : Program) (n : DependenceNode) (signature : String) (o : Nat) : Prop :=
  ∃ node m i, n = .instruction node ∧ node.method = signature ∧
    p.requireMethod signature = .ok m ∧ m.instruction node.location = .ok i ∧ o ∈ i.offsets

/-- The entry of a method and its instructions belong to the method. -/
def BelongsTo (n : DependenceNode) (signature : String) : Prop :=
  n = .method signature ∨ ∃ node, n = .instruction node ∧ node.method = signature

/-- What covering a node adds to a slice: the entry of a method adds the method, an instruction its
offsets, and a field nothing. -/
theorem cover_eq_ok : s.cover p n = .ok s' ↔
    (∃ signature, n = .method signature ∧ s' = s.add signature []) ∨
    (∃ signature, n = .field signature ∧ s' = s) ∨
    ∃ node m i, n = .instruction node ∧ p.requireMethod node.method = .ok m ∧
      m.instruction node.location = .ok i ∧ s' = s.add node.method i.offsets := by
  cases n with
  | method signature => simp [Slice.cover, pure_eq_ok, eq_comm (a := s')]
  | field signature => simp [Slice.cover, pure_eq_ok, eq_comm (a := s')]
  | instruction node =>
      simp only [Slice.cover, bind_eq_ok, pure_eq_ok, instruction.injEq, reduceCtorEq, false_and,
        exists_false, false_or, eq_comm (a := s')]
      constructor
      · rintro ⟨m, hm, i, hi, hs⟩
        exact ⟨node, m, i, rfl, hm, hi, hs⟩
      · rintro ⟨node', m, i, rfl, hm, hi, hs⟩
        exact ⟨m, hm, i, hi, hs⟩

/-- Whether a node can be covered does not depend on the slice. -/
theorem exists_cover (h : s.cover p n = .ok s') (t : Slice) : ∃ t', t.cover p n = .ok t' := by
  rcases cover_eq_ok.mp h with ⟨signature, hn, -⟩ | ⟨signature, hn, -⟩ | ⟨node, m, i, hn, hm, hi, -⟩
  · exact ⟨_, cover_eq_ok.mpr (.inl ⟨signature, hn, rfl⟩)⟩
  · exact ⟨_, cover_eq_ok.mpr (.inr (.inl ⟨signature, hn, rfl⟩))⟩
  · exact ⟨_, cover_eq_ok.mpr (.inr (.inr ⟨node, m, i, hn, hm, hi, rfl⟩))⟩

end DependenceNode

namespace Slice

open DependenceNode

variable {p : Program} {s s' : Slice} {n : DependenceNode} {nodes : List DependenceNode}

/-- A slice has what some nodes put there. -/
structure Has (p : Program) (s : Slice) (nodes : DependenceNode → Prop) : Prop where
  ordered : s.Ordered
  offsets : ∀ signature o, s.contains signature o = true ↔ ∃ n, nodes n ∧ n.Covers p signature o
  methods : ∀ signature, s.containsMethod signature = true ↔ ∃ n, nodes n ∧ n.BelongsTo signature

theorem has_empty : empty.Has p fun _ => False where
  ordered := ordered_empty
  offsets := by simp [empty, contains]
  methods := by simp [empty, containsMethod]

theorem Has.congr {nodes nodes' : DependenceNode → Prop} (h : s.Has p nodes)
    (hnodes : ∀ n, nodes n ↔ nodes' n) : s.Has p nodes' := by
  rwa [show nodes' = nodes from funext fun n => propext (hnodes n).symm]

/-- Two slices with what the same nodes put there are the same. -/
theorem Has.toList_eq {nodes : DependenceNode → Prop} (h : s.Has p nodes) (h' : s'.Has p nodes) :
    s.methods.toList = s'.methods.toList :=
  h.ordered.toList_eq h'.ordered (fun signature => (h.methods signature).trans
    (h'.methods signature).symm) fun signature o => (h.offsets signature o).trans
    (h'.offsets signature o).symm

/-- Covering a node puts there what it stands for. -/
theorem Has.cover {nodes : DependenceNode → Prop} (h : s.Has p nodes)
    (hcover : s.cover p n = .ok s') : s'.Has p fun k => nodes k ∨ k = n := by
  have hadds : s'.Ordered ∧
      (∀ signature o, s'.contains signature o = true ↔
        s.contains signature o = true ∨ n.Covers p signature o) ∧
      ∀ signature, s'.containsMethod signature = true ↔
        s.containsMethod signature = true ∨ n.BelongsTo signature := by
    rcases cover_eq_ok.mp hcover with ⟨key, rfl, rfl⟩ | ⟨key, rfl, rfl⟩ |
      ⟨node, m, i, rfl, hm, hi, rfl⟩
    · refine ⟨h.ordered.add, fun signature o => ?_, fun signature => ?_⟩
      · simp [contains_add, Covers]
      · simp [containsMethod_add, BelongsTo, eq_comm (a := key)]
    · exact ⟨h.ordered, fun signature o => by simp [Covers], fun signature => by simp [BelongsTo]⟩
    · refine ⟨h.ordered.add, fun signature o => ?_, fun signature => ?_⟩
      · rw [contains_add]
        refine or_congr_right ⟨?_, ?_⟩
        · rintro ⟨rfl, ho⟩
          exact ⟨node, m, i, rfl, rfl, hm, hi, ho⟩
        · rintro ⟨node', m', i', hnode, rfl, hm', hi', ho⟩
          obtain rfl := DependenceNode.instruction.inj hnode
          obtain rfl := Except.ok.inj (hm.symm.trans hm')
          obtain rfl := Except.ok.inj (hi.symm.trans hi')
          exact ⟨rfl, ho⟩
      · simp [containsMethod_add, BelongsTo, eq_comm (a := signature)]
  obtain ⟨hordered, hoffsets, hmethods⟩ := hadds
  refine ⟨hordered, fun signature o => ?_, fun signature => ?_⟩
  · simp only [hoffsets, h.offsets, or_and_right, exists_or, exists_eq_left]
  · simp only [hmethods, h.methods, or_and_right, exists_or, exists_eq_left]

end Slice

/-! ## Traversals in any order -/

structure Traversal where
  /-- What is to be visited. -/
  queue : List DependenceNode
  /-- Everything that has ever been in the queue. -/
  known : List DependenceNode
  /-- What the visited nodes have put there. -/
  slice : Slice

namespace Traversal

def start (queue : List DependenceNode) : Traversal := ⟨queue, queue, .empty⟩

end Traversal

/-- A visit takes any node off the queue and covers it. What the node depends on directly enters the
queue in any order, unless it is known. -/
inductive Visit (p : Program) (g : DependenceGraph) (t : Traversal) : Traversal → Prop where
  | take {n : DependenceNode} {rest new : List DependenceNode} {slice : Slice}
      (taken : t.queue.Perm (n :: rest)) (covered : t.slice.cover p n = .ok slice)
      (entered : new.Perm (without (g.incoming n) t.known).eraseDups) :
      Visit p g t ⟨new ++ rest, new ++ t.known, slice⟩

/-- The nodes that reach some root against the edges, and the roots. -/
def DependenceGraph.Above (g : DependenceGraph) (roots : List DependenceNode)
    (n : DependenceNode) : Prop :=
  ∃ root ∈ roots, ReflTransGen (fun a b => a ∈ g.incoming b) n root

/-- What holds of every traversal from some roots, given what it has visited. -/
structure Frontier (p : Program) (g : DependenceGraph) (roots : List DependenceNode)
    (visited : DependenceNode → Prop) (t : Traversal) : Prop where
  slice : t.slice.Has p visited
  coverable : ∀ n, visited n → ∃ s, Slice.empty.cover p n = .ok s
  known : ∀ n, n ∈ t.known ↔ visited n ∨ n ∈ t.queue
  rooted : ∀ n ∈ roots, n ∈ t.known
  above : ∀ n ∈ t.known, g.Above roots n
  closed : ∀ n, visited n → ∀ k ∈ g.incoming n, k ∈ t.known

section

variable {p : Program} {g : DependenceGraph} {roots queue : List DependenceNode}
  {visited : DependenceNode → Prop} {t t' : Traversal} {n : DependenceNode}

theorem frontier_start (h : queue.Perm roots) :
    Frontier p g roots (fun _ => False) (.start queue) where
  slice := Slice.has_empty
  coverable := fun _ hn => hn.elim
  known := by simp [Traversal.start]
  rooted := fun n hn => h.mem_iff.mpr hn
  above := fun n hn => ⟨n, h.mem_iff.mp hn, .refl⟩
  closed := fun _ hn => hn.elim

/-- What enters the queue is what a node depends on and is not known. -/
theorem mem_entered {new : List DependenceNode} {k : DependenceNode}
    (h : new.Perm (without (g.incoming n) t.known).eraseDups) :
    k ∈ new ↔ k ∈ g.incoming n ∧ k ∉ t.known := by
  rw [h.mem_iff, List.mem_eraseDups, mem_without]

/-- A visit keeps the invariant. -/
theorem Frontier.visit (h : Frontier p g roots visited t) (hvisit : Visit p g t t') :
    ∃ visited', Frontier p g roots visited' t' := by
  obtain @⟨n, rest, new, slice, htaken, hcovered, hentered⟩ := hvisit
  have hqueue : ∀ k, k ∈ t.queue ↔ k = n ∨ k ∈ rest := fun k => by
    rw [htaken.mem_iff, List.mem_cons]
  have hn : n ∈ t.known := (h.known n).mpr (.inr ((hqueue n).mpr (.inl rfl)))
  refine ⟨fun k => visited k ∨ k = n, ?_⟩
  constructor
  · exact h.slice.cover hcovered
  · rintro k (hk | rfl)
    · exact h.coverable k hk
    · exact DependenceNode.exists_cover hcovered _
  · intro k
    simp only [List.mem_append, h.known, hqueue]
    tauto
  · exact fun k hk => List.mem_append_right _ (h.rooted k hk)
  · intro k hk
    rcases List.mem_append.mp hk with hk | hk
    · obtain ⟨root, hroot, hreach⟩ := h.above n hn
      exact ⟨root, hroot, .head ((mem_entered hentered).mp hk).1 hreach⟩
    · exact h.above k hk
  · intro k hk j hj
    rcases hk with hk | rfl
    · exact List.mem_append_right _ (h.closed k hk j hj)
    · by_cases hknown : j ∈ t.known
      · exact List.mem_append_right _ hknown
      · exact List.mem_append_left _ ((mem_entered hentered).mpr ⟨hj, hknown⟩)

/-- Every traversal keeps the invariant. -/
theorem frontier_of_run (h : queue.Perm roots) (hrun : ReflTransGen (Visit p g) (.start queue) t) :
    ∃ visited, Frontier p g roots visited t := by
  induction hrun with
  | refl => exact ⟨_, frontier_start h⟩
  | tail _ hvisit ih =>
      obtain ⟨visited, hfrontier⟩ := ih
      exact hfrontier.visit hvisit

/-- With nothing left in the queue, just what is above the roots has been visited. -/
theorem Frontier.visited_iff (h : Frontier p g roots visited t) (hqueue : t.queue = []) :
    visited n ↔ g.Above roots n := by
  have hknown : ∀ k, k ∈ t.known ↔ visited k := by
    intro k
    rw [h.known, hqueue]
    exact or_iff_left List.not_mem_nil
  constructor
  · intro hn
    exact h.above n ((hknown n).mpr hn)
  · rintro ⟨root, hroot, hreach⟩
    -- From the root against the edges, all that is met has been visited.
    induction hreach using ReflTransGen.head_induction_on with
    | refl => exact (hknown root).mp (h.rooted root hroot)
    | head hedge _ ih => exact (hknown _).mp (h.closed _ ih _ hedge)

/-- A traversal whose queue is not empty goes on, if all above the roots can be covered. -/
theorem Frontier.exists_visit (h : Frontier p g roots visited t)
    (hcoverable : ∀ n, g.Above roots n → ∃ s, Slice.empty.cover p n = .ok s)
    (hqueue : t.queue ≠ []) : ∃ t', Visit p g t t' := by
  obtain ⟨n, rest, hcons⟩ := List.exists_cons_of_ne_nil hqueue
  have hn : n ∈ t.queue := hcons ▸ List.mem_cons_self
  obtain ⟨s, hs⟩ := hcoverable n (h.above n ((h.known n).mpr (.inr hn)))
  obtain ⟨slice, hslice⟩ := DependenceNode.exists_cover hs t.slice
  exact ⟨_, .take (List.Perm.of_eq hcons) hslice (.refl _)⟩

/-! ## Traversals end -/

/-- What can still be visited: what is in the queue, and what is not known. -/
def Traversal.left (g : DependenceGraph) (t : Traversal) : Nat :=
  (without g.nodes t.known).length + t.queue.length

/-- Where all edges come from nodes, what is not known is a node that is not known. -/
theorem newSuccessors_incoming (hnodes : ∀ k ∈ g.incoming n, k ∈ g.nodes)
    (known : List DependenceNode) : newSuccessors g.incoming (without g.nodes known) n =
      (without (g.incoming n) known).eraseDups := by
  unfold newSuccessors without
  congr 1
  refine List.filter_congr fun k hk => ?_
  simp [hnodes k hk]

theorem without_without {xs ys zs : List DependenceNode} :
    without (without xs ys) zs = without xs (zs ++ ys) := by
  simp [without, List.filter_filter]

theorem without_congr {xs ys zs : List DependenceNode} (h : ∀ k, k ∈ ys ↔ k ∈ zs) :
    without xs ys = without xs zs := by
  simp [without, h]

/-- A visit leaves less to be visited. -/
theorem Visit.left_lt (hnodes : ∀ n, ∀ k ∈ g.incoming n, k ∈ g.nodes) (h : Visit p g t t') :
    t'.left g < t.left g := by
  obtain @⟨n, rest, new, slice, htaken, -, hentered⟩ := h
  have hsplit := length_newSuccessors g.incoming (without g.nodes t.known) n
  have hknown : without g.nodes ((without (g.incoming n) t.known).eraseDups ++ t.known) =
      without g.nodes (new ++ t.known) :=
    without_congr fun k => by simp [hentered.mem_iff]
  rw [newSuccessors_incoming (hnodes n), without_without, hknown, ← hentered.length_eq] at hsplit
  have hlength := htaken.length_eq
  simp only [Traversal.left, List.length_append, List.length_cons] at hlength ⊢
  omega

/-- A traversal takes no more visits than there are nodes and roots. -/
theorem visits_le (hnodes : ∀ n, ∀ k ∈ g.incoming n, k ∈ g.nodes) (h : queue.Perm roots)
    {run : Nat → Traversal} {k : Nat} (hstart : run 0 = .start queue)
    (hrun : ∀ i < k, Visit p g (run i) (run (i + 1))) : k ≤ g.nodes.length + roots.length := by
  have hdrop : ∀ i ≤ k, (run i).left g + i ≤ (run 0).left g := by
    intro i
    induction i with
    | zero => simp
    | succ i ih =>
        intro hi
        have hlt := (hrun i hi).left_lt hnodes
        have hle := ih (by omega)
        omega
  have hbound := hdrop k (Nat.le_refl k)
  have hunknown : (without g.nodes queue).length ≤ g.nodes.length := List.length_filter_le _ _
  have hlength := h.length_eq
  simp only [hstart, Traversal.left, Traversal.start] at hbound
  omega

/-- A flood, covered node by node, is a traversal that ends. -/
theorem run_of_floodWithin (hnodes : ∀ n, ∀ k ∈ g.incoming n, k ∈ g.nodes) {limit : Nat}
    {known : List DependenceNode} {s s' : Slice}
    (hlimit : (without g.nodes known).length + queue.length ≤ limit)
    (h : (floodWithin (fun n => (g.incoming n).reverse) limit (without g.nodes known) queue).foldlM
      (Slice.cover p) s = .ok s') :
    ∃ known', ReflTransGen (Visit p g) ⟨queue, known, s⟩ ⟨[], known', s'⟩ := by
  induction limit generalizing known queue s with
  | zero =>
      obtain rfl : queue = [] := List.length_eq_zero_iff.mp (by omega)
      obtain rfl : s = s' := by simpa [floodWithin] using h
      exact ⟨known, .refl⟩
  | succ limit ih =>
      cases queue with
      | nil =>
          obtain rfl : s = s' := by simpa [floodWithin] using h
          exact ⟨known, .refl⟩
      | cons n rest =>
          have hsplit := length_newSuccessors (fun n => (g.incoming n).reverse)
            (without g.nodes known) n
          simp only [floodWithin, List.foldlM_cons, bind_eq_ok] at h
          generalize hnew : newSuccessors (fun n => (g.incoming n).reverse)
            (without g.nodes known) n = new at h hsplit
          obtain ⟨slice, hslice, h⟩ := h
          have hentered : new.Perm (without (g.incoming n) known).eraseDups := by
            refine (List.perm_ext_iff_of_nodup ?_ (nodup_eraseDups _)).mpr fun k => ?_
            · rw [← hnew]
              exact nodup_eraseDups _
            · rw [← hnew, mem_newSuccessors, ← newSuccessors_incoming (hnodes n),
                mem_newSuccessors, List.mem_reverse]
          rw [without_without] at h hsplit
          rw [List.length_cons] at hlimit
          obtain ⟨known', hrun⟩ := ih (by rw [List.length_append]; omega) h
          exact ⟨known', .head (.take (.refl _) hslice hentered) hrun⟩

end

/-! ## The closure -/

/-- A node is an instruction that depends on input. -/
def DependsOnInput (p : Program) (taint : TaintResult) (n : DependenceNode) : Prop :=
  ∃ signature l m i, taint.isTainted signature l = true ∧ p.requireMethod signature = .ok m ∧
    m.instruction l = .ok i ∧ n = .instruction ⟨m.signature, l, i.text⟩

theorem mem_taintedNodes {p : Program} {taint : TaintResult} {roots : List DependenceNode}
    (h : taintedNodes p taint = .ok roots) {n : DependenceNode} :
    n ∈ roots ↔ DependsOnInput p taint n := by
  simp only [taintedNodes, bind_eq_ok, pure_eq_ok] at h
  obtain ⟨lists, hlists, rfl⟩ := h
  simp only [DependsOnInput, TaintResult.isTainted, List.contains_iff_mem, List.mem_flatten]
  constructor
  · rintro ⟨nodes, hnodes, hn⟩
    obtain ⟨⟨signature, points⟩, hentry, hnode⟩ := mem_of_mapM_eq_ok hlists hnodes
    simp only [bind_eq_ok] at hnode
    obtain ⟨m, hm, hnode⟩ := hnode
    obtain ⟨l, hl, hnode⟩ := mem_of_mapM_eq_ok hnode hn
    simp only [bind_eq_ok, pure_eq_ok] at hnode
    obtain ⟨i, hi, rfl⟩ := hnode
    refine ⟨signature, l, m, i, ?_, hm, hi, rfl⟩
    rwa [TreeMap.getD_eq_getD_getElem?, TreeMap.mem_toList_iff_getElem?_eq_some.mp hentry]
  · rintro ⟨signature, l, m, i, hl, hm, hi, rfl⟩
    cases hpoints : taint.points[signature]? with
    | none => simp [TreeMap.getD_eq_getD_getElem?, hpoints] at hl
    | some points =>
        rw [TreeMap.getD_eq_getD_getElem?, hpoints, Option.getD_some] at hl
        obtain ⟨nodes, hnodes, hlist⟩ := forall₂_exists_of_mem_left (mapM_eq_ok.mp hlists)
          (TreeMap.mem_toList_iff_getElem?_eq_some.mpr hpoints)
        simp only [bind_eq_ok] at hlist
        obtain ⟨m', hm', hlist⟩ := hlist
        obtain rfl := Except.ok.inj (hm.symm.trans hm')
        obtain ⟨n, hn, hnode⟩ := forall₂_exists_of_mem_left (mapM_eq_ok.mp hlist) hl
        simp only [hi, bind_eq_ok, pure_eq_ok, Except.ok.injEq, exists_eq_left'] at hnode
        exact ⟨nodes, hnodes, hnode ▸ hn⟩

/-- A node is an instruction that depends on input, or reaches one along dependences. -/
def InClosure (p : Program) (edges : List (DependenceNode × DependenceNode × DependenceKind))
    (taint : TaintResult) (n : DependenceNode) : Prop :=
  ∃ root, DependsOnInput p taint root ∧
    ReflTransGen (fun a b => ∃ kind, (a, b, kind) ∈ edges) n root

/-- **The slice is the backward closure**, whatever the order. -/
theorem computeSlice_exact {p : Program} {taint : TaintResult} {slice : Slice}
    {edges : List (DependenceNode × DependenceNode × DependenceKind)}
    (h : computeSlice p (DependenceGraph.empty.addEdges edges) taint = .ok slice) :
    (∀ signature o, slice.contains signature o = true ↔
      ∃ n, InClosure p edges taint n ∧ n.Covers p signature o) ∧
    (∀ signature, slice.containsMethod signature = true ↔
      ∃ n, InClosure p edges taint n ∧ n.BelongsTo signature) ∧
    ∃ roots, taintedNodes p taint = .ok roots ∧
      let visits := Visit p (DependenceGraph.empty.addEdges edges)
      (∃ t, ReflTransGen visits (.start roots.reverse) t ∧ t.queue = [] ∧ t.slice = slice) ∧
      ∀ queue : List DependenceNode, queue.Perm roots →
        (∀ (run : Nat → Traversal) k, run 0 = .start queue →
          (∀ i < k, visits (run i) (run (i + 1))) →
            k ≤ (DependenceGraph.empty.addEdges edges).nodes.length + roots.length) ∧
        ∀ t, ReflTransGen visits (.start queue) t →
          (t.queue ≠ [] → ∃ t', visits t t') ∧
          (t.queue = [] → t.slice.methods.toList = slice.methods.toList) := by
  simp only [computeSlice, bind_eq_ok] at h
  obtain ⟨roots, hroots, hslice⟩ := h
  generalize hg : DependenceGraph.empty.addEdges edges = g at hslice ⊢
  have hvalid : g.Valid := hg ▸ (DependenceGraph.valid_empty.addEdges edges).1
  have hnodes : ∀ n, ∀ k ∈ g.incoming n, k ∈ g.nodes := by
    intro n k hk
    obtain ⟨i, j, hi, -⟩ := hvalid.mem_incoming.mp hk
    exact DependenceGraph.mem_nodes.mpr ⟨i, hi⟩
  have hclosure : ∀ n, g.Above roots n ↔ InClosure p edges taint n := by
    intro n
    simp only [DependenceGraph.Above, InClosure, mem_taintedNodes hroots, ← hg,
      DependenceGraph.mem_incoming_addEdges]
  -- The computation itself is a traversal that ends, so what it visits can be covered.
  have hend : ∃ t, ReflTransGen (Visit p g) (.start roots.reverse) t ∧ t.queue = [] ∧
      t.slice = slice := by
    have hsame : without g.nodes roots = without g.nodes roots.reverse :=
      without_congr fun k => List.mem_reverse.symm
    rw [DependenceGraph.closure, flood, hsame] at hslice
    obtain ⟨known, hrun⟩ := run_of_floodWithin hnodes (Nat.le_refl _) hslice
    exact ⟨_, hrun, rfl, rfl⟩
  obtain ⟨t, hrun, hqueue, rfl⟩ := hend
  obtain ⟨visited, hfrontier⟩ := frontier_of_run roots.reverse_perm hrun
  have hslice := hfrontier.slice.congr fun n => hfrontier.visited_iff hqueue
  have hcoverable : ∀ n, g.Above roots n → ∃ s, Slice.empty.cover p n = .ok s := fun n hn =>
    hfrontier.coverable n ((hfrontier.visited_iff hqueue).mpr hn)
  refine ⟨?_, ?_, roots, hroots, ⟨t, hrun, hqueue, rfl⟩, ?_⟩
  · simpa only [hclosure] using hslice.offsets
  · simpa only [hclosure] using hslice.methods
  intro queue hperm
  refine ⟨fun run k hstart hsteps => visits_le hnodes hperm hstart hsteps, fun t' hrun' => ?_⟩
  obtain ⟨visited', hfrontier'⟩ := frontier_of_run hperm hrun'
  refine ⟨hfrontier'.exists_visit hcoverable, fun hqueue' => ?_⟩
  exact (hfrontier'.slice.congr fun n => hfrontier'.visited_iff hqueue').toList_eq hslice

/-! ## A callback that moves at some pace -/

/-- Set the pace, move by an axis at that pace, which changes the pace again, and return. -/
def pacingStatements : List Instruction :=
  let pace : FieldRef := ⟨"Player", "pace", .single, true⟩
  let axis : Expression := .call (.static "UnityEngine.Input" "GetAxis" [.string] .single)
    [.constant (.string "Horizontal")]
  [⟨.storeStatic pace (.constant (.single 2.0)), [⟨0, 1⟩]⟩,
    ⟨.storeStatic pace (.binary .mul .none (.staticField pace) axis), [⟨2, 5⟩]⟩,
    ⟨.leave none, [⟨6, 6⟩]⟩]

def pacing : Method :=
  ⟨.static "Player" "Update" [] .void, [], "Game", some { blocks := [⟨0, pacingStatements⟩] }⟩

def pacingNode (k : Nat) : DependenceNode :=
  .instruction ⟨"Player.Update()", ⟨0, k⟩, ((pacingStatements[k]?).map Instruction.text).getD ""⟩

/-- The pace depends on the stores to it, and the second store on the pace. -/
def pacingDependences : List (DependenceNode × DependenceNode × DependenceKind) :=
  [(pacingNode 0, .field "Player.pace", .field), (.field "Player.pace", pacingNode 1, .field),
    (pacingNode 1, .field "Player.pace", .field), (pacingNode 1, pacingNode 2, .branch)]

/-- The first store is in the slice, since the poll depends on it, and the return is not. -/
theorem pacing_sliced : ∃ slice,
    computeSlice ((Program.empty "Game").addMethod pacing)
      (DependenceGraph.empty.addEdges pacingDependences)
      { points := TreeMap.empty.insert "Player.Update()" [⟨0, 1⟩] } = .ok slice ∧
    (∃ n, InClosure ((Program.empty "Game").addMethod pacing) pacingDependences
        { points := TreeMap.empty.insert "Player.Update()" [⟨0, 1⟩] } n ∧
      n.Covers ((Program.empty "Game").addMethod pacing) "Player.Update()" 1) ∧
    slice.contains "Player.Update()" 6 = false := by
  have hcheck : (match computeSlice ((Program.empty "Game").addMethod pacing)
        (DependenceGraph.empty.addEdges pacingDependences)
        { points := TreeMap.empty.insert "Player.Update()" [⟨0, 1⟩] } with
      | .ok slice => slice.contains "Player.Update()" 1 && !slice.contains "Player.Update()" 6
      | .error _ => false) = true := by decide +kernel
  split at hcheck
  · next slice hslice =>
    rw [Bool.and_eq_true, Bool.not_eq_true'] at hcheck
    obtain ⟨hoffsets, -⟩ := computeSlice_exact hslice
    exact ⟨slice, hslice, (hoffsets _ _).mp hcheck.1, hcheck.2⟩
  · cases hcheck

end PlayerPaths
