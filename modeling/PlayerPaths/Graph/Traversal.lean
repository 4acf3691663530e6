import PlayerPaths.Graph.Basic

/-!
# Walking a graph

`depthFirst` lists vertices in depth-first pre-order with an explicit stack; `flood` collects
everything that a start can reach. Both keep the vertices that are still fresh, which is what
makes them end.
-/

namespace PlayerPaths

/-- Depth-first pre-order, for a number of vertices. -/
def depthFirstWithin {α κ : Type} [DecidableEq κ] (key : α → κ) (successors : α → List α) :
    Nat → (fresh : List κ) → (stack : List α) → List α
  | 0, _, _ => []
  | limit + 1, fresh, stack =>
    match stack.dropWhile fun v => key v ∉ fresh with
    | [] => []
    | v :: stack =>
      v :: depthFirstWithin key successors limit (fresh.erase (key v)) (successors v ++ stack)

/-- Depth-first pre-order. A vertex is listed when it leaves the stack and its key is still fresh,
and its successors are visited next, in their order. Every vertex that is listed uses up a fresh
key. -/
def depthFirst {α κ : Type} [DecidableEq κ] (key : α → κ) (successors : α → List α)
    (fresh : List κ) (stack : List α) : List α :=
  depthFirstWithin key successors fresh.length fresh stack

theorem depthFirst_cons {α κ : Type} [DecidableEq κ] {key : α → κ} {successors : α → List α}
    {fresh : List κ} {v : α} {stack : List α} :
    depthFirst key successors fresh (v :: stack) =
      if key v ∈ fresh then
        v :: depthFirst key successors (fresh.erase (key v)) (successors v ++ stack)
      else depthFirst key successors fresh stack := by
  unfold depthFirst
  split
  · next hv =>
    obtain ⟨limit, hlimit⟩ := Nat.exists_eq_succ_of_ne_zero
      (Nat.ne_of_gt (List.length_pos_of_mem hv))
    have herase : (fresh.erase (key v)).length = limit := by
      rw [List.length_erase_of_mem hv, hlimit]
      rfl
    rw [hlimit, herase]
    simp [depthFirstWithin, hv]
  · next hv =>
    cases fresh.length with
    | zero => rfl
    | succ limit => simp [depthFirstWithin, hv]

def without {α : Type} [DecidableEq α] (xs removed : List α) : List α :=
  xs.filter (· ∉ removed)

/-- The fresh successors of a vertex, each once. -/
def newSuccessors {α : Type} [DecidableEq α] (successors : α → List α) (fresh : List α) (v : α) :
    List α :=
  ((successors v).filter (· ∈ fresh)).eraseDups

/-- What a queue reaches, for a number of vertices. -/
def floodWithin {α : Type} [DecidableEq α] (successors : α → List α) :
    Nat → (fresh queue : List α) → List α
  | 0, _, _ => []
  | _, _, [] => []
  | limit + 1, fresh, v :: queue =>
    let new := newSuccessors successors fresh v
    v :: floodWithin successors limit (without fresh new) (new ++ queue)

/-- The vertices of a queue and everything fresh that they reach. A vertex stops being fresh when
it enters the queue, so every vertex that is listed uses up one of both. -/
def flood {α : Type} [DecidableEq α] (successors : α → List α) (fresh queue : List α) : List α :=
  floodWithin successors (fresh.length + queue.length) fresh queue

namespace Graph

variable {V E : Type}

/-- The vertices reachable from a root, in depth-first pre-order with smaller successors first. -/
def preOrder (g : Graph V E) (root : Nat) : Result (List Nat) :=
  if g.hasVertex root then .ok (depthFirst id (neighbours g.successorsOf) g.vertices.keys [root])
  else .error (.vertexNotFound root)

/-- The vertices reachable from a root, increasing. -/
def reachable (g : Graph V E) (root : Nat) : Result (List Nat) :=
  if g.hasVertex root then
    .ok ((flood (neighbours g.successorsOf) (g.vertices.keys.erase root) [root]).mergeSort)
  else .error (.vertexNotFound root)

end Graph

end PlayerPaths
