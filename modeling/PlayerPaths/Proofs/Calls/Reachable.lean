import PlayerPaths.Calls.Reachable
import PlayerPaths.Proofs.Graph.PreOrder

/-!
# The call targets of an entry point

An analysis follows calls from its entry point through the methods that it enters (`Scope.Reaches`).
What it lists is what a recursive traversal of the calls lists, and what an iteration with an
explicit stack gives (`Scope.reachable_lists`).

A method is known by its signature, which says nothing of the type of its results. Whether a method
is entered depends on that type, too: a method of the input type that returns nothing is no polling
method. So two call targets of one signature may differ, and the one that is met first decides
(`mistakenTwin_hides`).
-/

namespace PlayerPaths

open IL Relation

namespace Scope

variable {s : Scope} {m callee : MethodRef}

/-! ## Calls -/

/-- Some instruction of the method calls the other one. -/
def Calls (s : Scope) (m callee : MethodRef) : Prop :=
  ∃ d b, s.program.resolve? m = some d ∧ d.body = some b ∧ ∃ block ∈ b.blocks,
    ∃ i ∈ block.instructions, ∃ c ∈ i.operation.calls, c.method = callee

/-- A chain of calls leads from the entry point to the method, through methods that the analysis
enters. -/
def Reaches (s : Scope) : MethodRef → Prop :=
  ReflTransGen (fun m callee => s.enters m = true ∧ s.Calls m callee) s.entry.reference

/-- Call targets that are reached and have one signature are entered together. -/
def EntersBySignature (s : Scope) : Prop :=
  ∀ m m', s.Reaches m → s.Reaches m' → m.signature = m'.signature → s.enters m = s.enters m'

theorem calls_of_isGlue {i : Instruction} (h : i.isGlue = true) : i.operation.calls = [] := by
  rw [Instruction.isGlue, Bool.and_eq_true] at h
  cases hoperation : i.operation with
  | branch target => rfl
  | _ => simp [hoperation, Operation.isBranch] at h

/-- Glue calls nothing, so no call of a body is passed over. -/
theorem mem_bodyCallees {b : Body} : callee ∈ bodyCallees b ↔
    ∃ block ∈ b.blocks, ∃ i ∈ block.instructions, ∃ c ∈ i.operation.calls, c.method = callee := by
  have hlocated : ∀ block : Block, ∀ i, (∃ l, (l, i) ∈ Body.blockLocations block) ↔
      i ∈ block.instructions := by
    intro block i
    simp only [Body.blockLocations, List.mem_map, Prod.mk.injEq, Prod.exists]
    constructor
    · rintro ⟨l, j, n, hj, -, rfl⟩
      exact List.fst_mem_of_mem_zipIdx hj
    · intro hi
      obtain ⟨n, hn, rfl⟩ := List.getElem_of_mem hi
      exact ⟨_, _, n, List.mk_mem_zipIdx_iff_getElem?.mpr (List.getElem?_eq_getElem hn), rfl, rfl⟩
  simp only [bodyCallees, Body.locations, List.mem_flatMap, List.mem_filter, List.mem_map]
  constructor
  · rintro ⟨⟨l, i⟩, ⟨⟨block, hblock, hi⟩, -⟩, c, hc, rfl⟩
    exact ⟨block, hblock, i, (hlocated block i).mp ⟨l, hi⟩, c, hc, rfl⟩
  · rintro ⟨block, hblock, i, hi, c, hc, rfl⟩
    obtain ⟨l, hl⟩ := (hlocated block i).mpr hi
    have hreal : i.isGlue = false := by
      by_contra hglue
      rw [calls_of_isGlue (by simpa using hglue)] at hc
      cases hc
    exact ⟨(l, i), ⟨⟨block, hblock, hl⟩, by simpa using hreal⟩, c, hc, rfl⟩

theorem mem_callees : callee ∈ s.callees m ↔ s.enters m = true ∧ s.Calls m callee := by
  unfold callees
  split
  · next henters =>
    rw [and_iff_right henters]
    cases hd : s.program.resolve? m with
    | none => simp [Calls, hd]
    | some d => cases hb : d.body <;> simp [Calls, hd, hb, mem_bodyCallees]
  · next henters => simp [henters]

/-- The steps of the traversal are the calls of methods that are entered. -/
theorem reaches_iff : s.Reaches m ↔
    ReflTransGen (fun m callee => callee ∈ s.callees m) s.entry.reference m := by
  simp only [Reaches, mem_callees]

/-- A method resolves by its signature, and so do its call targets. -/
theorem callees_congr {m' : MethodRef} (hsignature : m.signature = m'.signature)
    (henters : s.enters m = s.enters m') : s.callees m = s.callees m' := by
  rw [callees, callees, Program.resolve?, Program.resolve?, henters, hsignature]

/-- The signatures of all bodies are there before the traversal begins. -/
theorem signature_mem_of_mem_callees (h : callee ∈ s.callees m) :
    callee.signature ∈ s.signatures := by
  obtain ⟨-, d, b, hd, hb, hcallee⟩ := mem_callees.mp h
  refine List.mem_cons_of_mem _ (List.mem_flatMap.mpr ⟨d, ?_, ?_⟩)
  · exact mem_values.mpr ⟨_, hd⟩
  · rw [hb]
    exact List.mem_map_of_mem (mem_bodyCallees.mpr hcallee)

/-! ## The list -/

/-- **The specification** of a list of call targets. -/
structure ListsCallTargets (s : Scope) (ms : List MethodRef) : Prop where
  /-- An iteration with an explicit stack gives the list, and ends. -/
  iterated : Iteration.Gives MethodRef.signature s.callees ⟨[s.entry.reference], []⟩ ms
  first : ms.head? = some s.entry.reference
  nodup : (ms.map MethodRef.signature).Nodup
  /-- The list is what a recursive traversal lists. -/
  preOrder : ∃ visited,
    PreOrder MethodRef.signature s.callees [] [s.entry.reference] ms visited
  /-- The signatures are those that calls of listed methods lead to. -/
  mem_iff : ∀ signature, signature ∈ ms.map MethodRef.signature ↔
    ∃ m, ReflTransGen (fun m callee => m ∈ ms ∧ s.enters m = true ∧ s.Calls m callee)
      s.entry.reference m ∧ m.signature = signature
  /-- They are those that any calls lead to, unless call targets of one signature differ. -/
  mem_iff_reaches : s.EntersBySignature → ∀ signature, signature ∈ ms.map MethodRef.signature ↔
    ∃ m, s.Reaches m ∧ m.signature = signature

/-- The explicit stack lists what the recursive traversal lists. -/
theorem reachable_preOrder (s : Scope) : ∃ visited,
    PreOrder MethodRef.signature s.callees [] [s.entry.reference] s.reachable visited := by
  refine depthFirst_preOrder (nodup_eraseDups _) (fun m _ callee hcallee => ?_) (fun m hm => ?_)
  · exact List.mem_eraseDups.mpr (signature_mem_of_mem_callees hcallee)
  · obtain rfl := List.mem_singleton.mp hm
    exact List.mem_eraseDups.mpr List.mem_cons_self

/-- **The reachable methods are the call targets of the entry point**, each once, in the order of a
recursive traversal. -/
theorem reachable_lists (s : Scope) : s.ListsCallTargets s.reachable := by
  obtain ⟨visited, h⟩ := s.reachable_preOrder
  refine ⟨h.iterates, h.head?, h.nodup.1, ⟨visited, h⟩, fun signature => ?_, fun hagree => ?_⟩
  · simpa only [mem_callees] using h.mem_keys_iff (k := signature)
  · intro signature
    simp only [reaches_iff]
    refine h.mem_keys_iff_of_agree fun m m' hm hm' hsignature => ?_
    exact callees_congr hsignature
      (hagree m m' (reaches_iff.mpr hm) (reaches_iff.mpr hm') hsignature)

/-- Where every call target of a listed method is listed as it is called, no two of them have one
signature. -/
theorem entersBySignature_of_closed
    (h : ∀ m ∈ s.reachable, ∀ callee ∈ s.callees m, callee ∈ s.reachable) :
    s.EntersBySignature := by
  obtain ⟨_, hpre⟩ := s.reachable_preOrder
  have hlisted : ∀ m, s.Reaches m → m ∈ s.reachable := by
    intro m hm
    induction reaches_iff.mp hm with
    | refl => exact List.mem_of_mem_head? hpre.head?
    | tail hchain hcallee ih => exact h _ (ih (reaches_iff.mpr hchain)) _ hcallee
  intro m m' hm hm' hsignature
  rw [List.inj_on_of_nodup_map hpre.nodup.1 (hlisted m hm) (hlisted m' hm') hsignature]

/-! ## Programs -/

/-- A method that calls others, one after another. -/
def calling (reference : MethodRef) (callees : List MethodRef) : Method :=
  let operations := callees.map (fun m => Operation.call ⟨m, []⟩) ++ [.leave none]
  ⟨reference, [], "Game", some { blocks := [⟨0, operations.map fun o => ⟨o, [⟨0, 0⟩]⟩⟩] }⟩

/-- The first method of a list is the entry point of a program with these methods. -/
def ofMethods (entry : Method) (others : List Method) : Scope :=
  ⟨others.foldl Program.addMethod ((Program.empty "Game").addMethod entry), entry, {}⟩

/-- The callback calls two methods that call a third one, and one of them calls it back. -/
def visiting : Scope :=
  let method (name : String) := MethodRef.static "Player" name [] .void
  ofMethods (calling (method "Update") [method "A", method "B"])
    [calling (method "A") [method "C", method "Update"], calling (method "B") [method "C"],
      calling (method "C") [.static "UnityEngine.Input" "GetKey" [.string] .bool]]

theorem visiting_listed : visiting.EntersBySignature ∧
    visiting.reachable.map MethodRef.name = ["Update", "A", "C", "GetKey", "B"] ∧
    ∀ signature, signature ∈ visiting.reachable.map MethodRef.signature ↔
      ∃ m, visiting.Reaches m ∧ m.signature = signature := by
  have hagree : visiting.EntersBySignature := entersBySignature_of_closed (by decide +kernel)
  exact ⟨hagree, by decide +kernel, visiting.reachable_lists.mem_iff_reaches hagree⟩

def writeLog : MethodRef := .static "Log" "Write" [] .void

/-- The callback asks the input type for a value, and then calls a method of the same signature
without a value. There is a body under the signature. -/
def mistakenTwin : Scope :=
  let poll (type : Ty) := MethodRef.static "UnityEngine.Input" "Poll" [] type
  ofMethods (calling (.static "Player" "Update" [] .void) [poll .bool, poll .void])
    [calling (poll .void) [writeLog]]

/-- **A call target hides one of the same signature.** The method that polls is met first, and the
calls of the method that does not poll are never found. -/
theorem mistakenTwin_hides : ¬ ∀ signature,
    signature ∈ mistakenTwin.reachable.map MethodRef.signature ↔
      ∃ m, mistakenTwin.Reaches m ∧ m.signature = signature := by
  have hmissing : writeLog.signature ∉ mistakenTwin.reachable.map MethodRef.signature := by
    decide +kernel
  have hpoll : .static "UnityEngine.Input" "Poll" [] .void ∈
      mistakenTwin.callees mistakenTwin.entry.reference := by
    decide +kernel
  have hwrite : writeLog ∈ mistakenTwin.callees (.static "UnityEngine.Input" "Poll" [] .void) := by
    decide +kernel
  intro hiff
  refine hmissing ((hiff _).mpr ⟨writeLog, reaches_iff.mpr ?_, rfl⟩)
  exact .tail (.single hpoll) hwrite

end Scope

end PlayerPaths
