import PlayerPaths.Live.Reading
import PlayerPaths.Proofs.Collections
import PlayerPaths.Proofs.Execution.Addresses
import PlayerPaths.Proofs.Formula.Evaluation
import PlayerPaths.Proofs.Formula.Faults

/-!
# Reading variables without a guard

A variable that stands for the result of a call is read by reading the variables in the arguments of
the call, in an environment without the call. When the arguments of every call mention earlier calls
only (`Environment.Ordered`), the environment does not matter: the recursion that keeps it as it is
ends with the same results (`Environment.Ordered.settles`), and it does not miss a call that was noted
(`Environment.Ordered.reading_meets`).
-/

namespace PlayerPaths

/-! ## Terms -/

theorem Formula.exists_part_of_mem_freeVariables {e : Formula} {name : String}
    (h : name ∈ e.freeVariables) : ∃ s, .var name s ∈ e.parts := by
  obtain ⟨s, hs⟩ := mem_variablesOf.mp h
  exact ⟨s, mem_occurrences.mp (by simpa using hs)⟩

namespace Term

variable {f g : String → Result Reading} {e : Formula}

/-- A term depends on how the variables of the formula are read. -/
theorem compile_congr (h : ∀ name s, .var name s ∈ e.parts → f name = g name) :
    compile f e = compile g e := by
  unfold compile
  dsimp only
  split
  · rfl
  · refine congrArg (· >>= _) (mapM_congr fun entry hentry => ?_)
    have hname : entry.1 ∈ e.freeVariables := mem_iff_exists_getElem?.mpr
      ⟨entry.2, Std.TreeMap.mem_toList_iff_getElem?_eq_some.mp hentry⟩
    obtain ⟨s, hs⟩ := e.exists_part_of_mem_freeVariables hname
    simp only [h _ s hs]

end Term

namespace Environment

variable {env env' : Environment} {name inner : String} {n id : Nat}

/-- How to read a variable, given how to read the variables in the arguments of a call. -/
def readingBy (env : Environment) (read : Nat → String → Result Reading) (name : String) :
    Result Reading := do
  let unknown : Error := .resolution ("cannot resolve variable " ++ name)
  match Address.read? name with
  | none => throw unknown
  | some a =>
    let source ← match a.root with
      | .staticField signature =>
        pure (Reading.mk signature (← env.registry.staticField signature))
      | .frame 0 .this => pure Reading.this
      | .frame .. => throw unknown
      | .symcall id =>
        match env.calls[id]? with
        | none => throw (.resolution s!"no symcall {id} on the path")
        | some call =>
          let signature := call.method.signature
          let invoke ← env.registry.method signature
          let arguments ← call.arguments.mapM (Term.compile (read id))
          pure (callReading signature invoke arguments)
      | .special special =>
        pure (Reading.mk ("special " ++ special) (← env.registry.special special))
      | .heap _ => throw (.resolution ("object allocated on the path in " ++ name))
    return a.suffixes.foldl Reading.access source

theorem reading_eq (env : Environment) (name : String) :
    env.reading name = env.readingBy (fun id => (env.without id).reading) name := by
  rw [reading, readingBy]
  cases Address.read? name with
  | none => rfl
  | some a =>
      dsimp only
      cases a.root with
      | symcall id =>
          dsimp only
          split
          · next hcall => simp only [hcall]
          · next call hcall => simp only [hcall]
      | frame depth slot =>
          cases depth with
          | zero => cases slot <;> rfl
          | succ depth => rfl
      | _ => rfl

/-- To read a variable, another one is read: the variable stands for the result of a call, and the
other one is in an argument of the call. -/
structure Asks (env : Environment) (name : String) (id : Nat) (inner : String) : Prop where
  root : ∃ a, Address.read? name = some a ∧ a.root = .symcall id
  argument : ∃ call, env.calls[id]? = some call ∧ ∃ e ∈ call.arguments, ∃ s, .var inner s ∈ e.parts

/-- How a variable is read depends on how those are read that it asks for. -/
theorem readingBy_congr {read read' : Nat → String → Result Reading}
    (hregistry : env.registry = env'.registry)
    (hcalls : ∀ a id, Address.read? name = some a → a.root = .symcall id →
      env.calls[id]? = env'.calls[id]?)
    (hread : ∀ id inner, env.Asks name id inner → read id inner = read' id inner) :
    env.readingBy read name = env'.readingBy read' name := by
  unfold readingBy
  cases hname : Address.read? name with
  | none => rfl
  | some a =>
      dsimp only
      cases hroot : a.root with
      | symcall id =>
          dsimp only
          rw [← hcalls a id hname hroot]
          cases hcall : env.calls[id]? with
          | none => rfl
          | some call =>
              dsimp only
              have harguments : call.arguments.mapM (Term.compile (read id)) =
                  call.arguments.mapM (Term.compile (read' id)) := by
                refine mapM_congr fun e he => Term.compile_congr fun inner s hs => ?_
                exact hread id inner ⟨⟨a, hname, hroot⟩, call, hcall, e, he, s, hs⟩
              rw [hregistry, harguments]
      | frame depth slot =>
          cases depth with
          | zero => cases slot <;> rfl
          | succ depth => rfl
      | heap id => rfl
      | _ =>
          dsimp only
          rw [hregistry]

/-! ## Calls in order -/

/-- The arguments of every call mention results of earlier calls only. -/
def Ordered (env : Environment) : Prop :=
  ∀ id inner, (∃ call, env.calls[id]? = some call ∧ ∃ e ∈ call.arguments, ∃ s,
    .var inner s ∈ e.parts) → Address.NameBelow id inner

theorem Ordered.without (h : env.Ordered) (id : Nat) : (env.without id).Ordered := by
  rintro id' inner ⟨call, hcall, hargument⟩
  rw [Environment.without, Std.TreeMap.getElem?_erase] at hcall
  split at hcall
  · cases hcall
  · exact h id' inner ⟨call, hcall, hargument⟩

/-- Environments that agree about the calls below a number. -/
structure Agree (n : Nat) (env env' : Environment) : Prop where
  registry : env.registry = env'.registry
  calls : ∀ id < n, env.calls[id]? = env'.calls[id]?

theorem agree_without {k : Nat} (hle : k ≤ id) : Agree k (env.without id) env := by
  refine ⟨rfl, fun id' hlt => ?_⟩
  rw [Environment.without, Std.TreeMap.getElem?_erase, if_neg]
  rw [Nat.compare_eq_eq]
  omega

theorem Agree.without (h : Agree n env env') (hlt : id < n) :
    Agree id (env.without id) (env'.without id) where
  registry := h.registry
  calls id' hid' := by
    have hne : ¬ compare id id' = .eq := by
      rw [Nat.compare_eq_eq]
      omega
    simp only [Environment.without, Std.TreeMap.getElem?_erase, if_neg hne]
    exact h.calls id' (Nat.lt_trans hid' hlt)

/-- Later calls do not matter for a variable that belongs to an earlier one. -/
theorem Agree.reading_eq (hordered : env.Ordered) (h : Agree n env env')
    (hname : Address.NameBelow n name) :
    env.reading name = env'.reading name := by
  induction n using Nat.strongRecOn generalizing env env' name with
  | ind n ih =>
      rw [Environment.reading_eq, env'.reading_eq]
      refine readingBy_congr h.registry (fun a id ha hroot => h.calls id (hname a ha id hroot)) ?_
      rintro id inner ⟨⟨a, ha, hroot⟩, hargument⟩
      have hlt : id < n := hname a ha id hroot
      exact ih id hlt (hordered.without id) (h.without hlt) (hordered id inner hargument)

/-- In an environment in order, the arguments of calls are read as everything else. -/
theorem Ordered.reading_eq (h : env.Ordered) (name : String) :
    env.reading name = env.readingBy (fun _ => env.reading) name := by
  rw [Environment.reading_eq]
  refine readingBy_congr rfl (fun _ _ _ _ => rfl) fun id inner hasks => ?_
  exact (agree_without (Nat.le_refl id)).reading_eq (h.without id) (h id inner hasks.argument)

/-! ## The recursion without a guard -/

/-- The recursion that reads the variables in the arguments of calls in the same environment ends
with a result: so it does for every variable that is asked for, and the result is made of theirs. -/
inductive Settles (env : Environment) : String → Result Reading → Prop
  | intro {name : String} {read : String → Result Reading}
      (h : ∀ id inner, env.Asks name id inner → Settles env inner (read inner)) :
      Settles env name (env.readingBy (fun _ => read) name)

/-- **Reading ends without a guard**, with the same result, when calls are in order. -/
theorem Ordered.settles (h : env.Ordered) (name : String) : env.Settles name (env.reading name) := by
  have hbelow : ∀ n name, Address.NameBelow n name → env.Settles name (env.reading name) := by
    intro n
    induction n using Nat.strongRecOn with
    | ind n ih =>
        intro name hname
        rw [h.reading_eq]
        refine .intro fun id inner hasks => ?_
        obtain ⟨a, ha, hroot⟩ := hasks.root
        exact ih id (hname a ha id hroot) inner (h id inner hasks.argument)
  rw [h.reading_eq]
  exact .intro fun id inner hasks => hbelow id inner (h id inner hasks.argument)

/-! ## Calls that were noted -/

/-- Not the error about a call that was not noted. -/
def NotMissing (e : Error) : Prop := ∀ id : Nat, e ≠ .resolution s!"no symcall {id} on the path"

theorem notMissing_of_fault {e : Error} (h : e.isFault = true) : NotMissing e := by
  rintro id rfl
  cases h

/-- Other failures to resolve something begin with other words. -/
theorem notMissing_resolution {text : String} (h : text.toList.take 4 ≠ "no s".toList) :
    NotMissing (.resolution text) := by
  intro id heq
  obtain rfl := Error.resolution.inj heq
  refine h ?_
  rw [String.toList_append, String.toList_append, List.append_assoc]
  rfl

theorem find_meets {α : Type} {accessors : Std.TreeMap String α} {missing : String}
    (h : (missing ++ " " ++ name).toList.take 4 ≠ "no s".toList) :
    Meets NotMissing (fun _ => True) (Registry.find accessors name missing) := by
  unfold Registry.find
  split
  · exact .pure trivial
  · exact .throw (notMissing_resolution h)

theorem compile_meets {read : String → Result Reading} {e : Formula}
    (h : ∀ name s, .var name s ∈ e.parts → Meets NotMissing (fun _ => True) (read name)) :
    Meets NotMissing (fun _ => True) (Term.compile read e) := by
  unfold Term.compile
  split
  · refine ((e.text_faults).weaken fun _ => notMissing_of_fault).bind fun text _ => ?_
    exact .throw_bind (notMissing_resolution (by simp))
  · refine (Meets.mapM (R := fun _ => True) ?_).bind fun _ _ => .pure trivial
    rintro ⟨name, t⟩ hentry
    have hname : name ∈ e.freeVariables := mem_iff_exists_getElem?.mpr
      ⟨t, Std.TreeMap.mem_toList_iff_getElem?_eq_some.mp hentry⟩
    obtain ⟨s, hs⟩ := e.exists_part_of_mem_freeVariables hname
    exact (h name s hs).bind fun _ _ => .pure trivial

/-- **No call is missing** when a variable is read that belongs to a call that was noted. -/
theorem Ordered.reading_meets (h : env.Ordered) (hcalls : ∀ id < n, id ∈ env.calls)
    (hname : Address.NameBelow n name) : Meets NotMissing (fun _ => True) (env.reading name) := by
  induction n using Nat.strongRecOn generalizing name with
  | ind n ih =>
      rw [h.reading_eq]
      unfold readingBy
      have hunknown : NotMissing (.resolution ("cannot resolve variable " ++ name)) :=
        notMissing_resolution (by simp)
      split
      · exact .throw hunknown
      · next a ha =>
        dsimp only
        split
        · exact (find_meets (by simp)).bind fun _ _ => .pure trivial
        · exact .pure trivial
        · exact .throw_bind hunknown
        · next id hroot =>
          have hlt : id < n := hname a ha id hroot
          obtain ⟨call, hcall⟩ := mem_iff_exists_getElem?.mp (hcalls id hlt)
          rw [hcall]
          dsimp only
          refine (find_meets (by simp)).bind fun invoke _ => ?_
          have harguments : Meets NotMissing (fun _ => True)
              (call.arguments.mapM (Term.compile env.reading)) := by
            refine (Meets.mapM (R := fun _ => True) fun e he => compile_meets fun inner s hs => ?_).imp
              fun _ _ => trivial
            exact ih id hlt (fun id' hid' => hcalls id' (Nat.lt_trans hid' hlt))
              (h id inner ⟨call, hcall, e, he, s, hs⟩)
          exact harguments.bind fun _ _ => .pure trivial
        · exact (find_meets (by simp)).bind fun _ _ => .pure trivial
        · exact .throw_bind (notMissing_resolution (by simp))

end Environment

end PlayerPaths
