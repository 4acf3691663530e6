import PlayerPaths.Live.CompiledPath
import PlayerPaths.Proofs.Formula.Construction
import PlayerPaths.Proofs.Solve.Queries

/-!
# What a compiled path is made of

`Environment.compile` goes over the conjuncts and then over the variables of a path condition. A
conjunct without input becomes a predicate, a variable that the player controls a poll, and any other
variable that can be read is pinned (`Environment.compile_compiles`). What cannot be resolved is left
out.
-/

namespace PlayerPaths

open Formula

/-- A poll asks for the result of a call. -/
structure InputRead.AsksFor (env : Environment) (r : InputRead) (s : SmtSort) (id : Nat)
    (call : SymbolicCall) : Prop where
  id : r.id = id
  method : r.method = call.method.name
  sort : r.sort = s
  arguments : ∀ terms ∈ r.arguments, call.arguments.mapM env.term = .ok terms

/-- A result is kept when it is there, and an error only when it is recoverable. -/
theorem Result.recover_eq_ok {α : Type} {x : Result α} {y : Except Error α}
    (h : Result.recover x = .ok y) : y = x := by
  unfold Result.recover at h
  split at h
  · exact (Except.ok.inj h).symm
  · split at h
    · exact (Except.ok.inj h).symm
    · cases h

namespace Environment

variable {env : Environment} {path path' : CompiledPath} {condition : List Formula}

/-! ## Conjuncts -/

theorem addConjunct_eq_ok {e : Formula} (h : env.addConjunct path e = .ok path') :
    path'.condition = path.condition ∧ path'.pins = path.pins ∧ path'.polls = path.polls ∧
      ∀ p ∈ path'.precondition, p ∈ path.precondition ∨
        env.mentionsInput e = false ∧ Predicate.compile env e = .ok p := by
  unfold addConjunct at h
  split at h
  · obtain rfl := Except.ok.inj h
    exact ⟨rfl, rfl, rfl, fun p hp => .inl hp⟩
  · next hinput =>
    simp only [bind_eq_ok] at h
    obtain ⟨x, hx, h⟩ := h
    obtain rfl := Result.recover_eq_ok hx
    cases hcompile : Predicate.compile env e with
    | error error =>
        simp only [hcompile, bind_eq_ok, pure_eq_ok] at h
        obtain ⟨_, -, rfl⟩ := h
        exact ⟨rfl, rfl, rfl, fun p hp => .inl hp⟩
    | ok q =>
        simp only [hcompile, pure_eq_ok] at h
        obtain rfl := h
        refine ⟨rfl, rfl, rfl, fun p hp => ?_⟩
        rcases List.mem_append.mp hp with hp | hp
        · exact .inl hp
        · obtain rfl := List.mem_singleton.mp hp
          exact .inr ⟨by simpa using hinput, rfl⟩

/-! ## Variables -/

/-- A variable belongs to a call that is there if the player controls it. -/
theorem exists_call_of_isInput {name : String} (h : env.isInput name = true) :
    ∃ id call, env.callOf? name = some (id, call) := by
  unfold isInput at h
  cases hcall : env.callOf? name with
  | none => simp [hcall] at h
  | some p => exact ⟨p.1, p.2, rfl⟩

/-- What a variable adds to the pins and the polls of a path. A variable that cannot be read adds
nothing. -/
inductive Adds (env : Environment) (name : String) (s : SmtSort) :
    List (String × SmtSort × Reading) → List InputRead → Prop
  | poll {id : Nat} {call : SymbolicCall} {r : InputRead} (hinput : env.isInput name = true)
      (hcall : env.callOf? name = some (id, call)) (hr : r.AsksFor env s id call) :
      Adds env name s [] [r]
  | pin {r : Reading} (hinput : env.isInput name = false) (hreading : env.reading name = .ok r) :
      Adds env name s [(name, s, r)] []
  | skip {e : Error} (hinput : env.isInput name = false)
      (hreading : env.reading name = .error e) : Adds env name s [] []

/-- A path with more pins and polls. -/
structure Extends (path : CompiledPath) (pins : List (String × SmtSort × Reading))
    (polls : List InputRead) (path' : CompiledPath) : Prop where
  condition : path'.condition = path.condition
  precondition : path'.precondition = path.precondition
  pins : path'.pins = path.pins ++ pins
  polls : path'.polls = path.polls ++ polls

theorem addPoll_extends {s : SmtSort} {id : Nat} {call : SymbolicCall}
    (h : env.addPoll path s id call = .ok path') :
    ∃ r : InputRead, r.AsksFor env s id call ∧ Extends path [] [r] path' := by
  simp only [addPoll, bind_eq_ok] at h
  obtain ⟨x, hx, h⟩ := h
  obtain rfl := Result.recover_eq_ok hx
  cases hterms : call.arguments.mapM env.term with
  | error error =>
      simp only [hterms] at h
      obtain rfl := Except.ok.inj h
      exact ⟨_, ⟨rfl, rfl, rfl, by simp⟩, rfl, rfl, by simp, rfl⟩
  | ok terms =>
      simp only [hterms] at h
      obtain rfl := Except.ok.inj h
      refine ⟨_, ⟨rfl, rfl, rfl, ?_⟩, rfl, rfl, by simp, rfl⟩
      rintro _ ⟨⟩
      exact hterms

theorem addVariable_extends {name : String} {s : SmtSort}
    (h : env.addVariable path name s = .ok path') :
    ∃ pins polls, env.Adds name s pins polls ∧ Extends path pins polls path' := by
  unfold addVariable at h
  cases hinput : env.isInput name with
  | true =>
      obtain ⟨id, call, hcall⟩ := exists_call_of_isInput hinput
      simp only [hinput, if_true, hcall] at h
      obtain ⟨r, hr, hextends⟩ := addPoll_extends h
      exact ⟨[], [r], .poll hinput hcall hr, hextends⟩
  | false =>
      simp only [hinput, Bool.false_eq_true, if_false, bind_eq_ok] at h
      obtain ⟨x, hx, h⟩ := h
      obtain rfl := Result.recover_eq_ok hx
      cases hreading : env.reading name with
      | error e =>
          simp only [hreading] at h
          obtain rfl := Except.ok.inj h
          exact ⟨[], [], .skip hinput hreading, rfl, rfl, by simp, by simp⟩
      | ok r =>
          simp only [hreading] at h
          obtain rfl := Except.ok.inj h
          exact ⟨_, [], .pin hinput hreading, rfl, rfl, rfl, by simp⟩

/-- What variables add, one after the other. -/
inductive AddsAll (env : Environment) : List (String × SmtSort) →
    List (String × SmtSort × Reading) → List InputRead → Prop
  | nil : AddsAll env [] [] []
  | cons {name : String} {s : SmtSort} {vars : List (String × SmtSort)}
      {pins pins' : List (String × SmtSort × Reading)} {polls polls' : List InputRead}
      (h : env.Adds name s pins polls) (hvars : AddsAll env vars pins' polls') :
      AddsAll env ((name, s) :: vars) (pins ++ pins') (polls ++ polls')

theorem foldlM_addVariable {vars : List (String × SmtSort)}
    (h : vars.foldlM (fun path (name, s) => env.addVariable path name s) path = .ok path') :
    ∃ pins polls, env.AddsAll vars pins polls ∧ Extends path pins polls path' := by
  induction vars generalizing path with
  | nil =>
      obtain rfl : path = path' := by simpa using h
      exact ⟨[], [], .nil, rfl, rfl, by simp, by simp⟩
  | cons v vars ih =>
      simp only [List.foldlM_cons, bind_eq_ok] at h
      obtain ⟨next, hnext, h⟩ := h
      obtain ⟨pins, polls, hadds, hpath⟩ := addVariable_extends hnext
      obtain ⟨pins', polls', hall, hrest⟩ := ih h
      refine ⟨_, _, .cons hadds hall, hrest.condition.trans hpath.condition,
        hrest.precondition.trans hpath.precondition, ?_, ?_⟩
      · rw [hrest.pins, hpath.pins, List.append_assoc]
      · rw [hrest.polls, hpath.polls, List.append_assoc]

namespace AddsAll

variable {vars : List (String × SmtSort)} {pins : List (String × SmtSort × Reading)}
  {polls : List InputRead} {name : String} {s : SmtSort}

/-- A variable without input that can be read is pinned. -/
theorem pinned (h : env.AddsAll vars pins polls) (hmem : (name, s) ∈ vars) {r : Reading}
    (hinput : env.isInput name = false) (hreading : env.reading name = .ok r) :
    (name, s, r) ∈ pins := by
  induction h with
  | nil => simp at hmem
  | cons hadds _ ih =>
      rcases List.mem_cons.mp hmem with heq | hmem
      · cases heq
        cases hadds with
        | poll hinput' => simp [hinput] at hinput'
        | pin _ hreading' =>
            obtain rfl := Except.ok.inj (hreading.symm.trans hreading')
            simp
        | skip _ hreading' => simp [hreading] at hreading'
      · exact List.mem_append_right _ (ih hmem)

/-- A variable that the player controls is polled. -/
theorem polled (h : env.AddsAll vars pins polls) (hmem : (name, s) ∈ vars)
    (hinput : env.isInput name = true) :
    ∃ r ∈ polls, ∃ id call, env.callOf? name = some (id, call) ∧ r.AsksFor env s id call := by
  induction h with
  | nil => simp at hmem
  | cons hadds _ ih =>
      rcases List.mem_cons.mp hmem with heq | hmem
      · cases heq
        cases hadds with
        | poll _ hcall hr => exact ⟨_, by simp, _, _, hcall, hr⟩
        | pin hinput' | skip hinput' => simp [hinput] at hinput'
      · obtain ⟨r, hr, hasks⟩ := ih hmem
        exact ⟨r, List.mem_append_right _ hr, hasks⟩

/-- A pin is of a variable. -/
theorem mem_pins (h : env.AddsAll vars pins polls) {pin : String × SmtSort × Reading}
    (hpin : pin ∈ pins) :
    (pin.1, pin.2.1) ∈ vars ∧ env.isInput pin.1 = false ∧ env.reading pin.1 = .ok pin.2.2 := by
  induction h with
  | nil => simp at hpin
  | cons hadds _ ih =>
      rcases List.mem_append.mp hpin with hpin | hpin
      · cases hadds with
        | poll | skip => simp at hpin
        | pin hinput hreading =>
            obtain rfl := List.mem_singleton.mp hpin
            exact ⟨List.mem_cons_self, hinput, hreading⟩
      · exact ⟨List.mem_cons_of_mem _ (ih hpin).1, (ih hpin).2⟩

/-- A poll is of a variable. -/
theorem mem_polls (h : env.AddsAll vars pins polls) {r : InputRead} (hr : r ∈ polls) :
    ∃ name s id call, (name, s) ∈ vars ∧ env.isInput name = true ∧
      env.callOf? name = some (id, call) ∧ r.AsksFor env s id call := by
  induction h with
  | nil => simp at hr
  | cons hadds _ ih =>
      rcases List.mem_append.mp hr with hr | hr
      · cases hadds with
        | pin | skip => simp at hr
        | poll hinput hcall hasks =>
            obtain rfl := List.mem_singleton.mp hr
            exact ⟨_, _, _, _, List.mem_cons_self, hinput, hcall, hasks⟩
      · obtain ⟨name, s, id, call, hmem, hrest⟩ := ih hr
        exact ⟨name, s, id, call, List.mem_cons_of_mem _ hmem, hrest⟩

end AddsAll

/-! ## The path -/

/-- What a compiled path is made of. -/
structure Compiles (env : Environment) (es : List Formula) (path : CompiledPath) : Prop where
  condition : path.condition = es
  precondition : ∀ p ∈ path.precondition, ∃ e ∈ es, env.mentionsInput e = false ∧
    Predicate.compile env e = .ok p
  adds : env.AddsAll (variablesOf es).toList path.pins path.polls

theorem compile_compiles (h : env.compile condition = .ok path) : env.Compiles condition path := by
  simp only [compile, bind_eq_ok] at h
  obtain ⟨first, hfirst, h⟩ := h
  obtain ⟨pins, polls, hvariables, hpath⟩ := foldlM_addVariable h
  obtain ⟨hcondition, hpins, hpolls, hprecondition⟩ : first.condition = condition ∧
      first.pins = [] ∧ first.polls = [] ∧ ∀ p ∈ first.precondition, ∃ e ∈ condition,
        env.mentionsInput e = false ∧ Predicate.compile env e = .ok p := by
    refine foldlM_induction (P := fun q => q.condition = condition ∧ q.pins = [] ∧ q.polls = [] ∧
      ∀ p ∈ q.precondition, ∃ e ∈ condition,
        env.mentionsInput e = false ∧ Predicate.compile env e = .ok p) ?_ ?_ hfirst
    · rintro q e he ⟨hcondition, hpins, hpolls, hprecondition⟩ q' hq'
      obtain ⟨hcondition', hpins', hpolls', hprecondition'⟩ := addConjunct_eq_ok hq'
      refine ⟨hcondition'.trans hcondition, hpins'.trans hpins, hpolls'.trans hpolls, ?_⟩
      intro p hp
      rcases hprecondition' p hp with hp | hnew
      · exact hprecondition p hp
      · exact ⟨e, he, hnew⟩
    · exact ⟨rfl, rfl, rfl, by simp⟩
  refine ⟨hpath.condition.trans hcondition, ?_, ?_⟩
  · rw [hpath.precondition]
    exact hprecondition
  · rw [hpath.pins, hpath.polls, hpins, hpolls]
    simpa using hvariables

end Environment

end PlayerPaths
