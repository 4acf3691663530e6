import PlayerPaths.Proofs.Live.Predicates

/-!
# Receivers of calls

The arguments of a call are terms, so what its invoker gets has been turned into a constant and back.
A reference becomes its identity on the way, and an identity stays an integer, or becomes the null
reference when it is zero: where the first argument of a call is a variable that is read as an
object, the invoker gets the identity of the object first (`Environment.receiver_by_identity`), and
not the object (`Environment.receiver_lost`).

The variable is read without the call whose argument it is in. It makes no difference, because what
can be read with some calls is read in the same way with more of them (`Environment.Within.reading`).
-/

namespace PlayerPaths

open Formula

/-- Only an integer equals an integer. -/
theorem Value.eq_integer_of_equals {v : Value} {i : Int} (h : v.equals (.integer i) = true) :
    v = .integer i := by
  cases v <;> simp_all [equals]

/-! ## Terms of variables -/

namespace Term

variable {read : String → Result Reading} {component : Value} {e : Formula} {t : Term}

/-- The variables of a formula that has a term can be read. -/
theorem exists_reading {name : String} {s : SmtSort} (h : compile read e = .ok t)
    (hvar : .var name s ∈ e.parts) : ∃ r, read name = .ok r := by
  obtain ⟨-, hreadings⟩ := compile_eq_ok h
  obtain ⟨s', hs'⟩ := mem_freeVariables_of_var hvar
  obtain ⟨_, -, r, hr, -⟩ := forall₂_exists_of_mem_left hreadings hs'
  exact ⟨r, hr⟩

/-- A variable that is read as an object has the identity of the object as a value, and null when the
identity is zero. -/
theorem value_of_object {name typeName : String} {r : Reading} {o : Nat}
    {fields : List (String × Value)} (h : compile read (.var name .int) = .ok t)
    (hr : read name = .ok r) (hobject : r.read component = .ok (.object o typeName fields))
    (hlimit : o < Word.limit) :
    t.value component = .ok (if o = 0 then .null else .integer (Word.toInt o)) := by
  have hbinds : Binds read component (fun _ => some (.int (Word.toInt o))) (.var name .int) := by
    rintro a ha ⟨inner, s⟩ hentry r' hr'
    obtain rfl := mem_parts_var.mp ha
    obtain ⟨rfl, rfl⟩ : inner = name ∧ s = .int := by
      simpa using mem_occurrences.mp (mem_occurrences_of_mem_freeVariables hentry)
    obtain rfl := Except.ok.inj (hr.symm.trans hr')
    exact ⟨_, ⟨_, hobject, rfl⟩, rfl⟩
  have hzero : Word.toInt o = 0 ↔ o = 0 := by
    have hpow : 0 < pow2 63 := by decide
    unfold Word.toInt
    split <;> omega
  unfold value
  rw [evaluate_of_eval h hbinds rfl]
  simp [Value.ofFormula, Value.ofLiteral, hzero, Bind.bind, Except.bind, Pure.pure, Except.pure]

end Term

/-! ## More calls -/

namespace Environment

variable {env env' : Environment} {name inner : String} {id : Nat} {r : Reading}

/-- How a variable is read that stands for the result of a call. -/
theorem readingBy_symcall {read : Nat → String → Result Reading} {a : Address}
    (hname : Address.read? name = some a) (hroot : a.root = .symcall id)
    (h : env.readingBy read name = .ok r) :
    ∃ call invoke arguments, env.calls[id]? = some call ∧
      env.registry.method call.method.signature = .ok invoke ∧
      call.arguments.mapM (Term.compile (read id)) = .ok arguments ∧
      r = a.suffixes.foldl Reading.access
        (callReading call.method.signature invoke arguments) := by
  unfold readingBy at h
  rw [hname] at h
  dsimp only at h
  rw [hroot] at h
  dsimp only at h
  cases hcall : env.calls[id]? with
  | none => simp [hcall] at h
  | some call =>
      simp only [hcall, bind_eq_ok, pure_eq_ok] at h
      obtain ⟨invoke, hinvoke, arguments, harguments, _, rfl, rfl⟩ := h
      exact ⟨call, invoke, arguments, rfl, hinvoke, harguments, rfl⟩

/-- The calls of an environment are calls of another one, which knows the same accessors. -/
structure Within (env env' : Environment) : Prop where
  registry : env.registry = env'.registry
  calls : ∀ (id : Nat) call, env.calls[id]? = some call → env'.calls[id]? = some call

theorem Within.without (h : env.Within env') (id : Nat) :
    (env.without id).Within (env'.without id) where
  registry := h.registry
  calls id' call hcall := by
    simp only [Environment.without, Std.TreeMap.getElem?_erase] at hcall ⊢
    split at hcall
    · cases hcall
    · next hne =>
      rw [if_neg hne]
      exact h.calls id' call hcall

theorem without_within (env : Environment) (id : Nat) : (env.without id).Within env where
  registry := rfl
  calls id' call hcall := by
    rw [Environment.without, Std.TreeMap.getElem?_erase] at hcall
    split at hcall
    · cases hcall
    · exact hcall

/-- **What can be read is read in the same way with more calls.** -/
theorem Within.reading (h : env.Within env') (hr : env.reading name = .ok r) :
    env'.reading name = .ok r := by
  -- The environment for the arguments of a call has one call less.
  induction hsize : env.calls.size using Nat.strongRecOn generalizing env env' name r with
  | ind size ih =>
      rw [← hr, env'.reading_eq, env.reading_eq]
      rw [env.reading_eq] at hr
      refine (readingBy_congr h.registry ?_ ?_).symm
      · intro a id hname hroot
        obtain ⟨call, -, -, hcall, -⟩ := readingBy_symcall hname hroot hr
        rw [hcall, h.calls id call hcall]
      · rintro id inner ⟨⟨a, hname, hroot⟩, call, hcall, e, he, s, hvar⟩
        obtain ⟨call', -, arguments, hcall', -, harguments, -⟩ := readingBy_symcall hname hroot hr
        obtain rfl := Option.some.inj (hcall.symm.trans hcall')
        obtain ⟨t, -, ht⟩ := forall₂_exists_of_mem_left (mapM_eq_ok.mp harguments) he
        obtain ⟨r', hr'⟩ := Term.exists_reading ht hvar
        rw [hr', ih _ (hsize ▸ size_without_lt hcall) (h.without id) hr' rfl]

/-! ## What invokers get -/

/-- **Invokers get the identity of the receiver.** Let a variable stand for (a part of) the result of
a call whose first argument is a reference variable. In every environment in which both can be read,
and wherever the reference variable is read as an object, the variable is read by calling the invoker
of the method with the identity of the object, as an integer (null for zero), in front of the values
of the other arguments, and then following the suffixes. -/
theorem receiver_by_identity {a : Address} {call : SymbolicCall} {others : List Formula}
    {reading : Reading} {component : Value} {o : Nat} {typeName : String}
    {fields : List (String × Value)} (hname : Address.read? name = some a)
    (hroot : a.root = .symcall id) (hcall : env.calls[id]? = some call)
    (harguments : call.arguments = .var inner .int :: others)
    (hreading : env.reading name = .ok reading) (hinner : env.reading inner = .ok r)
    (hobject : r.read component = .ok (.object o typeName fields)) (hlimit : o < Word.limit) :
    ∃ invoke terms source, env.registry.method call.method.signature = .ok invoke ∧
      others.mapM (env.without id).term = .ok terms ∧
      reading = a.suffixes.foldl Reading.access source ∧
      source.read component = (do
        let values ← terms.mapM fun t => t.value component
        invoke component ((if o = 0 then .null else .integer (Word.toInt o)) :: values)) := by
  rw [env.reading_eq] at hreading
  obtain ⟨call', invoke, arguments, hcall', hinvoke, hcompiled, rfl⟩ :=
    readingBy_symcall hname hroot hreading
  obtain rfl := Option.some.inj (hcall.symm.trans hcall')
  rw [harguments, mapM_eq_ok] at hcompiled
  cases hcompiled with
  | @cons _ t _ terms ht hterms =>
      -- The receiver can be read without the call, and then it is read as with it.
      obtain ⟨r', hr'⟩ := Term.exists_reading ht (mem_parts_self _)
      obtain rfl := Except.ok.inj (hinner.symm.trans ((env.without_within id).reading hr'))
      have hvalue := Term.value_of_object ht hr' hobject hlimit
      refine ⟨invoke, terms, _, hinvoke, mapM_eq_ok.mpr hterms, rfl, ?_⟩
      show ((t :: terms).mapM fun t => Term.value t component) >>= invoke component = _
      rw [List.mapM_cons, hvalue]
      exact bind_assoc (terms.mapM fun t => t.value component) _ _

/-- The component itself, as a reference variable. -/
def playerName : String := (Address.mk (.frame 0 .this) [.heapId]).text

/-- A player that was asked for itself. The method answers with the first value that it gets. -/
def asking : Environment where
  calls := Std.TreeMap.empty.insert 0
    ⟨{ declaringType := "Game.Player", name := "Me", parameterTypes := [],
       returnType := .object "Game.Player" }, [.var playerName .int]⟩
  registry := { methods :=
    Std.TreeMap.empty.insert "Game.Player.Me()" fun _ values => .ok (values.headD .null) }
  api := {}

def player : Value := .object 7 "Game.Player" []

theorem asking_reading_player : asking.reading playerName = .ok Reading.this := by
  have hname : Address.read? playerName = some ⟨.frame 0 .this, [.heapId]⟩ := by decide +kernel
  rw [reading_eq, readingBy, hname]
  rfl

def answerCheck (check : Reading → Bool) : Bool :=
  match asking.reading (Address.symcall 0).text with
  | .ok reading => check reading
  | .error _ => false

theorem exists_of_answerCheck {check : Reading → Bool} (h : answerCheck check = true) :
    ∃ reading, asking.reading (Address.symcall 0).text = .ok reading ∧ check reading = true := by
  unfold answerCheck at h
  split at h
  · next reading hreading => exact ⟨reading, hreading, h⟩
  · cases h

theorem asking_gets_identity :
    ∃ call reading, asking.calls[0]? = some call ∧ call.method.isStatic = false ∧
      call.arguments = [.var playerName .int] ∧
      asking.reading (Address.symcall 0).text = .ok reading ∧
      asking.reading playerName = .ok Reading.this ∧ Reading.this.read player = .ok player ∧
      ∃ invoke terms source, asking.registry.method call.method.signature = .ok invoke ∧
        [].mapM (asking.without 0).term = .ok terms ∧
        reading = [].foldl Reading.access source ∧
        source.read player = (do
          let values ← terms.mapM fun t => t.value player
          invoke player (.integer (Word.toInt 7) :: values)) := by
  have hcheck : answerCheck (fun _ => true) = true := by decide +kernel
  obtain ⟨reading, hreading, -⟩ := exists_of_answerCheck hcheck
  have hname : Address.read? (Address.symcall 0).text = some (Address.symcall 0) := by
    decide +kernel
  exact ⟨_, reading, rfl, rfl, rfl, hreading, asking_reading_player, rfl,
    receiver_by_identity hname rfl rfl rfl hreading asking_reading_player rfl (by decide)⟩

/-- **The receiver itself does not get to the invoker.** The component is read as a player, and the
method of the player that answers with the first value it gets answers with a number. -/
theorem receiver_lost :
    ∃ call reading, asking.calls[0]? = some call ∧ call.method.isStatic = false ∧
      call.arguments = [.var playerName .int] ∧
      asking.reading playerName = .ok Reading.this ∧ Reading.this.read player = .ok player ∧
      asking.reading (Address.symcall 0).text = .ok reading ∧
      reading.read player = .ok (.integer 7) ∧ reading.read player ≠ .ok player := by
  have hcheck : answerCheck (fun reading => match reading.read player with
      | .ok v => v.equals (.integer 7)
      | .error _ => false) = true := by
    decide +kernel
  obtain ⟨reading, hreading, h⟩ := exists_of_answerCheck hcheck
  have hread : reading.read player = .ok (.integer 7) := by
    split at h
    · next v hv => rw [hv, Value.eq_integer_of_equals h]
    · cases h
  refine ⟨_, reading, rfl, rfl, rfl, asking_reading_player, rfl, hreading, hread, ?_⟩
  rw [hread]
  simp [player]

end Environment

end PlayerPaths
