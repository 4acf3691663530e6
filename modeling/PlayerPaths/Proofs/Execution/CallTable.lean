import PlayerPaths.Proofs.Execution.CheckedFormulas
import PlayerPaths.Proofs.Live.Reading

/-!
# The table of calls

The calls that a state has noted are numbered without gaps, every variable that stands for the result
of a call belongs to one of them, and the arguments of a call mention earlier calls only
(`State.Tabled`). So the variables of a state can be read by a recursion over the arguments of calls,
which needs no guard and misses no call. Polls are told apart by their calls (`Polls.Faithful`).
-/

namespace PlayerPaths

open IL

variable {D : Type}

/-- The calls of a state, and what can be said about the variables of its formulas. -/
structure State.Tabled (s : State D) : Prop where
  calls : ∀ id, id ∈ s.calls ↔ id < s.callCount
  belongs : ∀ e ∈ s.formulas, ∀ name t, .var name t ∈ e.parts →
    Address.NameBelow s.callCount name
  arguments : ∀ (id : Nat) (call : SymbolicCall), s.calls[id]? = some call →
    ∀ e ∈ call.arguments, ∀ name t, .var name t ∈ e.parts → Address.NameBelow id name

/-- The variables of a state can be read, in any application, by a recursion over the arguments of
calls that has no guard and misses no call. -/
def State.Readable (s : State D) : Prop :=
  ∀ (registry : Registry) (api : InputApi), ∀ e ∈ s.formulas, ∀ name t, .var name t ∈ e.parts →
    let env : Environment := { calls := s.calls, registry, api }
    env.Settles name (env.reading name) ∧
      ∀ id : Nat, env.reading name ≠ .error (.resolution s!"no symcall {id} on the path")

/-- Every poll has been noted with its method and the texts of its arguments, and no two kinds of
polls share a call. -/
structure Polls.Faithful (polls : Polls) (calls : Std.TreeMap Nat SymbolicCall) : Prop where
  recorded : polls.Recorded calls
  injective : ∀ (key key' : String × String) (id : Nat), polls.ids[key]? = some id →
    polls.ids[key']? = some id → key = key'

theorem Polls.Recorded.faithful {polls : Polls} {calls : Std.TreeMap Nat SymbolicCall}
    (h : polls.Recorded calls) : polls.Faithful calls where
  recorded := h
  injective key key' id hkey hkey' := by
    obtain ⟨call, hcall, hpoll⟩ := h key id hkey
    obtain ⟨call', hcall', hpoll'⟩ := h key' id hkey'
    obtain rfl := Option.some.inj (hcall.symm.trans hcall')
    exact hpoll.unique hpoll'

namespace State

variable {c : Context} {I : D → Std.TreeMap Nat SymbolicCall → Prop} {s : State D}

theorem Formed.tabled (h : s.Formed c I) : s.Tabled where
  calls := h.calls
  belongs _ he name t hpart := (h.legal he).below _ hpart name t rfl
  arguments id call hcall e he name t hpart :=
    (h.arguments id call hcall e he).below _ hpart name t rfl

theorem Tabled.readable (h : s.Tabled) : s.Readable := by
  intro registry api e he name t hpart env
  have hordered : env.Ordered := by
    rintro id inner ⟨call, hcall, e, he, t, hpart⟩
    exact h.arguments id call hcall e he inner t hpart
  refine ⟨hordered.settles name, fun id herror => ?_⟩
  have hmeets := hordered.reading_meets (fun id => (h.calls id).mpr) (h.belongs e he name t hpart)
  exact hmeets.error herror id rfl

end State

namespace Machine

/-- **The table of calls is complete and acyclic** in every state, and the variables of the state can
be read. The policy for input keeps every poll with its call. -/
theorem calls_tabled (c : Context) :
    (∀ s, (Machine.default c).Reached s → s.Tabled ∧ s.Readable) ∧
      ∀ leads s, (Machine.input c leads).Reached s →
        s.Tabled ∧ s.Readable ∧ s.data.Faithful s.calls := by
  refine ⟨fun s hs => ?_, fun leads s hs => ?_⟩
  · have h := (hs.formed (Policy.default_lawful c)).tabled
    exact ⟨h, h.readable⟩
  · have hformed := hs.formed (Policy.input_lawful c leads)
    exact ⟨hformed.tabled, hformed.tabled.readable, hformed.data.faithful⟩

theorem passing_calls_tabled :
    (∃ s, passingMachine.Reached s ∧ (∃ call ∈ s.calls.values, call.arguments ≠ []) ∧
      s.Tabled ∧ s.Readable) ∧
    ∃ s, keyMachine.Reached s ∧ s.data.ids.size = 2 ∧ s.data.Faithful s.calls := by
  constructor
  · obtain ⟨s, hs, hcheck⟩ := exists_reached (m := passingMachine) (n := 3)
      (p := fun s => s.calls.values.any fun call => !call.arguments.isEmpty) (by decide +kernel)
    obtain ⟨call, hcall, hne⟩ := List.any_eq_true.mp hcheck
    exact ⟨s, hs, ⟨call, hcall, by simpa using hne⟩, (calls_tabled passingMachine.context).1 s hs⟩
  · obtain ⟨s, hs, hcheck⟩ := exists_reached (m := keyMachine) (n := 1)
      (p := fun s => s.data.ids.size == 2) (by decide +kernel)
    exact ⟨s, hs, by simpa using hcheck, ((calls_tabled keyMachine.context).2 _ s hs).2.2⟩

end Machine

end PlayerPaths
