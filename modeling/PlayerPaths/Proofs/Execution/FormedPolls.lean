import PlayerPaths.Proofs.Execution.FormedSteps
import PlayerPaths.Proofs.Execution.Polling

/-!
# Polls keep states formed

A poll that is the first one of its kind is noted as a call, and its number is kept with its method
and the texts of its arguments; later polls of this kind find the call there (`Polls.Recorded`). So
polls are numbered without gaps and a call that is reused has been noted, and the policy for input
keeps states formed (`Policy.input_lawful`).
-/

namespace PlayerPaths

open IL Formula

/-- A call of a method with arguments of some texts. -/
def SymbolicCall.IsPoll (call : SymbolicCall) (key : String × String) : Prop :=
  call.method.signature = key.1 ∧
    ∃ texts, Formula.texts call.arguments = .ok texts ∧ ";".intercalate texts = key.2

/-- A call is a poll of one kind only. -/
theorem SymbolicCall.IsPoll.unique {call : SymbolicCall} {key key' : String × String}
    (h : call.IsPoll key) (h' : call.IsPoll key') : key = key' := by
  obtain ⟨hmethod, texts, htexts, harguments⟩ := h
  obtain ⟨hmethod', texts', htexts', harguments'⟩ := h'
  obtain rfl : texts = texts' := Except.ok.inj (htexts.symm.trans htexts')
  exact Prod.ext (hmethod.symm.trans hmethod') (harguments.symm.trans harguments')

instance : Std.TransCmp pollOrder := by
  unfold pollOrder
  infer_instance

instance : Std.LawfulEqCmp pollOrder where
  eq_of_compare {p q} h := by
    simp only [compareLex, compareOn, Ordering.then_eq_eq] at h
    exact Prod.ext (Std.LawfulEqCmp.eq_of_compare h.1) (Std.LawfulEqCmp.eq_of_compare h.2)

/-- Every poll has been noted as a call of its kind. -/
def Polls.Recorded (polls : Polls) (calls : Std.TreeMap Nat SymbolicCall) : Prop :=
  ∀ (key : String × String) (id : Nat), polls.ids[key]? = some id →
    ∃ call, calls[id]? = some call ∧ call.IsPoll key

namespace Polls.Recorded

variable {polls : Polls} {calls : Std.TreeMap Nat SymbolicCall} {id : Nat} {call : SymbolicCall}

/-- Another call may be noted. -/
theorem insert_call (h : polls.Recorded calls) (hid : id ∉ calls) :
    polls.Recorded (calls.insert id call) := by
  intro key id' hkey
  obtain ⟨call', hcall', hpoll⟩ := h key id' hkey
  refine ⟨call', ?_, hpoll⟩
  rw [Std.TreeMap.getElem?_insert, if_neg, hcall']
  intro heq
  obtain rfl := Nat.compare_eq_eq.mp heq
  exact hid (mem_iff_exists_getElem?.mpr ⟨call', hcall'⟩)

/-- A poll is noted together with its number. -/
theorem insert (h : polls.Recorded calls) (hid : id ∉ calls) {key : String × String}
    (hpoll : call.IsPoll key) : Recorded ⟨polls.ids.insert key id⟩ (calls.insert id call) := by
  intro key' id' hkey'
  rw [Std.TreeMap.getElem?_insert] at hkey'
  split at hkey'
  · next heq =>
    obtain rfl := Option.some.inj hkey'
    obtain rfl : key = key' := Std.LawfulEqCmp.eq_of_compare heq
    exact ⟨call, by simp, hpoll⟩
  · exact h.insert_call hid key' id' hkey'

end Polls.Recorded

namespace Context

variable {c : Context} {s t : InputState} {m : MethodRef} {arguments : List Formula}

/-- States under the policy for input. -/
abbrev Kept (c : Context) (s : InputState) : Prop := s.Formed c Polls.Recorded

theorem Kept.fresh (h : c.Kept s) : s.callCount ∉ s.calls :=
  fun hmem => Nat.lt_irrefl _ ((h.calls _).mp hmem)

/-- **A poll has a legal value.** When it is not the first one of its kind, its call is there. -/
theorem poll_meets (h : c.Kept s) (harguments : ∀ e ∈ arguments, e.Legal c s.callCount) :
    Meets c.Harmless (fun r => s.Grown c Polls.Recorded r.2.2 ∧ r.1.Legal c r.2.2.callCount)
      (c.poll s m arguments) := by
  unfold poll
  refine (safe_texts arguments).eq_ok.bind fun texts htexts => ?_
  dsimp only
  split
  · next id hid =>
    obtain ⟨call, hcall, -⟩ := h.data _ id hid
    have hmem : id ∈ s.calls := mem_iff_exists_getElem?.mpr ⟨call, hcall⟩
    have hreuse : Meets c.Harmless
        (fun r => s.Grown c Polls.Recorded r.2 ∧ ∀ value ∈ r.1, value.Legal c r.2.callCount)
        (c.symbolicCall s m arguments id false) := by
      have hbelow : (Address.symcall id).Below s.callCount :=
        Address.below_symcall ((h.calls id).mp hmem)
      refine (freshValue_meets hbelow).bind fun value hvalue => ?_
      refine .guard (fun hmissing => ?_) fun _ => .pure ⟨.refl h, hvalue⟩
      rw [Std.TreeMap.mem_iff_contains] at hmem
      simp [hmem] at hmissing
    refine hreuse.bind fun r hr => ?_
    obtain ⟨value, t⟩ := r
    cases value with
    | none => exact .throw (c.harmless rfl)
    | some value => exact .pure ⟨hr.1, hr.2 value rfl⟩
  · have hdata : Polls.Recorded ⟨s.data.ids.insert (m.signature, ";".intercalate texts)
        s.callCount⟩ (s.calls.insert s.callCount ⟨m, arguments⟩) :=
      h.data.insert h.fresh ⟨rfl, texts, htexts, rfl⟩
    refine (symbolicCall_meets h harguments hdata).bind fun r hr => ?_
    obtain ⟨value, t⟩ := r
    cases value with
    | none => exact .throw (c.harmless rfl)
    | some value => exact .pure ⟨hr.1, hr.2 value rfl⟩

/-! ## Conditions -/

variable {n : Nat} {value : Formula}

theorem within_meets (h : value.Legal c n) {low high : Float} :
    Meets c.Harmless (Condition c n) (within value low high) := by
  refine (Build.compareArith_meets h (.real low)).bind fun lower hlower => ?_
  refine (Build.compareArith_meets h (.real high)).bind fun upper hupper => ?_
  exact Build.and_meets (forall_mem_pair hlower hupper)

theorem isClear_meets (h : value.Legal c n) : Meets c.Harmless (Condition c n) (isClear value) := by
  refine h.sort_meets.bind fun s hs => ?_
  split
  · exact Build.eq_meets h (.bits (h.sort_inRange hs))
  · exact .throw (c.harmless rfl)

theorem isSet_meets (h : value.Legal c n) : Meets c.Harmless (Condition c n) (isSet value) :=
  (isClear_meets h).bind fun _ hclear => Build.not_meets hclear.1

theorem callAssumptions_meets {id : Nat} (hid : id < n) :
    Meets c.Harmless (fun es => ∀ e ∈ es, e.Condition c n) (c.callAssumptions id m) := by
  unfold callAssumptions
  split
  · exact .pure (by simp)
  · refine (freshValue_meets (Address.below_symcall hid)).bind fun value hvalue => ?_
    cases value with
    | none => exact .pure (by simp)
    | some value =>
        have hvalue : value.Legal c n := hvalue value rfl
        dsimp only
        split
        · exact (within_meets hvalue).bind fun e he => .pure (List.forall_mem_singleton.mpr he)
        · split
          · refine (Build.get_meets hvalue).bind fun x hx => (within_meets hx).bind fun e he => ?_
            refine (Build.get_meets hvalue).bind fun y hy => (within_meets hy).bind fun f hf => ?_
            exact .pure (forall_mem_pair he hf)
          · exact .pure (by simp)

theorem possible_meets (h : c.Kept s) {conditions : List Formula} :
    Meets c.Harmless (fun _ => True) (c.possible s conditions) := by
  have hassumptions : Meets c.Harmless (fun _ => True) (c.assumptions s) := by
    refine (Meets.mapM (R := fun _ => True) ?_).bind fun _ _ => .pure trivial
    rintro ⟨id, call⟩ hcall
    have hid : id ∈ s.calls :=
      mem_iff_exists_getElem?.mpr ⟨call, Std.TreeMap.mem_toList_iff_getElem?_eq_some.mp hcall⟩
    exact (callAssumptions_meets ((h.calls id).mp hid)).imp fun _ _ => trivial
  exact hassumptions.bind fun _ _ => feasible_meets

/-! ## Forks -/

theorem forks_single (h : s.Grown c Polls.Recorded t)
    {result : Option Formula} (hresult : ∀ value ∈ result, value.Legal c t.callCount) :
    s.Forks c Polls.Recorded [(t, result)] :=
  List.forall_mem_singleton.mpr ⟨h, hresult⟩

theorem forks_value (h : s.Grown c Polls.Recorded t) (hvalue : value.Legal c t.callCount) :
    s.Forks c Polls.Recorded [(t, some value)] := by
  refine forks_single h ?_
  rintro _ ⟨⟩
  exact hvalue

theorem forks_trans (h : s.Grown c Polls.Recorded t)
    {forks : List (InputState × Option Formula)} (hforks : t.Forks c Polls.Recorded forks) :
    s.Forks c Polls.Recorded forks :=
  fun fork hfork => ⟨h.trans (hforks fork hfork).1, (hforks fork hfork).2⟩

/-- A state that has grown out of another one splits. -/
theorem split_meets (h : s.Grown c Polls.Recorded t) {cases : List Formula}
    (hcases : ∀ e ∈ cases, e.Condition c t.callCount) (hvalue : value.Legal c t.callCount) :
    Meets c.Harmless (s.Forks c Polls.Recorded) (c.split t cases value) := by
  refine (Meets.filterM fun case _ => possible_meets h.formed).bind fun kept hkept => ?_
  split
  · exact .pure (forks_value h.abort hvalue)
  · refine Meets.mapM fun case hcase => ?_
    refine (h.formed.assume_meets (hcases case (hkept case hcase))).bind fun u hu => ?_
    have hfork := forks_value (h.trans hu) (hvalue.mono hu.count_le)
    exact .pure (hfork _ (List.mem_singleton_self _))

theorem fork?_meets (h : c.Kept s) {conditions : List Formula}
    (hconditions : ∀ e ∈ conditions, e.Condition c s.callCount)
    {finish : InputState → InputState × Option Formula}
    (hfinish : ∀ t, s.Grown c Polls.Recorded t →
      s.Forks c Polls.Recorded [finish t]) :
    Meets c.Harmless (s.Forks c Polls.Recorded) (c.fork? s conditions finish) := by
  refine (possible_meets h).bind fun possible _ => ?_
  split
  · exact (h.assumeAll_meets hconditions).bind fun t ht => .pure (hfinish t ht)
  · exact .pure (List.forall_mem_nil _)

theorem pollEdge_meets (h : c.Kept s) {edge : Edge} {pressed wasPressed : Formula} {width : Nat}
    (hpressed : pressed.Legal c s.callCount) (hwasPressed : wasPressed.Legal c s.callCount)
    (hwidth : c.Typed → (SmtSort.bitVec width).inRange = true) :
    Meets c.Harmless (s.Forks c Polls.Recorded) (c.pollEdge s edge pressed wasPressed width) := by
  have hzero : (Formula.bits 0 width).Legal c s.callCount := .bits hwidth
  unfold pollEdge
  refine (Build.eq_meets hwasPressed hzero).bind fun wasClear hwasClear => ?_
  refine (Build.ne_meets hpressed hzero).bind fun isSet hisSet => ?_
  refine (Build.ne_meets hwasPressed hzero).bind fun wasSet hwasSet => ?_
  refine (Build.eq_meets hpressed hzero).bind fun isClear hisClear => ?_
  have hdown : ∀ e ∈ [wasClear, isSet], e.Condition c s.callCount :=
    forall_mem_pair hwasClear hisSet
  have hup : ∀ e ∈ [wasSet, isClear], e.Condition c s.callCount :=
    forall_mem_pair hwasSet hisClear
  -- The edge that is asked for and the contrary one; the rest is the same for both.
  cases edge
  case' down => have hasked := hdown; have hcontrary := hup
  case' up => have hasked := hup; have hcontrary := hdown
  all_goals
    refine (Build.and_meets hasked).bind fun all hall => ?_
    refine (Build.not_meets hall.1).bind fun other hother => ?_
    refine (fork?_meets h (List.forall_mem_singleton.mpr hother) fun t ht =>
      forks_value ht (.bits hwidth)).bind fun no hno => ?_
    refine (fork?_meets h hasked fun t ht => forks_value ht (.bits hwidth)).bind fun yes hyes => ?_
    refine (fork?_meets h hcontrary fun t ht => forks_single ht.abort (by simp)).bind
      fun aborted haborted => ?_
    have hforks : s.Forks c Polls.Recorded (no ++ yes ++ aborted) :=
      List.forall_mem_append.mpr ⟨List.forall_mem_append.mpr ⟨hno, hyes⟩, haborted⟩
    split
    · exact .pure (forks_single (State.Grown.refl h).abort (by simp))
    · exact .pure hforks

/-! ## Polls -/

theorem axisCondition_meets (h : value.Legal c n) {a : AxisCase} :
    Meets c.Harmless (Condition c n) (axisCondition value a) := by
  cases a with
  | positive | negative => exact Build.compareArith_meets h (.real _)
  | zero => exact Build.eq_meets h (.real _)

theorem cellCondition_meets {x y : Formula} (hx : x.Legal c n) (hy : y.Legal c n)
    {column row : Nat} : Meets c.Harmless (Condition c n) (c.cellCondition x y column row) := by
  refine (Build.compareArith_meets hx (.real _)).bind fun left hleft => ?_
  refine (Build.compareArith_meets hx (.real _)).bind fun right hright => ?_
  refine (Build.compareArith_meets hy (.real _)).bind fun low hlow => ?_
  refine (Build.compareArith_meets hy (.real _)).bind fun high hhigh => Build.and_meets ?_
  exact List.forall_mem_cons.mpr
    ⟨hleft, List.forall_mem_cons.mpr ⟨hright, forall_mem_pair hlow hhigh⟩⟩

/-- A poll that is not the first one of its kind gives its value; the first one splits the state. -/
theorem pollAxis_meets (h : c.Kept s) (harguments : ∀ e ∈ arguments, e.Legal c s.callCount) :
    Meets c.Harmless (s.Forks c Polls.Recorded) (c.pollAxis s m arguments) := by
  refine (poll_meets h harguments).bind fun r hr => ?_
  obtain ⟨value, first, t⟩ := r
  obtain ⟨hgrown, hvalue⟩ := hr
  cases first with
  | false => exact .pure (forks_value hgrown hvalue)
  | true =>
      refine (Meets.mapM fun a _ => axisCondition_meets hvalue).bind fun cases hcases => ?_
      exact split_meets hgrown hcases hvalue

theorem pollMousePosition_meets (h : c.Kept s)
    (harguments : ∀ e ∈ arguments, e.Legal c s.callCount) :
    Meets c.Harmless (s.Forks c Polls.Recorded) (c.pollMousePosition s m arguments) := by
  refine (poll_meets h harguments).bind fun r hr => ?_
  obtain ⟨value, first, t⟩ := r
  obtain ⟨hgrown, hvalue⟩ := hr
  cases first with
  | false => exact .pure (forks_value hgrown hvalue)
  | true =>
      refine (Build.get_meets hvalue).bind fun x hx => (Build.get_meets hvalue).bind fun y hy => ?_
      have hcells : Meets c.Harmless (fun cases => ∀ e ∈ cases, e.Condition c t.callCount)
          (c.cellConditions x y) :=
        Meets.mapM fun cell _ => cellCondition_meets hx hy
      refine hcells.bind fun cases hcases => ?_
      exact split_meets hgrown hcases hvalue

theorem pollButton_meets (h : c.Kept s) (harguments : ∀ e ∈ arguments, e.Legal c s.callCount) :
    Meets c.Harmless (s.Forks c Polls.Recorded) (c.pollButton s m arguments) := by
  unfold pollButton
  split
  · exact .throw (c.harmless rfl)
  · next base edge _ =>
    refine (poll_meets h harguments).bind fun r hr => ?_
    obtain ⟨pressed, first, t⟩ := r
    obtain ⟨ht, hpressed⟩ : s.Grown c Polls.Recorded t ∧ pressed.Legal c t.callCount := hr
    refine (poll_meets ht.formed fun e he => (harguments e he).mono ht.count_le).bind
      fun r' hr' => ?_
    obtain ⟨wasPressed, again, u⟩ := r'
    obtain ⟨hu, hwasPressed⟩ : t.Grown c Polls.Recorded u ∧ wasPressed.Legal c u.callCount := hr'
    have hpressed : pressed.Legal c u.callCount := hpressed.mono hu.count_le
    refine sortOf_meets.bind fun w hw => ?_
    split
    · cases edge with
      | some edge =>
          exact (pollEdge_meets hu.formed hpressed hwasPressed hw).imp fun forks hforks =>
            forks_trans (ht.trans hu) hforks
      | none =>
          cases first with
          | false => exact .pure (forks_value (ht.trans hu) hpressed)
          | true =>
              refine (Build.eq_meets hpressed (.bits hw)).bind fun isClear hisClear => ?_
              refine (Build.ne_meets hpressed (.bits hw)).bind fun isSet hisSet => ?_
              exact split_meets (ht.trans hu) (forall_mem_pair hisClear hisSet) hpressed
    · exact .throw (c.harmless rfl)

theorem summarizeInput_meets (h : c.Kept s)
    (harguments : ∀ e ∈ arguments, e.Legal c s.callCount) :
    Meets c.Harmless (s.Forks c Polls.Recorded) (c.summarizeInput s m arguments) := by
  unfold summarizeInput
  split
  · exact unknownCall_meets h harguments (h.data.insert_call h.fresh)
  · split
    · exact pollAxis_meets h harguments
    · split
      · exact pollMousePosition_meets h harguments
      · exact pollButton_meets h harguments

/-! ## Starts -/

theorem special_meets (n : Nat) {name : String} {ty : Ty} :
    Meets c.Harmless (Formula.Legal c n) (c.special name ty) := by
  have hbelow : (Address.special name).Below n := by
    rintro id ⟨⟩
  refine (freshValue_meets hbelow).bind fun value hvalue => ?_
  cases value with
  | none => exact .throw (c.harmless rfl)
  | some value => exact .pure (hvalue value rfl)

theorem pollMouseButton_meets (h : c.Kept s) {declaringType : String} :
    Meets c.Harmless (fun r => s.Grown c Polls.Recorded r.2 ∧ r.1.Legal c r.2.callCount)
      (c.pollMouseButton s declaringType) := by
  have hbutton : (Formula.bits 0 32).Legal c s.callCount := .bits fun _ => by decide
  exact (poll_meets h (List.forall_mem_singleton.mpr hbutton)).bind fun r hr => .pure hr

theorem startStates_meets (h : c.Kept s) {inside outside : List Formula}
    (hinside : ∀ e ∈ inside, e.Condition c s.callCount)
    (houtside : ∀ e ∈ outside, e.Condition c s.callCount) :
    Meets c.Harmless (fun ts => ∀ t ∈ ts, c.Kept t) (startStates s inside outside) := by
  refine (h.assumeAll_meets hinside).bind fun t ht => ?_
  refine (h.assumeAll_meets houtside).bind fun u hu => .pure ?_
  exact forall_mem_pair ht.formed hu.formed.abort

theorem startAfterPress_meets (h : c.Kept s) {released : Bool} :
    Meets c.Harmless (fun ts => ∀ t ∈ ts, c.Kept t) (c.startAfterPress s released) := by
  refine (pollMouseButton_meets h).bind fun r hr => ?_
  obtain ⟨pressed, t⟩ := r
  obtain ⟨ht, hpressed⟩ : s.Grown c Polls.Recorded t ∧ pressed.Legal c t.callCount := hr
  refine (special_meets t.callCount).bind fun wasDown hwasDown => ?_
  split
  · refine (isSet_meets hwasDown).bind fun down hdown => ?_
    refine (isClear_meets hpressed).bind fun clear hclear => ?_
    refine (isSet_meets hpressed).bind fun set hset => startStates_meets ht.formed ?_ ?_
    · exact forall_mem_pair hdown hclear
    · exact List.forall_mem_singleton.mpr hset
  · refine (isSet_meets hwasDown).bind fun down hdown => ?_
    refine (isClear_meets hpressed).bind fun clear hclear => startStates_meets ht.formed ?_ ?_
    · exact List.forall_mem_singleton.mpr hdown
    · exact List.forall_mem_singleton.mpr hclear

theorem startOverBounds_meets (h : c.Kept s) {name : String} :
    Meets c.Harmless (fun ts => ∀ t ∈ ts, c.Kept t) (c.startOverBounds s name) := by
  unfold startOverBounds
  refine .guard (fun _ => c.harmless rfl) fun _ => ?_
  refine (poll_meets h (by simp)).bind fun r hr => ?_
  obtain ⟨position, first, t⟩ := r
  obtain ⟨ht, hposition⟩ : s.Grown c Polls.Recorded t ∧ position.Legal c t.callCount := hr
  refine (Build.get_meets hposition).bind fun x hx => ?_
  refine (Build.get_meets hposition).bind fun y hy => ?_
  have hspecial : ∀ {name : String} {ty : Ty},
      Meets c.Harmless (Formula.Legal c t.callCount) (c.special name ty) := special_meets _
  -- The bounds, and what is inside and outside of them.
  refine hspecial.bind fun minx hminx => (Build.compareArith_meets hx hminx).bind
    fun left hleft => ?_
  refine hspecial.bind fun maxx hmaxx => (Build.compareArith_meets hx hmaxx).bind
    fun right hright => ?_
  refine hspecial.bind fun miny hminy => (Build.compareArith_meets hy hminy).bind fun low hlow => ?_
  refine hspecial.bind fun maxy hmaxy => (Build.compareArith_meets hy hmaxy).bind
    fun high hhigh => ?_
  have hbounds : ∀ e ∈ [left, right, low, high], e.Condition c t.callCount :=
    List.forall_mem_cons.mpr
      ⟨hleft, List.forall_mem_cons.mpr ⟨hright, forall_mem_pair hlow hhigh⟩⟩
  refine (Build.and_meets hbounds).bind fun inBounds hin => ?_
  refine (within_meets hx).bind fun onScreenX honX => (within_meets hy).bind
    fun onScreenY honY => ?_
  refine (Build.and_meets (forall_mem_pair honX honY)).bind fun onScreen hon => ?_
  refine (Build.not_meets hin.1).bind fun outOfBounds hout => ?_
  have houtside : ∀ e ∈ [outOfBounds, onScreen], e.Condition c t.callCount :=
    forall_mem_pair hout hon
  split
  · exact startStates_meets ht.formed (List.forall_mem_singleton.mpr hin) houtside
  · refine (pollMouseButton_meets ht.formed).bind fun r hr => ?_
    obtain ⟨pressed, u⟩ := r
    obtain ⟨hu, hpressed⟩ : t.Grown c Polls.Recorded u ∧ pressed.Legal c u.callCount := hr
    refine (pollMouseButton_meets hu.formed).bind fun r hr => ?_
    obtain ⟨wasPressed, v⟩ := r
    obtain ⟨hv, hwasPressed⟩ : u.Grown c Polls.Recorded v ∧ wasPressed.Legal c v.callCount := hr
    have hpressed : pressed.Legal c v.callCount := hpressed.mono hv.count_le
    refine (isClear_meets hwasPressed).bind fun was hwas => ?_
    refine (isSet_meets hpressed).bind fun set hset => ?_
    refine (isClear_meets hpressed).bind fun clear hclear => startStates_meets hv.formed ?_ ?_
    · have hin : inBounds.Condition c v.callCount := hin.mono (hu.trans hv).count_le
      exact List.forall_mem_cons.mpr ⟨hwas, forall_mem_pair hset hin⟩
    · exact List.forall_mem_singleton.mpr hclear
  · refine hspecial.bind fun entered hentered => ?_
    refine (isClear_meets hentered).bind fun clear hclear => ?_
    exact startStates_meets ht.formed (forall_mem_pair hclear hin) houtside
  · refine hspecial.bind fun entered hentered => ?_
    refine (isSet_meets hentered).bind fun set hset => ?_
    refine startStates_meets ht.formed ?_ (List.forall_mem_singleton.mpr hin)
    exact List.forall_mem_cons.mpr ⟨hset, houtside⟩
  · refine (pollMouseButton_meets ht.formed).bind fun r hr => ?_
    obtain ⟨pressed, u⟩ := r
    obtain ⟨hu, hpressed⟩ : t.Grown c Polls.Recorded u ∧ pressed.Legal c u.callCount := hr
    refine (special_meets u.callCount).bind fun wasDown hwasDown => ?_
    refine (isSet_meets hwasDown).bind fun down hdown => ?_
    refine (isClear_meets hpressed).bind fun clear hclear => startStates_meets hu.formed ?_ ?_
    · exact List.forall_mem_cons.mpr ⟨hdown, forall_mem_pair hclear (hin.mono hu.count_le)⟩
    · exact fun e he => (houtside e he).mono hu.count_le

theorem startStatesOf_meets (h : c.Kept s) :
    Meets c.Harmless (fun ts => ∀ t ∈ ts, c.Kept t) (c.startStatesOf s) := by
  unfold startStatesOf
  split
  case h_1 | h_2 | h_3 => exact .pure (List.forall_mem_singleton.mpr h)
  case h_4 | h_5 => exact startAfterPress_meets h
  case h_6 | h_7 | h_8 | h_9 | h_10 => exact startOverBounds_meets h
  case h_11 => exact .throw (c.harmless rfl)

end Context

/-- **The policy for input keeps states formed.** -/
theorem Policy.input_lawful (c : Context) (leads : LeadsResult) :
    (Policy.input c leads).Lawful c Polls.Recorded where
  initial key id hid := by simp [Policy.input] at hid
  start h := Context.startStatesOf_meets h
  summarize h harguments := Context.summarizeInput_meets h harguments

end PlayerPaths
