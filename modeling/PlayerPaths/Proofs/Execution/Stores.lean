import PlayerPaths.Proofs.Execution.AddressTexts
import PlayerPaths.Proofs.Execution.Memory
import PlayerPaths.Proofs.Formula.Records

/-!
# Stores to places

A store to a field of a value type writes the whole value around it again, made of the fields of the
old one. Reads of places obey the laws of a lens all the same (`Evaluator.store_laws`): what was
stored is read back, the places beside it are read as before, and the places in other slots are not
touched. But a field of a value that is written again has a value only where the whole value has one
(`Evaluator.undefined_neighbour`), and a slot with another address is another slot only as far as
the texts of addresses differ.
-/

namespace PlayerPaths

open IL Formula

/-! ## Places -/

namespace Place

variable {sorts : Sorts} {p q : Place} {s root : SmtSort} {f g : String}

/-- The slot that a place lies in. -/
def address : Place → Address
  | .slot a _ => a
  | .member p _ => p.address

/-- The type of the slot that a place lies in. -/
def type : Place → Ty
  | .slot _ t => t
  | .member p _ => p.type

/-- The fields on the way from the slot to the place. -/
def path : Place → List String
  | .slot .. => []
  | .member p f => p.path ++ [f]

/-- A place in a slot of a type with a sort, reached through records with different names for their
fields. -/
inductive HasSort (sorts : Sorts) : Place → SmtSort → Prop
  | slot {a : Address} {t : Ty} {s : SmtSort} (h : sorts.sort t = .ok s) :
      HasSort sorts (.slot a t) s
  | member {p : Place} {r : Record} {i : Nat} {f : String} {s : SmtSort}
      (hp : HasSort sorts p r.sort) (hr : r.Distinct) (hi : r.fields[i]? = some (f, s)) :
      HasSort sorts (.member p f) s

/-- Places in one slot whose paths part. -/
inductive Disjoint : Place → Place → Prop
  | fields {p : Place} {f g : String} (h : f ≠ g) : Disjoint (.member p f) (.member p g)
  | left {p q : Place} {f : String} (h : Disjoint p q) : Disjoint (.member p f) q
  | right {p q : Place} {g : String} (h : Disjoint p q) : Disjoint p (.member q g)

theorem ext (ha : p.address = q.address) (ht : p.type = q.type) (hpath : p.path = q.path) :
    p = q := by
  induction p generalizing q with
  | slot a t =>
      cases q with
      | slot b u =>
          obtain rfl : a = b := ha
          obtain rfl : t = u := ht
          rfl
      | member q g => simp [path] at hpath
  | member p f ih =>
      cases q with
      | slot b u => simp [path] at hpath
      | member q g =>
          obtain ⟨hinner, rfl⟩ : p.path = q.path ∧ f = g := by simpa [path] using hpath
          rw [ih (q := q) ha ht hinner]

/-- A path that goes on with another field leads to a disjoint place. -/
theorem disjoint_of_path {more : List String} (ha : p.address = q.address) (ht : p.type = q.type)
    (hne : f ≠ g) (hpath : q.path = p.path ++ g :: more) : Disjoint (.member p f) q := by
  induction q generalizing more with
  | slot b u => simp [path] at hpath
  | member q g' ih =>
      rcases List.eq_nil_or_concat more with rfl | ⟨init, last, rfl⟩
      · obtain ⟨hinner, rfl⟩ : q.path = p.path ∧ g' = g := by simpa [path] using hpath
        obtain rfl : p = q := ext ha ht hinner.symm
        exact .fields hne
      · have hinner : q.path ++ [g'] = (p.path ++ g :: init) ++ [last] := by
          simpa [path] using hpath
        exact .right (ih ha ht (List.append_inj_left' hinner rfl))

/-- Places in one slot are disjoint when neither path is the beginning of the other one. -/
theorem disjoint_of_not_prefix (ha : p.address = q.address) (ht : p.type = q.type)
    (hp : ¬ p.path <+: q.path) (hq : ¬ q.path <+: p.path) : Disjoint p q := by
  induction p with
  | slot a t => exact absurd List.nil_prefix hp
  | member p f ih =>
      by_cases hinner : p.path <+: q.path
      · -- The path of `q` goes on behind that of `p`, and not with `f`.
        obtain ⟨rest, hrest⟩ := hinner
        cases rest with
        | nil =>
            rw [List.append_nil] at hrest
            exact absurd ⟨[f], by rw [← hrest]; rfl⟩ hq
        | cons g more =>
            refine disjoint_of_path ha ht ?_ hrest.symm
            rintro rfl
            exact hp ⟨more, by simpa [path] using hrest⟩
      · exact .left (ih ha ht hinner fun h => hq (h.trans (List.prefix_append _ _)))

end Place

/-! ## Reads behind a store -/

namespace Evaluator

variable {v : Evaluator} {p q : Place} {s root : SmtSort} {u w : Formula} {a : Address}

/-- The evaluator behind a store to a slot. -/
def store (v : Evaluator) (a : Address) (w : Formula) : Evaluator :=
  { v with memory := v.memory.write a w }

theorem readPlace_member {e : Formula} {f : String} (h : v.readPlace p = .ok e) :
    v.readPlace (.member p f) = Build.get e f := by
  rw [readPlace, h]
  rfl

theorem assign_slot {t : Ty} (hs : v.sorts.sort t = .ok s) (hu : u.sort = .ok s) :
    v.assign (.slot a t) u = .ok (a, u) := by
  simp [assign, coerce, hs, hu]

theorem assign_member {e w : Formula} {f : String} (h : v.readPlace p = .ok e)
    (hset : Build.set e f u = .ok w) : v.assign (.member p f) u = v.assign p w := by
  rw [assign, h]
  show (do v.assign p (← Build.set e f u)) = _
  rw [hset]
  rfl

theorem readPlace_store_self {t : Ty} : (v.store a w).readPlace (.slot a t) = .ok w :=
  Memory.read_write_self

/-- Places in other slots are read as before. -/
theorem readPlace_store_of_ne (h : a.text ≠ q.address.text) :
    (v.store a w).readPlace q = v.readPlace q := by
  induction q with
  | slot b t => exact Memory.read_write_of_ne h
  | member q g ih => rw [readPlace, readPlace, ih h]

/-- The assignments under which the old value of the slot of a place is a value of its sort, and a
formula has a value. -/
def Defines (v : Evaluator) (p : Place) (root : SmtSort) (u : Formula) (σ : Assignment) : Prop :=
  (∃ old, v.read p.address p.type = .ok old ∧ old.HasValue σ root) ∧ ∃ x, u.eval σ = .ok x

/-- A place can be read when its slot holds what it should. -/
theorem exists_readPlace (hp : p.HasSort v.sorts s) (hroot : v.sorts.sort p.type = .ok root)
    (hslot : v.memory.Holds p.address root) : ∃ e, v.readPlace p = .ok e ∧ e.sort = .ok s ∧
      ∀ σ, v.Defines p root u σ → e.HasValue σ s := by
  induction hp with
  | @slot a t s hs =>
      obtain rfl : s = root := Except.ok.inj (hs.symm.trans hroot)
      obtain ⟨e, he, hsort⟩ := hslot.exists_read hs
      refine ⟨e, he, hsort, fun σ hσ => ?_⟩
      obtain ⟨⟨old, hold, hvalue⟩, -⟩ := hσ
      obtain rfl : e = old := Except.ok.inj (he.symm.trans hold)
      exact hvalue
  | @member p r i f s hp hr hi ih =>
      obtain ⟨e, he, hsort, hvalue⟩ := ih hroot hslot
      refine ⟨.unary (.get r i) e, ?_, Build.sort_get hi, fun σ hσ => (hvalue σ hσ).get hi⟩
      rw [readPlace_member he]
      exact Build.get_ok hsort hr hi

/-- A store to a field is a store of the record around it, with this field replaced. -/
theorem assign_field {r : Record} {i : Nat} {f : String} (hp : p.HasSort v.sorts r.sort)
    (hr : r.Distinct) (hi : r.fields[i]? = some (f, s)) (hroot : v.sorts.sort p.type = .ok root)
    (hslot : v.memory.Holds p.address root) (hu : u.sort = .ok s) :
    ∃ e, v.readPlace p = .ok e ∧ e.sort = .ok r.sort ∧
      v.assign (.member p f) u = v.assign p (.nary (.make r) (r.replace e i u)) ∧
      (∀ σ, v.Defines p root u σ → e.HasValue σ r.sort ∧ ∃ x, u.eval σ = .ok x) ∧
      ∀ σ, v.Defines p root u σ → v.Defines p root (.nary (.make r) (r.replace e i u)) σ := by
  obtain ⟨e, he, hsort, hvalue⟩ := exists_readPlace (u := u) hp hroot hslot
  refine ⟨e, he, hsort, assign_member he (Build.set_ok hsort hr hi hu),
    fun σ hσ => ⟨hvalue σ hσ, hσ.2⟩, fun σ hσ => ⟨hσ.1, ?_⟩⟩
  exact Build.exists_eval_set (hvalue σ hσ) hσ.2

/-- **What is stored is read back.** -/
theorem read_back (hp : p.HasSort v.sorts s) (hroot : v.sorts.sort p.type = .ok root)
    (hslot : v.memory.Holds p.address root) (hu : u.sort = .ok s) :
    ∃ w, v.assign p u = .ok (p.address, w) ∧
      OutcomesAgree (v.Defines p root u) ((v.store p.address w).readPlace p) (.ok u) := by
  induction hp generalizing u with
  | @slot a t s hs =>
      refine ⟨u, assign_slot hs hu, ?_⟩
      show OutcomesAgree _ ((v.store a u).readPlace (.slot a t)) _
      rw [readPlace_store_self]
      exact .refl _
  | @member p r i f s hp hr hi ih =>
      obtain ⟨e, he, hsort, hassign, hvalue, hdefines⟩ := assign_field hp hr hi hroot hslot hu
      obtain ⟨w, hw, hback⟩ := ih hroot hslot (u := .nary (.make r) (r.replace e i u)) rfl
      refine ⟨w, hassign.trans hw, ?_⟩
      exact ((hback.mono hdefines).build_get f).trans (Build.get_set_self hr hi hu hvalue)

/-- **The places beside a place are read as before.** -/
theorem read_beside (hd : p.Disjoint q) (hp : p.HasSort v.sorts s)
    (hroot : v.sorts.sort p.type = .ok root) (hslot : v.memory.Holds p.address root)
    (hu : u.sort = .ok s) (hw : v.assign p u = .ok (p.address, w)) :
    OutcomesAgree (v.Defines p root u) ((v.store p.address w).readPlace q) (v.readPlace q) := by
  induction hd generalizing s u with
  | @fields p f g hne =>
      cases hp with
      | @member _ r i _ _ hp hr hi =>
      obtain ⟨e, he, hsort, hassign, hvalue, hdefines⟩ := assign_field hp hr hi hroot hslot hu
      obtain ⟨w', hw', hback⟩ :=
        read_back hp hroot hslot (u := .nary (.make r) (r.replace e i u)) rfl
      obtain rfl : w' = w := by
        rw [hassign] at hw
        exact congrArg Prod.snd (Except.ok.inj (hw'.symm.trans hw))
      rw [readPlace_member he]
      exact ((hback.mono hdefines).build_get g).trans (Build.get_set_of_ne hsort hi hvalue hne)
  | @left p q f hd ih =>
      cases hp with
      | @member _ r i _ _ hp hr hi =>
      obtain ⟨e, he, hsort, hassign, hvalue, hdefines⟩ := assign_field hp hr hi hroot hslot hu
      rw [hassign] at hw
      exact (ih hp hroot hslot rfl hw).mono hdefines
  | right hd ih => exact (ih hp hroot hslot hu hw).build_get _

/-- The laws of a lens, for a store of a formula to a place of a slot with a sort that turns one
evaluator into another one. -/
structure StoreLaws (v v' : Evaluator) (p : Place) (root : SmtSort) (u : Formula) : Prop where
  stored : OutcomesAgree (v.Defines p root u) (v'.readPlace p) (.ok u)
  beside : ∀ q : Place, q.address = p.address → q.type = p.type → ¬ p.path <+: q.path →
    ¬ q.path <+: p.path → OutcomesAgree (v.Defines p root u) (v'.readPlace q) (v.readPlace q)
  elsewhere : ∀ q : Place, q.address.text ≠ p.address.text → v'.readPlace q = v.readPlace q
  /-- Different addresses are different slots as long as no name in them has a separator. -/
  apart : p.address.Plain → ∀ q : Place, q.address.Plain → q.address ≠ p.address →
    v'.readPlace q = v.readPlace q

section

variable {D : Type} {st : State D} {sorts : Sorts} {siteCount : Nat}

/-- The evaluator of a state reads the memory of the state. -/
theorem evaluator_parts (hv : st.evaluator sorts siteCount = .ok v) :
    v.sorts = sorts ∧ v.memory = st.memory := by
  simp only [State.evaluator, bind_eq_ok, pure_eq_ok] at hv
  obtain ⟨f, -, rfl⟩ := hv
  exact ⟨rfl, rfl⟩

/-- The evaluator after a write differs in the memory. -/
theorem evaluator_write (hv : st.evaluator sorts siteCount = .ok v) (a : Address) (w : Formula) :
    (st.write a w).evaluator sorts siteCount = .ok (v.store a w) := by
  simp only [State.evaluator, bind_eq_ok, pure_eq_ok] at hv ⊢
  obtain ⟨f, hf, rfl⟩ := hv
  exact ⟨f, hf, rfl⟩

/-- **Stores to places obey the laws of a lens.** -/
theorem store_laws (hv : st.evaluator sorts siteCount = .ok v) (hp : p.HasSort sorts s)
    (hroot : sorts.sort p.type = .ok root) (hslot : st.memory.Holds p.address root)
    (hu : u.sort = .ok s) :
    ∃ w v', v.assign p u = .ok (p.address, w) ∧
      (st.write p.address w).evaluator sorts siteCount = .ok v' ∧ v.StoreLaws v' p root u := by
  obtain ⟨rfl, hmemory⟩ := evaluator_parts hv
  rw [← hmemory] at hslot
  obtain ⟨w, hw, hback⟩ := read_back hp hroot hslot hu
  refine ⟨w, v.store p.address w, hw, evaluator_write hv p.address w, hback, ?_, ?_, ?_⟩
  · intro q ha ht hpq hqp
    exact read_beside (Place.disjoint_of_not_prefix ha.symm ht.symm hpq hqp) hp hroot hslot hu hw
  · intro q hne
    exact readPlace_store_of_ne hne.symm
  · intro hplain q hq hne
    exact readPlace_store_of_ne ((Address.text_inj hplain hq).not.mpr hne.symm)

end

/-! ## Boxes of corners -/

def corner : Record := ⟨"Corner", [("x", .bitVec 32), ("y", .bitVec 32)]⟩

def box : Record := ⟨"Box", [("low", corner.sort), ("high", corner.sort)]⟩

def boxSorts : Sorts := { records := (∅ : Std.TreeMap String Record).insert "Box" box }

/-- A variable for a box, which nobody wrote. -/
def boxPlace : Place := .slot ⟨.frame 0 (.local "box"), []⟩ (.struct "Box")

def boxState : State Unit :=
  .start ⟨⟨"Boxes", "Fit", [], .void, 0⟩, [], "Boxes", none⟩ ⟨0, 0⟩ ()

/-- A box from (1, 2) to (3, 4). -/
def someBox : Assignment
  | "frame:0:local:box" => some (.nary (.make box)
      [.nary (.make corner) [.bits 1 32, .bits 2 32],
        .nary (.make corner) [.bits 3 32, .bits 4 32]])
  | _ => none

theorem low_moved :
    let low := Place.member (.member boxPlace "low") "x"
    let high := Place.member (.member boxPlace "high") "y"
    low.HasSort boxSorts (.bitVec 32) ∧ boxSorts.sort boxPlace.type = .ok box.sort ∧
      boxState.memory.Holds boxPlace.address box.sort ∧
      ∃ v w v', boxState.evaluator boxSorts 0 = .ok v ∧
        v.assign low (.bits 9 32) = .ok (boxPlace.address, w) ∧
        (boxState.write boxPlace.address w).evaluator boxSorts 0 = .ok v' ∧
        (∃ e, v'.readPlace low = .ok e ∧ e.eval someBox = .ok (.bits 9 32)) ∧
        ∃ e, v'.readPlace high = .ok e ∧ e.eval someBox = .ok (.bits 4 32) := by
  intro low high
  have hbox : boxSorts.sort (.struct "Box") = .ok box.sort := by simp [Sorts.sort, boxSorts]
  have hlow : low.HasSort boxSorts (.bitVec 32) := by
    have hdistinct : box.Distinct ∧ corner.Distinct := by simp [Record.Distinct, box, corner]
    exact .member (.member (.slot hbox) hdistinct.1 (i := 0) rfl) hdistinct.2 (i := 0) rfl
  have hslot : boxState.memory.Holds boxPlace.address box.sort := by
    intro value h
    simp [boxState, State.start] at h
  let v : Evaluator := ⟨boxState.memory, boxSorts, 0, 0, ∅⟩
  have hv : boxState.evaluator boxSorts 0 = .ok v := rfl
  obtain ⟨w, v', hassign, hv', laws⟩ := store_laws hv hlow hbox hslot (u := .bits 9 32) rfl
  have hold : v.readPlace boxPlace = .ok (.var "frame:0:local:box" box.sort) :=
    Memory.read_of_unwritten (m := v.memory) (a := boxPlace.address) hbox
      (by simp [v, boxState, State.start]) rfl
  have hhigh : v.readPlace high =
      .ok (.unary (.get corner 1) (.unary (.get box 1) (.var "frame:0:local:box" box.sort))) := by
    have hcorner : v.readPlace (.member boxPlace "high") =
        .ok (.unary (.get box 1) (.var "frame:0:local:box" box.sort)) := readPlace_member hold
    exact readPlace_member hcorner
  have hdefines : v.Defines low box.sort (.bits 9 32) someBox :=
    ⟨⟨_, hold, _, rfl, by decide, by decide⟩, _, rfl⟩
  refine ⟨hlow, hbox, hslot, v, w, v', hv, hassign, hv', ?_, ?_⟩
  · obtain ⟨e, he, heval⟩ := laws.stored.exists_eval_eq
    exact ⟨e, he, heval someBox hdefines⟩
  · have hbeside := laws.beside high rfl rfl (by decide) (by decide)
    obtain ⟨e, he, heval⟩ := (hhigh ▸ hbeside).exists_eval_eq
    exact ⟨e, he, heval someBox hdefines⟩

/-! ## Where the laws end -/

def point : Record := ⟨"P", [("x", .real), ("y", .real)]⟩

def flatSlot : Address := ⟨.frame 0 (.local "p"), []⟩

/-- The point of 2 and of a quotient without a value. -/
def flatPoint : Formula :=
  .nary (.make point) [.real 2.0, .binary (.arith .div) (.real 1.0) (.real 0.0)]

def flat : Evaluator :=
  { memory := ({} : Memory).write flatSlot flatPoint
    sorts := { records := (∅ : Std.TreeMap String Record).insert "P" point }
    depth := 0, siteCount := 0, results := ∅ }

/-- A field that is stored cannot be read back next to a field without a value. And the field of one
variable may have the text of another variable as its own. -/
theorem undefined_neighbour :
    let x := Place.member (.slot flatSlot (.struct "P")) "x"
    let nested : Place := .slot ⟨.frame 0 (.local "a"), [.field "b"]⟩ .int32
    let named : Place := .slot ⟨.frame 0 (.local "a:instancefield:b"), []⟩ .int32
    (x.HasSort flat.sorts .real ∧ flat.memory.Holds flatSlot point.sort ∧
      ∃ w e, flat.assign x (.real 3.0) = .ok (flatSlot, w) ∧
        (flat.store flatSlot w).readPlace x = .ok e ∧
        e.eval (fun _ => none) = .error .undefined ∧
        (Formula.real 3.0).eval (fun _ => none) = .ok (.real 3.0)) ∧
    (nested.address ≠ named.address ∧
      flat.assign nested (.bits 1 32) = .ok (nested.address, .bits 1 32) ∧
      flat.readPlace named = .ok (.var named.address.text (.bitVec 32)) ∧
      (flat.store nested.address (.bits 1 32)).readPlace named = .ok (.bits 1 32)) := by
  intro x nested named
  have hpoint : flat.sorts.sort (.struct "P") = .ok point.sort := by simp [Sorts.sort, flat]
  have hdistinct : point.Distinct := by simp [Record.Distinct, point]
  have hslot : flat.memory.slots[flatSlot.text]? = some flatPoint := by simp [flat, Memory.write]
  let moved := Formula.nary (.make point) (point.replace flatPoint 0 (.real 3.0))
  refine ⟨⟨.member (.slot hpoint) hdistinct (i := 0) rfl, ?_, moved, .unary (.get point 0) moved,
    ?_, ?_, by decide +kernel, rfl⟩, by decide, rfl, ?_, ?_⟩
  · intro value h
    obtain rfl := Option.some.inj (hslot.symm.trans h)
    rfl
  · have hread : flat.readPlace (.slot flatSlot (.struct "P")) = .ok flatPoint := by
      show flat.memory.read flat.sorts flatSlot (.struct "P") = _
      exact Memory.read_of_written hslot
    have hset : Build.set flatPoint "x" (.real 3.0) = .ok moved :=
      Build.set_ok rfl hdistinct (i := 0) rfl rfl
    rw [assign_member hread hset]
    exact assign_slot hpoint rfl
  · rw [readPlace_member readPlace_store_self]
    exact Build.get_ok rfl hdistinct (i := 0) rfl
  · have hempty : flat.memory.slots[named.address.text]? = none := by
      simp only [flat, Memory.write, Std.TreeMap.getElem?_insert]
      rw [if_neg (by decide)]
      simp
    have hint : flat.sorts.sort .int32 = .ok (.bitVec 32) := rfl
    exact Memory.read_of_unwritten hint hempty rfl
  · have htext : nested.address.text = named.address.text := by decide
    have hwritten : (flat.store nested.address (.bits 1 32)).memory.slots[named.address.text]? =
        some (.bits 1 32) := by
      simp [store, Memory.write, htext]
    show Memory.read _ flat.sorts named.address .int32 = _
    exact Memory.read_of_written hwritten

end Evaluator

end PlayerPaths
