import PlayerPaths.Proofs.Collections
import PlayerPaths.Proofs.Formula.Values
import PlayerPaths.Solve.Search

/-!
# Models made of leaf values

A leaf names a variable and a path of fields. `compose` writes the values of leaves into default
values, at the paths as `leafPath?` lists them, from the inside out, where evaluation follows a
path from the outside in. For a leaf whose path reads the same from both ends (`Mirrored`), the two
agree: the model gives every variable a value of its sort (`compose_fits`), and the leaf has the
value that was chosen for it (`eval_compose`), provided that the value is no record and that no
other value was chosen for the same leaf.
-/

namespace PlayerPaths

open Formula

/-! ## Paths of fields -/

/-- The part of a record constant at a path, from the outermost field to the innermost. -/
def Formula.fieldAt? : List Nat → Formula → Option Formula
  | [], e => some e
  | i :: path, .nary (.make _) fields => fields[i]?.bind (fieldAt? path)
  | _, _ => none

/-- The sort of the part at a path. -/
def SmtSort.fieldAt? : List Nat → SmtSort → Option SmtSort
  | [], s => some s
  | i :: path, .record _ fields => fields[i]?.bind fun f => f.2.fieldAt? path
  | _, _ => none

theorem SmtSort.fieldAt?_append (p q : List Nat) (s : SmtSort) :
    s.fieldAt? (p ++ q) = (s.fieldAt? p).bind (SmtSort.fieldAt? q) := by
  induction p generalizing s with
  | nil => rfl
  | cons i p ih =>
      cases s with
      | record name fields => cases h : fields[i]? <;> simp [SmtSort.fieldAt?, h, ih]
      | _ => rfl

namespace Formula

variable {σ : Assignment}

theorem fieldAt?_append (p q : List Nat) (e : Formula) :
    e.fieldAt? (p ++ q) = (e.fieldAt? p).bind (fieldAt? q) := by
  induction p generalizing e with
  | nil => rfl
  | cons i p ih =>
      cases e with
      | nary f fields =>
          cases f with
          | make r => cases h : fields[i]? <;> simp [fieldAt?, h, ih]
          | _ => rfl
      | _ => rfl

theorem apply_get_eq_ok {r : Record} {i : Nat} {x v : Formula} :
    (UnaryFunction.get r i).apply x = .ok v ↔ x.fieldAt? [i] = some v := by
  unfold fieldAt?
  cases x with
  | nary f fields =>
      cases f with
      | make s => cases h : fields[i]? <;> simp [UnaryFunction.apply, h, fieldAt?]
      | _ => simp [UnaryFunction.apply]
  | _ => simp [UnaryFunction.apply]

theorem leafPath?_eq_nil {leaf : Formula} {name : String} :
    leafPath? leaf = some (name, []) ↔ ∃ s, leaf = .var name s := by
  cases leaf with
  | unary f e => cases f <;> simp [leafPath?]
  | _ => simp [leafPath?]

theorem leafPath?_eq_cons {leaf : Formula} {name : String} {i : Nat} {path : List Nat} :
    leafPath? leaf = some (name, i :: path) ↔
      ∃ r e, leaf = .unary (.get r i) e ∧ leafPath? e = some (name, path) := by
  cases leaf with
  | unary f e => cases f <;> simp [leafPath?, and_comm]
  | _ => simp [leafPath?]

/-- The value of a leaf is the part of the value of its variable at its path. -/
theorem eval_leaf {leaf v : Formula} {name : String} {path : List Nat}
    (h : leafPath? leaf = some (name, path)) :
    leaf.eval σ = .ok v ↔ ∃ x, σ name = some x ∧ x.fieldAt? path.reverse = some v := by
  induction path generalizing leaf v with
  | nil =>
      obtain ⟨s, rfl⟩ := leafPath?_eq_nil.mp h
      simp [eval_var_eq_ok, fieldAt?]
  | cons i path ih =>
      obtain ⟨r, e, rfl, he⟩ := leafPath?_eq_cons.mp h
      rw [eval_unary_eq_ok, List.reverse_cons]
      simp only [ih he, fieldAt?_append, apply_get_eq_ok, Option.bind_eq_some_iff]
      constructor
      · rintro ⟨y, ⟨x, hx, hy⟩, hv⟩
        exact ⟨x, hx, y, hy, hv⟩
      · rintro ⟨x, hx, y, hy, hv⟩
        exact ⟨y, ⟨x, hx, hy⟩, hv⟩

/-- The sort of a leaf is that of the part of its variable at its path. -/
theorem sort_leaf {leaf : Formula} {t : SmtSort} {name : String} {path : List Nat}
    (hs : leaf.HasSort t) (h : leafPath? leaf = some (name, path)) :
    ∃ s, .var name s ∈ leaf.parts ∧ s.fieldAt? path.reverse = some t := by
  induction path generalizing leaf t with
  | nil =>
      obtain ⟨s, rfl⟩ := leafPath?_eq_nil.mp h
      obtain rfl := hasSort_var.mp hs
      exact ⟨s, mem_parts_self _, rfl⟩
  | cons i path ih =>
      obtain ⟨r, e, rfl, he⟩ := leafPath?_eq_cons.mp h
      obtain ⟨u, hu, hget⟩ := hasSort_unary.mp hs
      obtain ⟨rfl, hi⟩ := result?_get.mp hget
      obtain ⟨s, hs, hpath⟩ := ih hu he
      refine ⟨s, mem_parts_unary.mpr (.inr hs), ?_⟩
      obtain ⟨field, hfield, rfl⟩ := Option.map_eq_some_iff.mp hi
      rw [List.reverse_cons, SmtSort.fieldAt?_append, hpath]
      simp [Record.sort, SmtSort.fieldAt?, hfield]

/-- Well-sorted leaves with one path are one leaf. -/
theorem leaf_ext {a b : Formula} {t u : SmtSort} {name : String} {path : List Nat}
    (ha : a.HasSort t) (hb : b.HasSort u)
    (hpa : leafPath? a = some (name, path)) (hpb : leafPath? b = some (name, path))
    (hvars : ∀ s s', .var name s ∈ a.parts → .var name s' ∈ b.parts → s = s') : a = b := by
  induction path generalizing a b t u with
  | nil =>
      obtain ⟨s, rfl⟩ := leafPath?_eq_nil.mp hpa
      obtain ⟨s', rfl⟩ := leafPath?_eq_nil.mp hpb
      rw [hvars s s' (mem_parts_self _) (mem_parts_self _)]
  | cons i path ih =>
      obtain ⟨r, e, rfl, he⟩ := leafPath?_eq_cons.mp hpa
      obtain ⟨r', e', rfl, he'⟩ := leafPath?_eq_cons.mp hpb
      obtain ⟨v, hv, hget⟩ := hasSort_unary.mp ha
      obtain ⟨w, hw, hget'⟩ := hasSort_unary.mp hb
      obtain rfl := ih hv hw he he' fun s s' hs hs' =>
        hvars s s' (mem_parts_unary.mpr (.inr hs)) (mem_parts_unary.mpr (.inr hs'))
      -- The record of an accessor is the sort of what it is applied to.
      obtain ⟨rfl, -⟩ := result?_get.mp hget
      obtain ⟨rfl, -⟩ := result?_get.mp hget'
      obtain rfl : r = r' := Record.eq_of_sort_eq (hv.unique hw)
      rfl

/-! ## Writing fields -/

/-- A value of a sort with a part at a path has a value of the part's sort there. -/
theorem IsValue.fieldAt? {x : Formula} {s t : SmtSort} {path : List Nat} (hx : x.IsValue s)
    (hp : s.fieldAt? path = some t) : ∃ y, x.fieldAt? path = some y ∧ y.IsValue t := by
  induction path generalizing x s with
  | nil =>
      obtain rfl := Option.some.inj hp
      exact ⟨x, rfl, hx⟩
  | cons i path ih =>
      cases s with
      | record name fields =>
          obtain ⟨-, es, rfl, hes⟩ := isValue_record (r := ⟨name, fields⟩).mp hx
          obtain ⟨field, hfield, hp⟩ := Option.bind_eq_some_iff.mp hp
          obtain ⟨hi, rfl⟩ := List.getElem?_eq_some_iff.mp hfield
          have hlen : i < es.length := hes.length_eq ▸ hi
          obtain ⟨y, hy, hv⟩ := ih ((List.forall₂_iff_get.mp hes).2 i hlen hi) hp
          refine ⟨y, ?_, hv⟩
          simpa [Formula.fieldAt?, List.getElem?_eq_getElem hlen] using hy
      | _ => simp [SmtSort.fieldAt?] at hp

/-- The part that was written is there. -/
theorem fieldAt?_setField_self {path : List Nat} {x v y : Formula}
    (h : x.fieldAt? path = some y) : (setField path v x).fieldAt? path = some v := by
  induction path generalizing x with
  | nil => rfl
  | cons i path ih =>
      cases x with
      | nary f fields =>
          cases f with
          | make r =>
              obtain ⟨field, hfield, h⟩ := Option.bind_eq_some_iff.mp h
              simp [setField, Formula.fieldAt?, List.getElem?_modify_eq, hfield, ih h]
          | _ => simp [Formula.fieldAt?] at h
      | _ => simp [Formula.fieldAt?] at h

/-- A part that is no record stays when another path, not a shorter one, is written. -/
theorem fieldAt?_setField_other {p q : List Nat} {x v y : Formula} (h : x.fieldAt? p = some y)
    (hy : ∀ r es, y ≠ .nary (.make r) es) (hne : q ≠ p) (hlen : p.length ≤ q.length) :
    (setField q v x).fieldAt? p = some y := by
  induction p generalizing q x with
  | nil =>
      obtain rfl := Option.some.inj h
      cases q with
      | nil => exact absurd rfl hne
      | cons j q =>
          have : setField (j :: q) v x = x := by
            unfold setField
            split
            · simp_all
            · exact absurd rfl (hy _ _)
            · rfl
          rw [this]
          rfl
  | cons i p ih =>
      cases q with
      | nil => simp at hlen
      | cons j q =>
          cases x with
          | nary f fields =>
              cases f with
              | make r =>
                  obtain ⟨field, hfield, hpart⟩ := Option.bind_eq_some_iff.mp h
                  by_cases hij : j = i
                  · subst hij
                    have := ih hpart (fun heq => hne (heq ▸ rfl)) (by simpa using hlen)
                    simp [setField, Formula.fieldAt?, hfield, this]
                  · simp [setField, Formula.fieldAt?, hij, hfield, hpart]
              | _ => simp [Formula.fieldAt?] at h
          | _ => simp [Formula.fieldAt?] at h

/-- Writing a value of the right sort gives a value. -/
theorem IsValue.setField {x v : Formula} {s t : SmtSort} {path : List Nat} (hx : x.IsValue s)
    (hp : s.fieldAt? path = some t) (hv : v.IsValue t) : (setField path v x).IsValue s := by
  induction path generalizing x s with
  | nil =>
      obtain rfl := Option.some.inj hp
      exact hv
  | cons i path ih =>
      cases s with
      | record name fields =>
          obtain ⟨hr, es, rfl, hes⟩ := isValue_record (r := ⟨name, fields⟩).mp hx
          obtain ⟨field, hfield, hp⟩ := Option.bind_eq_some_iff.mp hp
          refine isValue_record (r := ⟨name, fields⟩).mpr ⟨hr, _, rfl, ?_⟩
          rw [List.forall₂_iff_get] at hes ⊢
          refine ⟨by simpa using hes.1, fun j hj hj' => ?_⟩
          have hval := hes.2 j (by simpa using hj) hj'
          by_cases hij : i = j
          · subst hij
            obtain rfl : fields.get ⟨i, hj'⟩ = field := by
              simpa [List.getElem?_eq_getElem hj'] using hfield
            simpa [List.getElem_modify] using ih hval hp
          · simpa [List.getElem_modify, hij] using hval
      | _ => simp [SmtSort.fieldAt?] at hp

end Formula

/-! ## Models -/

/-- The variables have values of their sorts. -/
def Model.Fits (m : Model) (vars : List (String × SmtSort)) : Prop :=
  ∀ name s, (name, s) ∈ vars → ∃ x, m.values[name]? = some x ∧ x.IsValue s

/-- The path of a leaf reads the same from both ends. -/
def Formula.Mirrored (leaf : Formula) : Prop :=
  ∀ name path, leafPath? leaf = some (name, path) → path.reverse = path

instance (leaf : Formula) : Decidable leaf.Mirrored :=
  decidable_of_iff (∀ found ∈ leafPath? leaf, found.2.reverse = found.2)
    ⟨fun h name path hpath => h (name, path) hpath, fun h found hfound => h found.1 found.2 hfound⟩

/-- A leaf of a sort over some variables, which can be written where it is read. -/
structure LeafOf (vars : List (String × SmtSort)) (leaf : Formula) (t : SmtSort) : Prop where
  isLeaf : leaf.isLeaf = true
  hasSort : leaf.HasSort t
  occurs : ∀ name s, .var name s ∈ leaf.parts → (name, s) ∈ vars
  mirrored : leaf.Mirrored

def assignLeaf (m : Model) (entry : Formula × Formula) : Model :=
  match leafPath? entry.1 with
  | some (name, path) =>
    match m.values[name]? with
    | some old => m.insert name (setField path entry.2 old)
    | none => m
  | none => m

/-- The number of fields between a leaf and its variable. -/
def leafDepth (leaf : Formula) : Nat := ((leafPath? leaf).map fun p => p.2.length).getD 0

theorem compose_eq (vars : List (String × SmtSort)) (values : LeafValues) :
    compose vars values =
      (values.mergeSort fun a b => leafDepth a.1 ≤ leafDepth b.1).foldl assignLeaf
        ⟨.ofList (vars.map fun (name, s) => (name, s.zero))⟩ := rfl

section

variable {vars : List (String × SmtSort)}

theorem leafPath_of_isLeaf {leaf : Formula} (h : leaf.isLeaf = true) :
    ∃ name path, leafPath? leaf = some (name, path) := by
  induction leaf with
  | var name s => exact ⟨name, [], rfl⟩
  | unary f e ih =>
      cases f with
      | get r i =>
          obtain ⟨name, path, hpath⟩ := ih (by simpa [isLeaf] using h)
          exact ⟨name, i :: path, by simp [leafPath?, hpath]⟩
      | _ => simp [isLeaf] at h
  | _ => simp [isLeaf] at h

/-- Where a leaf is read, and written. -/
theorem LeafOf.path {leaf : Formula} {t : SmtSort} (h : LeafOf vars leaf t) :
    ∃ name path s, leafPath? leaf = some (name, path) ∧ path.reverse = path ∧
      (name, s) ∈ vars ∧ s.fieldAt? path = some t := by
  obtain ⟨name, path, hpath⟩ := leafPath_of_isLeaf h.isLeaf
  obtain ⟨s, hs, hsort⟩ := sort_leaf h.hasSort hpath
  have hrev := h.mirrored name path hpath
  rw [hrev] at hsort
  exact ⟨name, path, s, hpath, hrev, h.occurs name s hs, hsort⟩

theorem defaults_fits (hvars : Functional vars) (hrange : ∀ v ∈ vars, v.2.inRange = true) :
    Model.Fits ⟨.ofList (vars.map fun (name, s) => (name, s.zero))⟩ vars := by
  intro name s hs
  refine ⟨s.zero, (getElem?_ofList ?_ name s.zero).mpr ?_, isValue_zero (hrange _ hs)⟩
  · intro key v w hv hw
    obtain ⟨⟨k, s₁⟩, h₁, heq₁⟩ := List.mem_map.mp hv
    obtain ⟨⟨k', s₂⟩, h₂, heq₂⟩ := List.mem_map.mp hw
    cases heq₁
    cases heq₂
    rw [hvars _ _ _ h₁ h₂]
  · exact List.mem_map.mpr ⟨(name, s), hs, rfl⟩

theorem assignLeaf_fits (hvars : Functional vars) {m : Model} (hm : m.Fits vars)
    {leaf value : Formula} {t : SmtSort} (hleaf : LeafOf vars leaf t) (hv : value.IsValue t) :
    (assignLeaf m (leaf, value)).Fits vars := by
  obtain ⟨name, path, s, hpath, -, hmem, hsort⟩ := hleaf.path
  obtain ⟨old, hold, hval⟩ := hm name s hmem
  have hassign : assignLeaf m (leaf, value) = m.insert name (setField path value old) := by
    simp [assignLeaf, hpath, hold]
  rw [hassign]
  intro other s' hs'
  by_cases heq : name = other
  · subst heq
    obtain rfl := hvars _ _ _ hmem hs'
    exact ⟨_, by simp [Model.insert], hval.setField hsort hv⟩
  · obtain ⟨x, hx, hxv⟩ := hm other s' hs'
    exact ⟨x, by simp [Model.insert, Std.TreeMap.getElem?_insert, heq, hx], hxv⟩

/-- Leaf values that can be written. -/
def Writable (vars : List (String × SmtSort)) (values : LeafValues) : Prop :=
  ∀ entry ∈ values, ∃ t, LeafOf vars entry.1 t ∧ entry.2.IsValue t

theorem foldl_assignLeaf_fits (hvars : Functional vars) {values : LeafValues}
    (hvalues : Writable vars values) {m : Model} (hm : m.Fits vars) :
    (values.foldl assignLeaf m).Fits vars := by
  induction values generalizing m with
  | nil => exact hm
  | cons entry values ih =>
      obtain ⟨⟨t, hleaf, hv⟩, hrest⟩ := List.forall_mem_cons.mp hvalues
      exact ih hrest (assignLeaf_fits hvars hm hleaf hv)

/-- **A composed model gives every variable a value of its sort.** -/
theorem compose_fits (hvars : Functional vars) (hrange : ∀ v ∈ vars, v.2.inRange = true)
    {values : LeafValues} (hvalues : Writable vars values) : (compose vars values).Fits vars := by
  rw [compose_eq]
  refine foldl_assignLeaf_fits hvars (fun entry hentry => hvalues entry ?_)
    (defaults_fits hvars hrange)
  exact (List.mergeSort_perm ..).mem_iff.mp hentry

/-- A leaf that was written has the value that was written. -/
theorem eval_assignLeaf_self {m : Model} (hm : m.Fits vars) {leaf value : Formula} {t : SmtSort}
    (hleaf : LeafOf vars leaf t) :
    leaf.eval (assignLeaf m (leaf, value)).assignment = .ok value := by
  obtain ⟨name, path, s, hpath, hrev, hmem, hsort⟩ := hleaf.path
  obtain ⟨old, hold, hval⟩ := hm name s hmem
  obtain ⟨y, hy, -⟩ := hval.fieldAt? hsort
  refine (eval_leaf hpath).mpr ⟨setField path value old, ?_, ?_⟩
  · simp [assignLeaf, hpath, hold, Model.assignment, Model.insert]
  · rw [hrev]
    exact fieldAt?_setField_self hy

/-- Writing another leaf that is not nearer to its variable leaves a value alone. -/
theorem eval_assignLeaf_other (hvars : Functional vars) {m : Model} (hm : m.Fits vars)
    {leaf other v w : Formula} {t u : SmtSort} (hleaf : LeafOf vars leaf t)
    (hother : LeafOf vars other u) (hne : other ≠ leaf) (hdepth : leafDepth leaf ≤ leafDepth other)
    (hv : ∀ r es, v ≠ .nary (.make r) es) (heval : leaf.eval m.assignment = .ok v) :
    leaf.eval (assignLeaf m (other, w)).assignment = .ok v := by
  obtain ⟨name, path, s, hpath, hrev, hmem, hsort⟩ := hleaf.path
  obtain ⟨name', path', s', hpath', hrev', hmem', hsort'⟩ := hother.path
  obtain ⟨old, hold, hval⟩ := hm name' s' hmem'
  obtain ⟨x, hx, hfield⟩ := (eval_leaf hpath).mp heval
  have hassign : assignLeaf m (other, w) = m.insert name' (setField path' w old) := by
    simp [assignLeaf, hpath', hold]
  rw [hassign]
  by_cases heq : name' = name
  · subst heq
    obtain rfl : old = x := by
      rw [Model.assignment, hold] at hx
      exact Option.some.inj hx
    have hpaths : path' ≠ path := fun heq => hne <| by
      subst heq
      exact leaf_ext hother.hasSort hleaf.hasSort hpath' hpath fun s₁ s₂ h₁ h₂ =>
        hvars _ _ _ (hother.occurs _ _ h₁) (hleaf.occurs _ _ h₂)
    refine (eval_leaf hpath).mpr
      ⟨setField path' w old, by simp [Model.assignment, Model.insert], ?_⟩
    rw [hrev] at hfield ⊢
    refine fieldAt?_setField_other hfield hv hpaths ?_
    simpa [leafDepth, hpath, hpath'] using hdepth
  · refine (eval_leaf hpath).mpr ⟨x, ?_, hfield⟩
    simp only [Model.assignment] at hx
    simp [Model.assignment, Model.insert, Std.TreeMap.getElem?_insert, heq, hx]

theorem eval_foldl_assignLeaf (hvars : Functional vars) {values : LeafValues}
    (hvalues : Writable vars values) {m : Model} (hm : m.Fits vars) {leaf v : Formula} {t : SmtSort}
    (hleaf : LeafOf vars leaf t) (hv : ∀ r es, v ≠ .nary (.make r) es)
    (hothers : ∀ entry ∈ values, entry.1 ≠ leaf ∧ leafDepth leaf ≤ leafDepth entry.1)
    (heval : leaf.eval m.assignment = .ok v) :
    leaf.eval (values.foldl assignLeaf m).assignment = .ok v := by
  induction values generalizing m with
  | nil => exact heval
  | cons entry values ih =>
      obtain ⟨⟨u, hother, hw⟩, hrest⟩ := List.forall_mem_cons.mp hvalues
      obtain ⟨⟨hne, hdepth⟩, hothers⟩ := List.forall_mem_cons.mp hothers
      exact ih hrest (assignLeaf_fits hvars hm hother hw) hothers
        (eval_assignLeaf_other hvars hm hleaf hother hne hdepth hv heval)

/-- **A composed model gives a leaf the value that was chosen for it.** -/
theorem eval_compose (hvars : Functional vars) (hrange : ∀ v ∈ vars, v.2.inRange = true)
    {values : LeafValues} (hvalues : Writable vars values) {leaf v : Formula} {t : SmtSort}
    (hleaf : LeafOf vars leaf t) (hv : ∀ r es, v ≠ .nary (.make r) es)
    (hmem : (leaf, v) ∈ values) (honce : (values.map Prod.fst).count leaf = 1) :
    leaf.eval (compose vars values).assignment = .ok v := by
  rw [compose_eq]
  let le (a b : Formula × Formula) : Bool := leafDepth a.1 ≤ leafDepth b.1
  have hperm : (values.mergeSort le).Perm values := List.mergeSort_perm values le
  have hsorted : (values.mergeSort le).Pairwise fun a b => le a b :=
    List.pairwise_mergeSort (fun a b c => by simpa [le] using Nat.le_trans)
      (fun a b => by simpa [le] using Nat.le_total _ _) values
  obtain ⟨before, after, hsplit⟩ := List.append_of_mem (hperm.mem_iff.mpr hmem)
  rw [← hperm.mem_iff (a := (leaf, v))] at hmem
  have hwritable : Writable vars (values.mergeSort le) := fun entry hentry =>
    hvalues entry (hperm.mem_iff.mp hentry)
  rw [← (hperm.map Prod.fst).count_eq, hsplit] at honce
  change leaf.eval ((values.mergeSort le).foldl assignLeaf _).assignment = .ok v
  rw [hsplit] at hsorted hwritable ⊢
  rw [List.foldl_append, List.foldl_cons]
  have hbefore := foldl_assignLeaf_fits hvars
    (fun entry hentry => hwritable entry (List.mem_append_left _ hentry))
    (defaults_fits hvars hrange)
  refine eval_foldl_assignLeaf hvars
    (fun entry hentry => hwritable entry (by simp [hentry]))
    (assignLeaf_fits hvars hbefore hleaf ?_) hleaf hv ?_ (eval_assignLeaf_self hbefore hleaf)
  · obtain ⟨u, hu, hvu⟩ := hwritable (leaf, v) (by simp)
    exact hu.hasSort.unique hleaf.hasSort ▸ hvu
  · intro entry hentry
    constructor
    · rintro rfl
      have : 0 < (after.map Prod.fst).count entry.1 :=
        List.count_pos_iff.mpr (List.mem_map_of_mem hentry)
      simp only [List.map_append, List.map_cons, List.count_append, List.count_cons_self] at honce
      omega
    · have := (List.pairwise_append.mp hsorted).2.1
      simpa [le] using (List.pairwise_cons.mp this).1 entry hentry

end

end PlayerPaths
