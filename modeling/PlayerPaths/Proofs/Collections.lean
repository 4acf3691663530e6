import Std.Data.TreeMap.Lemmas
import Mathlib.Data.List.Nodup
import Mathlib.Data.List.Perm.Subperm
import PlayerPaths.Collections.Sorted
import PlayerPaths.Proofs.Computation

/-!
# Comparisons, sets and maps

Integers compare as the natural numbers that they are, and their contraries compare the other way
round. A sorted list has the elements that were put into it, and no others, when only equal elements
compare as equal. A map made of a list that gives every key one value has the entries of the list.
-/

namespace PlayerPaths

open Std

/-! ## Comparisons of integers -/

theorem compare_natCast (m n : Nat) : compare (m : Int) (n : Int) = compare m n := by
  simp only [compare, compareOfLessAndEq, Int.ofNat_lt, Int.ofNat_inj]

theorem compare_neg (m n : Int) : compare (-m) (-n) = (compare m n).swap := by
  rcases Int.lt_trichotomy m n with h | rfl | h
  · rw [Int.compare_eq_lt.mpr h, Int.compare_eq_gt.mpr (Int.neg_lt_neg h)]
    rfl
  · rw [Int.compare_eq_eq.mpr rfl, Int.compare_eq_eq.mpr rfl]
    rfl
  · rw [Int.compare_eq_gt.mpr h, Int.compare_eq_lt.mpr (Int.neg_lt_neg h)]
    rfl

/-! ## Lists -/

theorem forall_mem_pair {α : Type} {p : α → Prop} {a b : α} (ha : p a) (hb : p b) :
    ∀ x ∈ [a, b], p x :=
  List.forall_mem_cons.mpr ⟨ha, List.forall_mem_singleton.mpr hb⟩

theorem nodup_eraseDups {α : Type} [BEq α] [LawfulBEq α] (l : List α) : l.eraseDups.Nodup := by
  induction hn : l.length using Nat.strongRecOn generalizing l with
  | ind n ih =>
      cases l with
      | nil => simp
      | cons a l =>
          have hlt : (l.filter fun b => !b == a).length < n := by
            have := List.length_filter_le (fun b => !b == a) l
            simp only [List.length_cons] at hn
            omega
          rw [List.eraseDups_cons, List.nodup_cons]
          exact ⟨by simp, ih _ hlt _ rfl⟩

/-- In a list without repetition, the place of an element is where it stands. -/
theorem idxOf?_eq_some_iff_getElem? {α : Type} [DecidableEq α] {l : List α} (h : l.Nodup) {a : α}
    {i : Nat} : l.idxOf? a = some i ↔ l[i]? = some a := by
  rw [List.idxOf?_eq_some_iff, List.getElem?_eq_some_iff]
  apply exists_congr
  intro hi
  rw [and_iff_left_iff_imp]
  rintro rfl j hj heq
  exact absurd (h.getElem_inj_iff.mp heq) (Nat.ne_of_lt hj)

/-- An element that is kept stands behind the kept ones before it. -/
theorem getElem?_filter_take {α : Type} {p : α → Bool} {l : List α} {k : Nat}
    (h : ∀ a, l[k]? = some a → p a = true) :
    (l.filter p)[((l.take k).filter p).length]? = l[k]? := by
  induction l generalizing k with
  | nil => simp
  | cons a l ih =>
      cases k with
      | zero => simp [h a rfl]
      | succ k =>
          have hrest := ih (k := k) fun b hb => h b (by simpa using hb)
          cases hp : p a <;> simp [hp, hrest]

/-! ## Sorted lists -/

namespace Sorted

variable {α : Type} {cmp : α → α → Ordering} [LawfulEqCmp cmp]

theorem mem_insert {x y : α} {l : List α} : x ∈ insert cmp y l ↔ x = y ∨ x ∈ l := by
  induction l with
  | nil => simp [insert]
  | cons z l ih =>
      unfold insert
      split
      · simp
      · next heq =>
        obtain rfl := LawfulEqCmp.eq_of_compare heq
        simp
      · rw [List.mem_cons, ih, List.mem_cons]
        exact or_left_comm

theorem mem_union {x : α} {xs ys : List α} : x ∈ union cmp xs ys ↔ x ∈ xs ∨ x ∈ ys := by
  unfold union
  induction ys generalizing xs with
  | nil => simp
  | cons y ys ih =>
      rw [List.foldl_cons, ih, mem_insert, List.mem_cons, or_assoc, or_left_comm, or_left_comm]

theorem mem_ofList {x : α} {xs : List α} : x ∈ ofList cmp xs ↔ x ∈ xs := by
  simp [ofList, mem_union]

/-- Every element is less than all behind it. -/
def Increasing (cmp : α → α → Ordering) (l : List α) : Prop := l.Pairwise fun x y => cmp x y = .lt

theorem Increasing.nodup [TransCmp cmp] {l : List α} (h : Increasing cmp l) : l.Nodup := by
  refine List.Pairwise.imp (fun {x y} hxy => ?_) h
  rintro rfl
  have hself : cmp x x = .eq := ReflCmp.compare_self
  rw [hself] at hxy
  cases hxy

theorem Increasing.insert [TransCmp cmp] {l : List α} (h : Increasing cmp l) (x : α) :
    Increasing cmp (Sorted.insert cmp x l) := by
  induction l with
  | nil => exact List.pairwise_singleton _ _
  | cons y l ih =>
      obtain ⟨hy, hl⟩ := List.pairwise_cons.mp h
      unfold Sorted.insert
      split
      · next hlt =>
        refine List.pairwise_cons.mpr ⟨List.forall_mem_cons.mpr ⟨hlt, fun z hz => ?_⟩, h⟩
        exact TransCmp.lt_trans hlt (hy z hz)
      · exact h
      · next hgt =>
        refine List.pairwise_cons.mpr ⟨fun z hz => ?_, ih hl⟩
        rcases mem_insert.mp hz with rfl | hz
        · exact OrientedCmp.lt_of_gt hgt
        · exact hy z hz

theorem Increasing.union [TransCmp cmp] {xs : List α} (h : Increasing cmp xs) (ys : List α) :
    Increasing cmp (Sorted.union cmp xs ys) := by
  unfold Sorted.union
  induction ys generalizing xs with
  | nil => exact h
  | cons y ys ih => exact ih (h.insert y)

theorem increasing_ofList [TransCmp cmp] (xs : List α) : Increasing cmp (ofList cmp xs) :=
  Increasing.union List.Pairwise.nil xs

/-- A set that is no larger than a subset of it is the subset. -/
theorem Increasing.eq_of_subset [TransCmp cmp] {l l' : List α} (h : Increasing cmp l)
    (h' : Increasing cmp l') (hsub : l ⊆ l') (hlength : l'.length ≤ l.length) : l = l' := by
  have hperm := (List.subperm_of_subset h.nodup hsub).perm_of_length_le hlength
  refine hperm.eq_of_pairwise (fun a b _ _ hab hba => ?_) h h'
  have hswap : cmp b a = (cmp a b).swap := OrientedCmp.eq_swap
  rw [hswap, hab] at hba
  cases hba

end Sorted

/-! ## Maps -/

theorem mem_iff_exists_getElem? {κ β : Type} {cmp : κ → κ → Ordering} [TransCmp cmp]
    {m : TreeMap κ β cmp} {key : κ} : key ∈ m ↔ ∃ v, m[key]? = some v := by
  rw [TreeMap.mem_iff_isSome_getElem?, Option.isSome_iff_exists]

/-- There are no more different keys than entries. -/
theorem length_le_size_of_nodup {κ β : Type} {cmp : κ → κ → Ordering} [TransCmp cmp]
    [LawfulEqCmp cmp] {m : TreeMap κ β cmp} {l : List κ} (h : l.Nodup)
    (hmem : ∀ key ∈ l, key ∈ m) : l.length ≤ m.size := by
  have hsub : l ⊆ m.keys := fun key hkey => TreeMap.mem_keys.mpr (hmem key hkey)
  rw [← TreeMap.length_keys]
  exact (List.subperm_of_subset h hsub).length_le

section

variable {β : Type}

/-- Every key has one value. -/
def Functional (l : List (String × β)) : Prop :=
  ∀ key v w, (key, v) ∈ l → (key, w) ∈ l → v = w

instance [DecidableEq β] (l : List (String × β)) : Decidable (Functional l) :=
  decidable_of_iff (∀ a ∈ l, ∀ b ∈ l, a.1 = b.1 → a.2 = b.2)
    ⟨fun h key v w hv hw => h (key, v) hv (key, w) hw rfl,
      fun h a ha b hb heq => h a.1 a.2 b.2 ha (heq ▸ hb)⟩

theorem getElem?_insertMany {l : List (String × β)} (h : Functional l) (m : TreeMap String β)
    (key : String) (v : β) : (m.insertMany l)[key]? = some v ↔
      (key, v) ∈ l ∨ (∀ w, (key, w) ∉ l) ∧ m[key]? = some v := by
  induction l generalizing m with
  | nil => simp
  | cons entry l ih =>
      obtain ⟨k, w⟩ := entry
      have hl : Functional l := fun key v w hv hw =>
        h key v w (List.mem_cons_of_mem _ hv) (List.mem_cons_of_mem _ hw)
      rw [TreeMap.insertMany_cons, ih hl, TreeMap.getElem?_insert]
      by_cases hk : k = key
      · subst hk
        have hself : compare k k = .eq := ReflCmp.compare_self
        have hw : ∀ v, (k, v) ∈ l → v = w := fun v hv =>
          h k v w (List.mem_cons_of_mem _ hv) List.mem_cons_self
        rw [if_pos hself]
        constructor
        · rintro (hv | ⟨-, hv⟩)
          · exact .inl (List.mem_cons_of_mem _ hv)
          · obtain rfl := Option.some.inj hv
            exact .inl List.mem_cons_self
        · rintro (hv | ⟨hnone, -⟩)
          · obtain rfl : v = w := by
              rcases List.mem_cons.mp hv with heq | hv
              · exact (Prod.mk.inj heq).2
              · exact hw v hv
            by_cases hsome : ∃ u, (k, u) ∈ l
            · obtain ⟨u, hu⟩ := hsome
              exact .inl (hw u hu ▸ hu)
            · exact .inr ⟨fun u hu => hsome ⟨u, hu⟩, rfl⟩
          · exact absurd List.mem_cons_self (hnone w)
      · have hne : compare k key ≠ .eq := fun heq => hk (LawfulEqCmp.eq_of_compare heq)
        rw [if_neg hne]
        simp [Ne.symm hk]

/-- Entries that are found after many are inserted were inserted, or found before. -/
theorem mem_of_getElem?_insertMany {l : List (String × β)} {m : TreeMap String β} {key : String}
    {v : β} (h : (m.insertMany l)[key]? = some v) : (key, v) ∈ l ∨ m[key]? = some v := by
  induction l generalizing m with
  | nil => exact .inr (by simpa using h)
  | cons entry l ih =>
      rw [TreeMap.insertMany_cons] at h
      rcases ih h with hl | hm
      · exact .inl (List.mem_cons_of_mem _ hl)
      · rw [TreeMap.getElem?_insert] at hm
        split at hm
        · next heq =>
          obtain rfl := LawfulEqCmp.eq_of_compare heq
          obtain rfl := Option.some.inj hm
          exact .inl List.mem_cons_self
        · exact .inr hm

/-- A map made of a list has the entries of the list. -/
theorem getElem?_ofList {l : List (String × β)} (h : Functional l) (key : String) (v : β) :
    (TreeMap.ofList l)[key]? = some v ↔ (key, v) ∈ l := by
  rw [TreeMap.ofList_eq_insertMany_empty, getElem?_insertMany h]
  simp

theorem mem_toList_ofList {l : List (String × β)} (h : Functional l) {entry : String × β} :
    entry ∈ (TreeMap.ofList l).toList ↔ entry ∈ l := by
  rw [TreeMap.mem_toList_iff_getElem?_eq_some, getElem?_ofList h]

/-- A traversal that gives every element an entry of its own makes a map of the elements. -/
theorem ofList_of_mapM {ε α : Type} {f : α → Except ε (String × β)} {as : List α}
    {entries : List (String × β)} (h : as.mapM f = .ok entries) (key : α → String)
    (hkey : ∀ a entry, f a = .ok entry → entry.1 = key a)
    (hdistinct : ∀ a ∈ as, ∀ b ∈ as, key a = key b → a = b) :
    (∀ k v, (TreeMap.ofList entries)[k]? = some v → ∃ a ∈ as, key a = k) ∧
      ∀ a ∈ as, ∃ v, f a = .ok (key a, v) ∧ (TreeMap.ofList entries)[key a]? = some v := by
  rw [mapM_eq_ok] at h
  have hfunctional : Functional entries := by
    intro k v w hv hw
    obtain ⟨a, ha, hfa⟩ := forall₂_exists_of_mem_right h hv
    obtain ⟨b, hb, hfb⟩ := forall₂_exists_of_mem_right h hw
    have hka : k = key a := hkey a _ hfa
    have hkb : k = key b := hkey b _ hfb
    obtain rfl := hdistinct a ha b hb (hka.symm.trans hkb)
    exact (Prod.mk.inj (Except.ok.inj (hfa.symm.trans hfb))).2
  refine ⟨fun k v hv => ?_, fun a ha => ?_⟩
  · have hmem := (getElem?_ofList hfunctional k v).mp hv
    obtain ⟨a, ha, hentry⟩ := forall₂_exists_of_mem_right h hmem
    exact ⟨a, ha, (hkey a _ hentry).symm⟩
  · obtain ⟨⟨k, v⟩, hmem, hentry⟩ := forall₂_exists_of_mem_left h ha
    obtain rfl : k = key a := hkey a _ hentry
    exact ⟨v, hentry, (getElem?_ofList hfunctional _ v).mpr hmem⟩

/-- A map of the entries of a map has the same entries. -/
theorem toList_insertMany_toList (m : TreeMap String β) :
    ((∅ : TreeMap String β).insertMany m.toList).toList = m.toList := by
  have hfunctional : Functional m.toList := by
    intro key v w hv hw
    rw [TreeMap.mem_toList_iff_getElem?_eq_some] at hv hw
    exact Option.some.inj (hv.symm.trans hw)
  have hequiv : ((∅ : TreeMap String β).insertMany m.toList).Equiv m := by
    refine TreeMap.Equiv.of_forall_constGet?_eq fun key => Option.ext fun v => ?_
    rw [getElem?_insertMany hfunctional, TreeMap.mem_toList_iff_getElem?_eq_some]
    simp
  exact hequiv.toList_eq

/-- The values of a map are those of its entries. -/
theorem values_eq_map_snd {κ : Type} {cmp : κ → κ → Ordering} (m : TreeMap κ β cmp) :
    m.values = m.toList.map Prod.snd := by
  show m.inner.inner.values = (DTreeMap.Internal.Impl.Const.toList m.inner.inner).map Prod.snd
  rw [DTreeMap.Internal.Impl.values_eq_map_snd,
    DTreeMap.Internal.Impl.Const.toList_eq_toListModel_map, List.map_map]
  rfl

theorem mem_values {κ : Type} {cmp : κ → κ → Ordering} [TransCmp cmp] [LawfulEqCmp cmp]
    {m : TreeMap κ β cmp} {v : β} : v ∈ m.values ↔ ∃ key : κ, m[key]? = some v := by
  simp [values_eq_map_snd, TreeMap.mem_toList_iff_getElem?_eq_some]

/-- Entries that are inserted one after another are inserted together. -/
theorem foldl_insert {α : Type} (entry : α → String × β) (l : List α) (m : TreeMap String β) :
    l.foldl (fun m a => m.insert (entry a).1 (entry a).2) m = m.insertMany (l.map entry) := by
  induction l generalizing m with
  | nil => rw [List.map_nil, TreeMap.insertMany_nil, List.foldl_nil]
  | cons a l ih => rw [List.map_cons, TreeMap.insertMany_cons, List.foldl_cons, ih]

end

end PlayerPaths
