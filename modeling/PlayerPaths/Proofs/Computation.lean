import Mathlib.Data.List.Forall2
import PlayerPaths.Error

/-!
# Computations that succeed

What a successful computation in `Except` says about its steps: `bind_eq_ok` takes a sequence
apart, and one lemma per traversal of a list (`mapM`, `filterM`, `findM?`, `forM`, `foldlM`) says
what every single step gave.
-/

namespace PlayerPaths

variable {ε α β : Type}

@[simp] theorem bind_eq_ok {x : Except ε α} {f : α → Except ε β} {b : β} :
    x >>= f = .ok b ↔ ∃ a, x = .ok a ∧ f a = .ok b := by
  cases x with
  | error e => simp [bind, Except.bind]
  | ok a => simp [bind, Except.bind]

theorem bind_eq_error {x : Except ε α} {f : α → Except ε β} {e : ε} :
    x >>= f = .error e ↔ x = .error e ∨ ∃ a, x = .ok a ∧ f a = .error e := by
  cases x with
  | error e' => simp [bind, Except.bind]
  | ok a => simp [bind, Except.bind]

@[simp] theorem pure_eq_ok {a b : α} : (pure a : Except ε α) = .ok b ↔ a = b := by
  simp [pure, Except.pure]

@[simp] theorem map_eq_ok {x : Except ε α} {f : α → β} {b : β} :
    f <$> x = .ok b ↔ ∃ a, x = .ok a ∧ f a = b := by
  cases x with
  | error e => simp [Functor.map, Except.map]
  | ok a => simp [Functor.map, Except.map]

theorem map_eq_error {x : Except ε α} {f : α → β} {e : ε} :
    f <$> x = .error e ↔ x = .error e := by
  cases x with
  | error e' => simp [Functor.map, Except.map]
  | ok a => simp [Functor.map, Except.map]

@[simp] theorem throw_ne_ok {e : ε} {b : β} : (throw e : Except ε β) = .ok b ↔ False := by
  simp [throw, throwThe, MonadExceptOf.throw]

/-- Computations are equal when they go on alike from every result. -/
theorem bind_congr_of_ok {x : Except ε α} {f g : α → Except ε β}
    (h : ∀ a, x = .ok a → f a = g a) : x >>= f = x >>= g := by
  cases x with
  | error e => rfl
  | ok a => exact h a rfl

/-- Every result of a computation has a property. -/
def Yields (P : β → Prop) (x : Except ε β) : Prop := ∀ b, x = .ok b → P b

theorem Yields.bind {P : β → Prop} {x : Except ε α} {f : α → Except ε β}
    (h : ∀ a, Yields P (f a)) : Yields P (x >>= f) := by
  intro b hb
  obtain ⟨a, -, hb⟩ := bind_eq_ok.mp hb
  exact h a b hb

theorem Yields.throw_bind {P : β → Prop} {e : ε} {f : α → Except ε β} :
    Yields P (throw e >>= f) := by
  intro b hb
  obtain ⟨a, ha, -⟩ := bind_eq_ok.mp hb
  exact absurd ha (by simp)

theorem Yields.bind_of {P : α → Prop} {Q : β → Prop} {x : Except ε α} {f : α → Except ε β}
    (hx : Yields P x) (h : ∀ a, P a → Yields Q (f a)) : Yields Q (x >>= f) := by
  intro b hb
  obtain ⟨a, ha, hb⟩ := bind_eq_ok.mp hb
  exact h a (hx a ha) b hb

theorem Yields.pure {P : β → Prop} {b : β} (h : P b) : Yields P (Pure.pure b : Except ε β) := by
  intro b' hb
  obtain rfl := Except.ok.inj hb
  exact h

theorem Yields.throw {P : β → Prop} {e : ε} :
    Yields P (MonadExceptOf.throw e : Except ε β) := by
  intro b hb
  cases hb

theorem Yields.and {P Q : β → Prop} {x : Except ε β} (h : Yields P x) (h' : Yields Q x) :
    Yields (fun b => P b ∧ Q b) x :=
  fun b hb => ⟨h b hb, h' b hb⟩

theorem Yields.imp {P Q : β → Prop} {x : Except ε β} (h : Yields P x) (himp : ∀ b, P b → Q b) :
    Yields Q x := fun b hb => himp b (h b hb)

/-! ## Traversals of lists -/

theorem mapM_eq_ok {f : α → Except ε β} {l : List α} {r : List β} :
    l.mapM f = .ok r ↔ List.Forall₂ (fun a b => f a = .ok b) l r := by
  induction l generalizing r with
  | nil => simp [@eq_comm _ [] r]
  | cons a l ih =>
      simp only [List.mapM_cons, bind_eq_ok, pure_eq_ok, List.forall₂_cons_left_iff, ih]
      constructor
      · rintro ⟨b, hb, bs, hbs, rfl⟩
        exact ⟨b, bs, hb, hbs, rfl⟩
      · rintro ⟨b, bs, hb, hbs, rfl⟩
        exact ⟨b, hb, bs, hbs, rfl⟩

/-- Every element on the left of two matched lists has a partner on the right. -/
theorem forall₂_exists_of_mem_left {R : α → β → Prop} {l : List α} {r : List β}
    (h : List.Forall₂ R l r) {a : α} (ha : a ∈ l) : ∃ b ∈ r, R a b := by
  induction h with
  | nil => simp at ha
  | cons hab _ ih =>
      rcases List.mem_cons.mp ha with rfl | ha
      · exact ⟨_, List.mem_cons_self, hab⟩
      · obtain ⟨b, hb, hR⟩ := ih ha
        exact ⟨b, List.mem_cons_of_mem _ hb, hR⟩

/-- Every element on the right of two matched lists has a partner on the left. -/
theorem forall₂_exists_of_mem_right {R : α → β → Prop} {l : List α} {r : List β}
    (h : List.Forall₂ R l r) {b : β} (hb : b ∈ r) : ∃ a ∈ l, R a b :=
  forall₂_exists_of_mem_left (R := flip R) h.flip hb

/-- What holds of matched elements carries over, element by element. -/
theorem forall₂_imp_of_mem {R S : α → β → Prop} {l : List α} {r : List β}
    (h : List.Forall₂ R l r) (himp : ∀ a ∈ l, ∀ b, R a b → S a b) : List.Forall₂ S l r := by
  induction h with
  | nil => exact .nil
  | cons hab _ ih =>
      obtain ⟨hfirst, hothers⟩ := List.forall_mem_cons.mp himp
      exact .cons (hfirst _ hab) (ih hothers)

/-- What separates the elements on the left separates their partners on the right. -/
theorem forall₂_pairwise {R : α → β → Prop} {S : α → α → Prop} {T : β → β → Prop} {l : List α}
    {r : List β} (h : List.Forall₂ R l r) (hl : l.Pairwise S)
    (hT : ∀ {a a' b b'}, R a b → R a' b' → S a a' → T b b') : r.Pairwise T := by
  induction h with
  | nil => exact .nil
  | cons hab hrest ih =>
      obtain ⟨hfirst, hothers⟩ := List.pairwise_cons.mp hl
      refine List.pairwise_cons.mpr ⟨fun b' hb' => ?_, ih hothers⟩
      obtain ⟨a', ha', hab'⟩ := forall₂_exists_of_mem_right hrest hb'
      exact hT hab hab' (hfirst a' ha')

/-- Traversals are equal when they do the same with every element. -/
theorem mapM_congr {f g : α → Except ε β} {l : List α} (h : ∀ a ∈ l, f a = g a) :
    l.mapM f = l.mapM g := by
  induction l with
  | nil => rfl
  | cons a l ih =>
      obtain ⟨ha, hl⟩ := List.forall_mem_cons.mp h
      rw [List.mapM_cons, List.mapM_cons, ha, ih hl]

/-- A traversal succeeds when every step does, with the results of the steps. -/
theorem exists_mapM_eq_ok {γ : Type} {f : α → Except ε β} {g : α → γ} {R : β → γ → Prop}
    {l : List α} (h : ∀ a ∈ l, ∃ b, f a = .ok b ∧ R b (g a)) :
    ∃ r, l.mapM f = .ok r ∧ List.Forall₂ R r (l.map g) := by
  induction l with
  | nil => exact ⟨[], rfl, .nil⟩
  | cons a l ih =>
      obtain ⟨⟨b, hb, hR⟩, hl⟩ := List.forall_mem_cons.mp h
      obtain ⟨bs, hbs, hRs⟩ := ih hl
      exact ⟨b :: bs, by simp [hb, hbs], .cons hR hRs⟩

theorem exists_mapM_ok {f : α → Except ε β} {l : List α} (h : ∀ a ∈ l, ∃ b, f a = .ok b) :
    ∃ r, l.mapM f = .ok r := by
  obtain ⟨r, hr, -⟩ := exists_mapM_eq_ok (g := id) (R := fun _ _ => True) fun a ha => by
    obtain ⟨b, hb⟩ := h a ha
    exact ⟨b, hb, trivial⟩
  exact ⟨r, hr⟩

/-- Every result of a traversal comes from an element. -/
theorem mem_of_mapM_eq_ok {f : α → Except ε β} {l : List α} {r : List β}
    (h : l.mapM f = .ok r) {b : β} (hb : b ∈ r) : ∃ a ∈ l, f a = .ok b :=
  forall₂_exists_of_mem_right (mapM_eq_ok.mp h) hb

theorem Yields.mapM {P : β → Prop} {f : α → Except ε β} {l : List α}
    (h : ∀ a ∈ l, Yields P (f a)) : Yields (fun r => ∀ b ∈ r, P b) (l.mapM f) := by
  intro r hr b hb
  obtain ⟨a, ha, hab⟩ := mem_of_mapM_eq_ok hr hb
  exact h a ha b hab

/-- A traversal fails where its first failing step does. -/
theorem mapM_eq_error {f : α → Except ε β} {l : List α} {e : ε} :
    l.mapM f = .error e ↔ ∃ before a after r, l = before ++ a :: after ∧ before.mapM f = .ok r ∧
      f a = .error e := by
  induction l with
  | nil => simp [pure, Except.pure]
  | cons a l ih =>
      have hrest : ∀ {bs}, (pure bs : Except ε (List β)) ≠ .error e := by simp [pure, Except.pure]
      simp only [List.mapM_cons, bind_eq_error, ih, hrest, and_false, exists_false, or_false]
      constructor
      · rintro (ha | ⟨b, hb, before, a', after, r, rfl, hr, ha'⟩)
        · exact ⟨[], a, l, [], rfl, rfl, ha⟩
        · exact ⟨a :: before, a', after, b :: r, rfl, by simp [hb, hr], ha'⟩
      · rintro ⟨_ | ⟨a', before⟩, a'', after, r, hl, hr, ha⟩
        · obtain ⟨rfl, rfl⟩ := List.cons.inj hl
          exact .inl ha
        · obtain ⟨rfl, rfl⟩ := List.cons.inj hl
          simp only [List.mapM_cons, bind_eq_ok] at hr
          obtain ⟨b, hb, bs, hbs, -⟩ := hr
          exact .inr ⟨b, hb, before, a'', after, bs, rfl, hbs, ha⟩

theorem forM_eq_ok {f : α → Except ε Unit} {l : List α} :
    l.forM f = .ok () ↔ ∀ a ∈ l, f a = .ok () := by
  induction l with
  | nil => simp [List.forM]
  | cons a l ih =>
      simp only [List.forM_eq_forM, List.forM_cons, bind_eq_ok, List.forall_mem_cons] at ih ⊢
      rw [ih]
      exact ⟨fun ⟨_, ha, hl⟩ => ⟨ha, hl⟩, fun ⟨ha, hl⟩ => ⟨(), ha, hl⟩⟩

theorem findM?_eq_some {p : α → Except ε Bool} {l : List α} {a : α}
    (h : l.findM? p = .ok (some a)) : a ∈ l ∧ p a = .ok true := by
  induction l with
  | nil => simp [List.findM?] at h
  | cons b l ih =>
      simp only [List.findM?, bind_eq_ok] at h
      obtain ⟨t, ht, h⟩ := h
      cases t with
      | true =>
          obtain rfl : b = a := by simpa using h
          exact ⟨List.mem_cons_self, ht⟩
      | false =>
          obtain ⟨hmem, hp⟩ := ih h
          exact ⟨List.mem_cons_of_mem _ hmem, hp⟩

theorem findM?_eq_none {p : α → Except ε Bool} {l : List α} (h : l.findM? p = .ok none) :
    ∀ a ∈ l, p a = .ok false := by
  induction l with
  | nil => simp
  | cons b l ih =>
      simp only [List.findM?, bind_eq_ok] at h
      obtain ⟨t, ht, h⟩ := h
      cases t with
      | true => simp at h
      | false => exact List.forall_mem_cons.mpr ⟨ht, ih h⟩

/-- The loop behind `filterM` collects what passed in front of what it is given, reversed. -/
theorem filterAuxM_eq_ok {p : α → Except ε Bool} {l acc r : List α}
    (h : l.filterAuxM p acc = .ok r) :
    ∃ kept : List α, r = kept.reverse ++ acc ∧ kept.Sublist l ∧ ∀ a ∈ kept, p a = .ok true := by
  induction l generalizing acc with
  | nil =>
      obtain rfl : acc = r := by simpa [List.filterAuxM] using h
      exact ⟨[], rfl, .slnil, by simp⟩
  | cons b l ih =>
      simp only [List.filterAuxM, bind_eq_ok] at h
      obtain ⟨t, ht, h⟩ := h
      obtain ⟨kept, rfl, hsub, hall⟩ := ih h
      cases t with
      | true => exact ⟨b :: kept, by simp, hsub.cons_cons b, List.forall_mem_cons.mpr ⟨ht, hall⟩⟩
      | false => exact ⟨kept, rfl, hsub.cons b, hall⟩

/-- A filter keeps some elements in their order, each of which passed. -/
theorem filterM_eq_ok {p : α → Except ε Bool} {l r : List α} (h : l.filterM p = .ok r) :
    r.Sublist l ∧ ∀ a ∈ r, p a = .ok true := by
  simp only [List.filterM, bind_eq_ok, pure_eq_ok] at h
  obtain ⟨collected, hcollected, rfl⟩ := h
  obtain ⟨kept, rfl, hsub, hall⟩ := filterAuxM_eq_ok hcollected
  simpa using ⟨hsub, hall⟩

/-- What one step of a fold preserves, the whole fold preserves. -/
theorem foldlM_induction {f : β → α → Except ε β} {P : β → Prop} {l : List α} {b r : β}
    (step : ∀ b a, a ∈ l → P b → ∀ c, f b a = .ok c → P c) (start : P b)
    (h : l.foldlM f b = .ok r) : P r := by
  induction l generalizing b with
  | nil =>
      obtain rfl : b = r := by simpa using h
      exact start
  | cons a l ih =>
      simp only [List.foldlM_cons, bind_eq_ok] at h
      obtain ⟨c, hc, h⟩ := h
      exact ih (fun b a ha => step b a (List.mem_cons_of_mem _ ha))
        (step b a List.mem_cons_self start c hc) h

/-- A fold fails where its first failing step does. -/
theorem foldlM_eq_error {f : β → α → Except ε β} {l : List α} {b : β} {e : ε} :
    l.foldlM f b = .error e ↔ ∃ before a after c, l = before ++ a :: after ∧
      before.foldlM f b = .ok c ∧ f c a = .error e := by
  induction l generalizing b with
  | nil => simp [pure, Except.pure]
  | cons a l ih =>
      simp only [List.foldlM_cons, bind_eq_error, ih]
      constructor
      · rintro (ha | ⟨c, hc, before, a', after, d, rfl, hd, ha'⟩)
        · exact ⟨[], a, l, b, rfl, rfl, ha⟩
        · exact ⟨a :: before, a', after, d, rfl, by simp [hc, hd], ha'⟩
      · rintro ⟨_ | ⟨a', before⟩, a'', after, d, hl, hd, ha⟩
        · obtain ⟨rfl, rfl⟩ := List.cons.inj hl
          obtain rfl : b = d := by simpa using hd
          exact .inl ha
        · obtain ⟨rfl, rfl⟩ := List.cons.inj hl
          simp only [List.foldlM_cons, bind_eq_ok] at hd
          obtain ⟨c, hc, hd⟩ := hd
          exact .inr ⟨c, hc, before, a'', after, d, rfl, hd, ha⟩

/-- A fold succeeds when every step does. -/
theorem exists_foldlM_eq_ok {f : β → α → Except ε β} {l : List α} {b : β}
    (h : ∀ b, ∀ a ∈ l, ∃ c, f b a = .ok c) : ∃ r, l.foldlM f b = .ok r := by
  induction l generalizing b with
  | nil => exact ⟨b, rfl⟩
  | cons a l ih =>
      obtain ⟨c, hc⟩ := h b a List.mem_cons_self
      obtain ⟨r, hr⟩ := ih (b := c) fun b a ha => h b a (List.mem_cons_of_mem _ ha)
      refine ⟨r, ?_⟩
      rw [List.foldlM_cons, bind_eq_ok]
      exact ⟨c, hc, hr⟩

end PlayerPaths
