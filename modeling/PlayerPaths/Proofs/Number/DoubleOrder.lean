import PlayerPaths.Formula.Bits
import PlayerPaths.Proofs.Collections

/-!
# Comparison of doubles

Doubles are compared by sign, exponent and significand. `Double.place?` lists these three as
integers, and the comparison of two numbers is the lexicographic comparison of their places; NaN
has none. Hence `<` is a strict partial order that is compatible with `≤`.
-/

namespace PlayerPaths.Double

open Std Float.Model

/-- The place of a number among all numbers: its kind, its exponent and its significand. -/
abbrev Place := Int × Int × Int

namespace Place

def order : Place → Place → Ordering :=
  compareLex (compareOn Prod.fst)
    (compareLex (compareOn fun p => p.2.1) (compareOn fun p => p.2.2))

instance : TransCmp order :=
  inferInstanceAs (TransCmp (compareLex (compareOn Prod.fst)
    (compareLex (compareOn fun p : Place => p.2.1) (compareOn fun p : Place => p.2.2))))

end Place

def placeOf? : UnpackedFloat → Option Place
  | .notANumber => none
  | .infinity .negative => some (-2, 0, 0)
  | .finite .negative significand exponent _ => some (-1, -exponent, -significand)
  | .zero _ => some (0, 0, 0)
  | .finite .positive significand exponent _ => some (1, exponent, significand)
  | .infinity .positive => some (2, 0, 0)

theorem compare_places (a b : UnpackedFloat) : a.compare b =
    (placeOf? a).bind fun p => (placeOf? b).map fun q => Place.order p q := by
  rcases a with (_ | _) | _ | (_ | _) | ⟨_ | _, m, e, hm⟩ <;>
    rcases b with (_ | _) | _ | (_ | _) | ⟨_ | _, m', e', hm'⟩ <;>
    first
    | rfl
    | dsimp only [UnpackedFloat.compare, placeOf?]
      simp [Place.order, compareLex, compareOn, compare_neg, compare_natCast, Ordering.swap_then]

def place? (x : Float) : Option Place := placeOf? x.toModel.unpack

theorem lt_iff {x y : Float} :
    x < y ↔ ∃ p q, place? x = some p ∧ place? y = some q ∧ Place.order p q = .lt := by
  have : x < y ↔ x.toModel.unpack.compare y.toModel.unpack = some .lt := by
    change (decide (x.toModel.lt y.toModel = true)) = true ↔ _
    simp [Float.Model.lt, UnpackedFloat.lt]
  rw [this, compare_places]
  simp [place?, Option.bind_eq_some_iff]

theorem le_iff {x y : Float} :
    x ≤ y ↔ ∃ p q, place? x = some p ∧ place? y = some q ∧ (Place.order p q).isLE := by
  have : x ≤ y ↔ (x.toModel.unpack.compare y.toModel.unpack).any (·.isLE) = true := by
    change (decide (x.toModel.le y.toModel = true)) = true ↔ _
    rw [Bool.decide_eq_true]
    rfl
  rw [this, compare_places]
  unfold place?
  cases placeOf? x.toModel.unpack <;> cases placeOf? y.toModel.unpack <;> simp

theorem lt_irrefl (x : Float) : ¬ x < x := by
  rw [lt_iff]
  rintro ⟨p, q, hp, hq, h⟩
  obtain rfl : p = q := by simpa [hp] using hq
  simp [ReflCmp.compare_self] at h

theorem lt_trans {x y z : Float} (hxy : x < y) (hyz : y < z) : x < z := by
  obtain ⟨p, q, hp, hq, hpq⟩ := lt_iff.mp hxy
  obtain ⟨q', r, hq', hr, hqr⟩ := lt_iff.mp hyz
  obtain rfl : q = q' := by simpa [hq] using hq'
  exact lt_iff.mpr ⟨p, r, hp, hr, TransCmp.lt_trans hpq hqr⟩

theorem lt_of_lt_of_le {x y z : Float} (hxy : x < y) (hyz : y ≤ z) : x < z := by
  obtain ⟨p, q, hp, hq, hpq⟩ := lt_iff.mp hxy
  obtain ⟨q', r, hq', hr, hqr⟩ := le_iff.mp hyz
  obtain rfl : q = q' := by simpa [hq] using hq'
  exact lt_iff.mpr ⟨p, r, hp, hr, TransCmp.lt_of_lt_of_isLE hpq hqr⟩

theorem le_of_lt {x y : Float} (h : x < y) : x ≤ y := by
  obtain ⟨p, q, hp, hq, hpq⟩ := lt_iff.mp h
  exact le_iff.mpr ⟨p, q, hp, hq, by simp [hpq]⟩

/-- Of two numbers, not each is below or at most the other. -/
theorem not_lt_of_le {x y : Float} (h : x ≤ y) : ¬ y < x := by
  intro hlt
  exact lt_irrefl y (lt_of_lt_of_le hlt h)

/-- Numbers that are not NaN are comparable. -/
theorem le_of_not_lt {x y : Float} (hx : x ≤ x) (hy : y ≤ y) (h : ¬ y < x) : x ≤ y := by
  obtain ⟨p, -, hp, -, -⟩ := le_iff.mp hx
  obtain ⟨q, -, hq, -, -⟩ := le_iff.mp hy
  refine le_iff.mpr ⟨p, q, hp, hq, ?_⟩
  cases hpq : Place.order p q with
  | lt | eq => rfl
  | gt => exact absurd (lt_iff.mpr ⟨q, p, hq, hp, OrientedCmp.lt_of_gt hpq⟩) h

/-- What is compared is not NaN. -/
theorem le_self_of_le {x y : Float} (h : x ≤ y) : y ≤ y := by
  obtain ⟨-, q, -, hq, -⟩ := le_iff.mp h
  exact le_iff.mpr ⟨q, q, hq, hq, by simp [ReflCmp.compare_self]⟩

end PlayerPaths.Double
