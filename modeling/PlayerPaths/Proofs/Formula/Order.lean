import PlayerPaths.Formula.Order
import PlayerPaths.Proofs.Collections

/-!
# The order of formulas

A formula is spelled as a list of symbols: its rank, its parameters and then its parts. The order
of formulas is the lexicographic order of their spellings (`Formula.spells`), so it is a total
order, and only equal formulas compare as equal (`Formula.eq_of_order_eq`).
-/

namespace PlayerPaths

open Std

/-! ## Spellings -/

/-- A symbol of a spelling, a number or a text. -/
abbrev Letter := Int × String

namespace Letter

def number (n : Int) : Letter := (n, "")

def text (s : String) : Letter := (0, s)

def order : Letter → Letter → Ordering := compareLex (compareOn Prod.fst) (compareOn Prod.snd)

instance : TransCmp order :=
  inferInstanceAs (TransCmp (compareLex (compareOn Prod.fst) (compareOn Prod.snd)))

theorem order_number (m n : Int) : order (number m) (number n) = compare m n := by
  simp [order, number, compareLex, compareOn]

theorem order_text (m n : String) : order (text m) (text n) = compare m n := by
  simp [order, text, compareLex, compareOn]

end Letter

/-- The lexicographic order of spellings. -/
def spellingOrder : List Letter → List Letter → Ordering := List.compareLex Letter.order

instance : TransCmp spellingOrder := inferInstanceAs (TransCmp (List.compareLex Letter.order))

/-- Two spellings compare in a way, whatever comes after them. -/
def Spells (x y : List Letter) (o : Ordering) : Prop :=
  ∀ r s, spellingOrder (x ++ r) (y ++ s) = o.then (spellingOrder r s)

namespace Spells

theorem nil : Spells [] [] .eq := fun _ _ => rfl

theorem append {x y x' y' : List Letter} {o o' : Ordering} (h : Spells x y o)
    (h' : Spells x' y' o') : Spells (x ++ x') (y ++ y') (o.then o') := by
  intro r s
  rw [List.append_assoc, List.append_assoc, h, h', Ordering.then_assoc]

theorem int (m n : Int) : Spells [.number m] [.number n] (compare m n) := by
  intro r s
  simp [spellingOrder, List.compareLex_cons_cons, Letter.order_number]

theorem nat (m n : Nat) : Spells [.number m] [.number n] (compare m n) := by
  rw [← compare_natCast]
  exact int m n

theorem text (m n : String) : Spells [.text m] [.text n] (compare m n) := by
  intro r s
  simp [spellingOrder, List.compareLex_cons_cons, Letter.order_text]

/-- What comes after different ranks does not count. -/
theorem ranks {m n : Nat} (h : m ≠ n) (x y : List Letter) :
    Spells (.number m :: x) (.number n :: y) (compare m n) := by
  intro r s
  have hne : compare m n ≠ .eq := fun heq => h (Nat.compare_eq_eq.mp heq)
  have hlex := Spells.nat m n (x ++ r) (y ++ s)
  rw [List.cons_append, List.cons_append]
  rw [List.singleton_append, List.singleton_append] at hlex
  rw [hlex]
  cases hc : compare m n with
  | eq => exact absurd hc hne
  | lt | gt => rfl

/-- What comes after one rank decides. -/
theorem rank (n : Nat) {x y : List Letter} {o : Ordering} (h : Spells x y o) :
    Spells (.number n :: x) (.number n :: y) o := by
  have := (Spells.nat n n).append h
  rwa [Nat.compare_eq_eq.mpr rfl] at this

end Spells

/-! ## Sorts -/

namespace SmtSort

mutual

def spelling : SmtSort → List Letter
  | .bitVec width => .number 1 :: [.number width]
  | .record name fields => .number 5 :: (.text name :: fieldsSpelling fields)
  | s => [.number s.rank]

def fieldsSpelling : List (String × SmtSort) → List Letter
  | [] => [.number 0]
  | (name, s) :: fields => .number 1 :: (.text name :: (s.spelling ++ fieldsSpelling fields))

end

mutual

theorem spells : ∀ s t : SmtSort, Spells s.spelling t.spelling (s.order t)
  | .bitVec m, t => by
    cases t with
    | bitVec n => exact .rank 1 (.nat m n)
    | _ => exact .ranks (by decide) _ _
  | .record m fs, t => by
    cases t with
    | record n gs => exact .rank 5 ((Spells.text m n).append (fieldsSpells fs gs))
    | _ => exact .ranks (by decide) _ _
  | .bool, t | .int, t | .real, t | .string, t => by
    cases t <;> first | exact .rank _ .nil | exact .ranks (by decide) _ _

theorem fieldsSpells : ∀ fs gs : List (String × SmtSort),
    Spells (fieldsSpelling fs) (fieldsSpelling gs) (orderFields fs gs)
  | [], [] => .rank 0 .nil
  | [], _ :: _ | _ :: _, [] => .ranks (by decide) _ _
  | (m, s) :: fs, (n, t) :: gs => by
    have := Spells.rank 1 ((Spells.text m n).append ((spells s t).append (fieldsSpells fs gs)))
    rwa [← Ordering.then_assoc] at this

end

mutual

theorem eq_of_order_eq : ∀ s t : SmtSort, s.order t = .eq → s = t
  | .bitVec m, t, h => by
    cases t with
    | bitVec n => rw [Nat.compare_eq_eq.mp h]
    | _ => simp [order, rank] at h
  | .record m fs, t, h => by
    cases t with
    | record n gs =>
      obtain ⟨hname, hfields⟩ := Ordering.then_eq_eq.mp h
      rw [LawfulEqOrd.eq_of_compare hname, eq_of_orderFields_eq fs gs hfields]
    | _ => simp [order, rank] at h
  | .bool, t, h | .int, t, h | .real, t, h | .string, t, h => by
    cases t <;> simp_all [order, rank]

theorem eq_of_orderFields_eq : ∀ fs gs : List (String × SmtSort),
    orderFields fs gs = .eq → fs = gs
  | [], [], _ => rfl
  | [], _ :: _, h | _ :: _, [], h => by simp [orderFields] at h
  | (m, s) :: fs, (n, t) :: gs, h => by
    simp only [orderFields, Ordering.then_eq_eq] at h
    rw [LawfulEqOrd.eq_of_compare h.1.1, eq_of_order_eq s t h.1.2, eq_of_orderFields_eq fs gs h.2]

end

end SmtSort

/-! ## Functions and literals -/

theorem Record.spells (r s : Record) : Spells r.sort.spelling s.sort.spelling (r.order s) :=
  SmtSort.spells r.sort s.sort

theorem Record.eq_of_order_eq {r s : Record} (h : r.order s = .eq) : r = s :=
  Record.eq_of_sort_eq (SmtSort.eq_of_order_eq _ _ h)

def Literal.spelling : Literal → List Letter
  | .bool b => .number 1 :: [.number b.toNat]
  | .bits value width => .number 2 :: ([.number value] ++ [.number width])
  | .int i => .number 3 :: [.number i]
  | .real x => .number 4 :: [.number (Double.rank x)]
  | .str s => .number 5 :: [.text s]

theorem Literal.spells (v w : Literal) : Spells v.spelling w.spelling (v.order w) := by
  cases v with
  | bool a =>
      cases w with
      | bool b => exact .rank 1 (.nat _ _)
      | _ => exact .ranks (by decide) _ _
  | bits a m =>
      cases w with
      | bits b n => exact .rank 2 ((Spells.nat a b).append (.nat m n))
      | _ => exact .ranks (by decide) _ _
  | int a =>
      cases w with
      | int b => exact .rank 3 (.int a b)
      | _ => exact .ranks (by decide) _ _
  | real a =>
      cases w with
      | real b => exact .rank 4 (.int _ _)
      | _ => exact .ranks (by decide) _ _
  | str a =>
      cases w with
      | str b => exact .rank 5 (.text a b)
      | _ => exact .ranks (by decide) _ _

theorem Double.eq_of_order_eq {x y : Float} (h : Double.order x y = .eq) : x = y := by
  have hrank : Double.rank x = Double.rank y := LawfulEqOrd.eq_of_compare h
  have hword : Double.word x = Double.word y := by
    simp only [Double.rank] at hrank
    have hpow : pow2 63 = 9223372036854775808 := by decide
    rw [hpow] at hrank
    split at hrank <;> split at hrank <;> omega
  have hbits : x.toBits = y.toBits := UInt64.toNat_inj.mp hword
  rcases x with ⟨⟨x, hx⟩⟩
  rcases y with ⟨⟨y, hy⟩⟩
  obtain rfl : x = y := hbits
  rfl

theorem Literal.eq_of_order_eq {v w : Literal} (h : v.order w = .eq) : v = w := by
  cases v <;> cases w <;> simp_all [Literal.order, Literal.rank, Ordering.then_eq_eq]
  case bool.bool a b => cases a <;> cases b <;> simp_all
  case real.real x y => exact Double.eq_of_order_eq h

def UnaryFunction.spelling (f : UnaryFunction) : List Letter :=
  .number f.rank :: match f with
    | .extract high low => [.number high] ++ [.number low]
    | .zeroExtend extra | .signExtend extra => [.number extra]
    | .intToBits width => [.number width]
    | .get r i => r.sort.spelling ++ [.number i]
    | _ => []

theorem UnaryFunction.spells (f g : UnaryFunction) : Spells f.spelling g.spelling (f.order g) := by
  cases f <;> cases g <;>
    first
    | exact .ranks (Nat.ne_of_beq_eq_false rfl) _ _
    | exact .rank _ .nil
    | exact .rank _ (.nat _ _)
    | exact .rank _ ((Spells.nat _ _).append (.nat _ _))
    | exact .rank _ ((Record.spells _ _).append (.nat _ _))

theorem UnaryFunction.eq_of_order_eq {f g : UnaryFunction} (h : f.order g = .eq) : f = g := by
  have hrank : f.rank = g.rank := by
    unfold UnaryFunction.order at h
    split at h <;> first | rfl | exact Nat.compare_eq_eq.mp h
  cases f <;> cases g <;>
    first
    | exact absurd hrank (Nat.ne_of_beq_eq_false rfl)
    | rfl
    | simp_all [UnaryFunction.order, Ordering.then_eq_eq]
  case get.get r i s j => exact Record.eq_of_order_eq h.1

def BinaryFunction.spelling (f : BinaryFunction) : List Letter :=
  .number f.rank :: match f with
    | .bits op => [.number op.rank]
    | .compareBits c => [.number c.rank]
    | .arith op => [.number op.rank]
    | .compareArith c => [.number c.rank]
    | _ => []

theorem BinaryFunction.spells (f g : BinaryFunction) :
    Spells f.spelling g.spelling (f.order g) := by
  cases f <;> cases g <;>
    first
    | exact .ranks (Nat.ne_of_beq_eq_false rfl) _ _
    | exact .rank _ .nil
    | exact .rank _ (.nat _ _)

theorem BitOp.eq_of_rank_eq {a b : BitOp} (h : a.rank = b.rank) : a = b := by
  have hrank : ∀ a : BitOp, a.rank = a.ctorIdx := fun a => by cases a <;> rfl
  rw [hrank, hrank] at h
  rw [← BitOp.ofNat_ctorIdx a, h, BitOp.ofNat_ctorIdx]

theorem BitComparison.eq_of_rank_eq {a b : BitComparison} (h : a.rank = b.rank) : a = b := by
  have hrank : ∀ a : BitComparison, a.rank = a.ctorIdx := fun a => by cases a <;> rfl
  rw [hrank, hrank] at h
  rw [← BitComparison.ofNat_ctorIdx a, h, BitComparison.ofNat_ctorIdx]

theorem ArithOp.eq_of_rank_eq {a b : ArithOp} (h : a.rank = b.rank) : a = b := by
  cases a <;> cases b <;> simp_all [ArithOp.rank]

theorem ArithComparison.eq_of_rank_eq {a b : ArithComparison} (h : a.rank = b.rank) : a = b := by
  cases a <;> cases b <;> simp_all [ArithComparison.rank]

theorem BinaryFunction.eq_of_order_eq {f g : BinaryFunction} (h : f.order g = .eq) : f = g := by
  cases f <;> cases g <;> simp_all [BinaryFunction.order, BinaryFunction.rank]
  case bits.bits => exact BitOp.eq_of_rank_eq h
  case compareBits.compareBits => exact BitComparison.eq_of_rank_eq h
  case arith.arith => exact ArithOp.eq_of_rank_eq h
  case compareArith.compareArith => exact ArithComparison.eq_of_rank_eq h

def NaryFunction.spelling (f : NaryFunction) : List Letter :=
  .number f.rank :: match f with
    | .make r => r.sort.spelling
    | _ => []

theorem NaryFunction.spells (f g : NaryFunction) : Spells f.spelling g.spelling (f.order g) := by
  cases f <;> cases g <;>
    first
    | exact .ranks (Nat.ne_of_beq_eq_false rfl) _ _
    | exact .rank _ .nil
    | exact .rank _ (Record.spells _ _)

theorem NaryFunction.eq_of_order_eq {f g : NaryFunction} (h : f.order g = .eq) : f = g := by
  cases f <;> cases g <;> simp_all [NaryFunction.order, NaryFunction.rank]
  case make.make r s => exact Record.eq_of_order_eq h

/-! ## Formulas -/

namespace Formula

mutual

def spelling : Formula → List Letter
  | .var name s => .number 0 :: (.text name :: s.spelling)
  | .lit v => v.spelling
  | .unary f a => f.spelling ++ a.spelling
  | .binary f a b => f.spelling ++ (a.spelling ++ b.spelling)
  | .ite a b c => .number 10 :: (a.spelling ++ (b.spelling ++ c.spelling))
  | .nary f es => f.spelling ++ spellingAll es

def spellingAll : List Formula → List Letter
  | [] => [.number 0]
  | e :: es => .number 1 :: (e.spelling ++ spellingAll es)

end

/-- A rank tells the kind of a formula. -/
def kindOfRank (n : Nat) : Nat :=
  if n = 0 then 0
  else if n ≤ 5 then 1
  else if n = 10 then 4
  else if n ∈ [7, 8, 24] then 5
  else if n ∈ [9, 11, 12, 13, 14, 16] then 3
  else 2

theorem kindOfRank_rank (e : Formula) : kindOfRank e.rank = e.ctorIdx := by
  cases e with
  | lit v => cases v <;> rfl
  | unary f a => cases f <;> rfl
  | binary f a b => cases f <;> rfl
  | nary f es => cases f <;> rfl
  | _ => rfl

theorem spelling_eq_cons (e : Formula) : ∃ x, e.spelling = .number e.rank :: x := by
  cases e with
  | lit v => cases v <;> exact ⟨_, rfl⟩
  | _ => exact ⟨_, rfl⟩

/-- Formulas of different kinds are told apart by their ranks. -/
theorem spells_kinds {a b : Formula} (ho : a.order b = compare a.rank b.rank)
    (h : (a.ctorIdx == b.ctorIdx) = false) : Spells a.spelling b.spelling (a.order b) := by
  have hne : a.rank ≠ b.rank := fun heq => by
    simp [← kindOfRank_rank, heq] at h
  obtain ⟨x, hx⟩ := spelling_eq_cons a
  obtain ⟨y, hy⟩ := spelling_eq_cons b
  rw [ho, hx, hy]
  exact .ranks hne x y

mutual

/-- **The order of formulas is the lexicographic order of their spellings.** -/
theorem spells : ∀ a b : Formula, Spells a.spelling b.spelling (a.order b)
  | .var m s, b => by
    cases b with
    | var n t => exact .rank 0 ((Spells.text m n).append (SmtSort.spells s t))
    | _ => exact spells_kinds rfl rfl
  | .lit v, b => by
    cases b with
    | lit w => exact Literal.spells v w
    | _ => exact spells_kinds rfl rfl
  | .unary f a, b => by
    cases b with
    | unary g b => exact (UnaryFunction.spells f g).append (spells a b)
    | _ => exact spells_kinds rfl rfl
  | .binary f a b, c => by
    cases c with
    | binary g c d =>
      have := (BinaryFunction.spells f g).append ((spells a c).append (spells b d))
      rwa [← Ordering.then_assoc] at this
    | _ => exact spells_kinds rfl rfl
  | .ite a b c, d => by
    cases d with
    | ite d e f =>
      have := Spells.rank 10 ((spells a d).append ((spells b e).append (spells c f)))
      rwa [← Ordering.then_assoc] at this
    | _ => exact spells_kinds rfl rfl
  | .nary f as, b => by
    cases b with
    | nary g bs => exact (NaryFunction.spells f g).append (spellsAll as bs)
    | _ => exact spells_kinds rfl rfl

theorem spellsAll : ∀ as bs : List Formula,
    Spells (spellingAll as) (spellingAll bs) (orderAll as bs)
  | [], [] => .rank 0 .nil
  | [], _ :: _ | _ :: _, [] => .ranks (by decide) _ _
  | a :: as, b :: bs => .rank 1 ((spells a b).append (spellsAll as bs))

end

theorem order_eq_spellingOrder (a b : Formula) :
    a.order b = spellingOrder a.spelling b.spelling := by
  have := spells a b [] []
  rw [List.append_nil, List.append_nil] at this
  rw [this]
  cases a.order b <;> rfl

/-- The order of formulas is oriented and transitive. -/
instance : TransCmp order where
  eq_swap {a b} := by
    rw [order_eq_spellingOrder, order_eq_spellingOrder]
    exact OrientedCmp.eq_swap
  isLE_trans {a b c} hab hbc := by
    rw [order_eq_spellingOrder] at *
    exact TransCmp.isLE_trans hab hbc

theorem ctorIdx_eq_of_order_eq {a b : Formula} (ho : a.order b = compare a.rank b.rank)
    (h : a.order b = .eq) : a.ctorIdx = b.ctorIdx := by
  rw [ho] at h
  rw [← kindOfRank_rank, ← kindOfRank_rank, Nat.compare_eq_eq.mp h]

mutual

/-- **Only equal formulas compare as equal.** -/
theorem eq_of_order_eq : ∀ a b : Formula, a.order b = .eq → a = b
  | .var m s, b, h => by
    cases b with
    | var n t =>
      obtain ⟨hname, hsort⟩ := Ordering.then_eq_eq.mp h
      rw [LawfulEqOrd.eq_of_compare hname, SmtSort.eq_of_order_eq s t hsort]
    | _ => exact absurd (ctorIdx_eq_of_order_eq rfl h) (Nat.ne_of_beq_eq_false rfl)
  | .lit v, b, h => by
    cases b with
    | lit w => rw [Literal.eq_of_order_eq h]
    | _ => exact absurd (ctorIdx_eq_of_order_eq rfl h) (Nat.ne_of_beq_eq_false rfl)
  | .unary f a, b, h => by
    cases b with
    | unary g b =>
      obtain ⟨hf, ha⟩ := Ordering.then_eq_eq.mp h
      rw [UnaryFunction.eq_of_order_eq hf, eq_of_order_eq a b ha]
    | _ => exact absurd (ctorIdx_eq_of_order_eq rfl h) (Nat.ne_of_beq_eq_false rfl)
  | .binary f a b, c, h => by
    cases c with
    | binary g c d =>
      obtain ⟨hfa, hb⟩ := Ordering.then_eq_eq.mp h
      obtain ⟨hf, ha⟩ := Ordering.then_eq_eq.mp hfa
      rw [BinaryFunction.eq_of_order_eq hf, eq_of_order_eq a c ha, eq_of_order_eq b d hb]
    | _ => exact absurd (ctorIdx_eq_of_order_eq rfl h) (Nat.ne_of_beq_eq_false rfl)
  | .ite a b c, d, h => by
    cases d with
    | ite d e f =>
      obtain ⟨hab, hc⟩ := Ordering.then_eq_eq.mp h
      obtain ⟨ha, hb⟩ := Ordering.then_eq_eq.mp hab
      rw [eq_of_order_eq a d ha, eq_of_order_eq b e hb, eq_of_order_eq c f hc]
    | _ => exact absurd (ctorIdx_eq_of_order_eq rfl h) (Nat.ne_of_beq_eq_false rfl)
  | .nary f as, b, h => by
    cases b with
    | nary g bs =>
      obtain ⟨hf, has⟩ := Ordering.then_eq_eq.mp h
      rw [NaryFunction.eq_of_order_eq hf, eq_of_orderAll_eq as bs has]
    | _ => exact absurd (ctorIdx_eq_of_order_eq rfl h) (Nat.ne_of_beq_eq_false rfl)

theorem eq_of_orderAll_eq : ∀ as bs : List Formula, orderAll as bs = .eq → as = bs
  | [], [], _ => rfl
  | [], _ :: _, h | _ :: _, [], h => by simp [orderAll] at h
  | a :: as, b :: bs, h => by
    obtain ⟨ha, has⟩ := Ordering.then_eq_eq.mp h
    rw [eq_of_order_eq a b ha, eq_of_orderAll_eq as bs has]

end

instance : LawfulEqCmp order where
  eq_of_compare {a b} h := eq_of_order_eq a b h

end Formula

end PlayerPaths
