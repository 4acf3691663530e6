/-!
# Sorts

The sorts of solver formulas: booleans, bit vectors, integers (object identities), reals (floating
point values), strings, and records (value types). A record has one constructor, and an accessor
per field.
-/

namespace PlayerPaths

inductive SmtSort where
  | bool
  | bitVec (width : Nat)
  | int
  | real
  | string
  | record (name : String) (fields : List (String × SmtSort))

namespace SmtSort

mutual

def same : SmtSort → SmtSort → Bool
  | .bool, .bool | .int, .int | .real, .real | .string, .string => true
  | .bitVec m, .bitVec n => m == n
  | .record m fs, .record n gs => m == n && sameFields fs gs
  | _, _ => false

def sameFields : List (String × SmtSort) → List (String × SmtSort) → Bool
  | [], [] => true
  | (m, s) :: fs, (n, t) :: gs => m == n && s.same t && sameFields fs gs
  | _, _ => false

end

mutual

theorem same_iff : ∀ s t : SmtSort, s.same t = true ↔ s = t
  | .bool, t | .int, t | .real, t | .string, t => by cases t <;> simp [same]
  | .bitVec m, t => by cases t <;> simp [same]
  | .record m fs, t => by
    cases t with
    | record n gs => simp [same, sameFields_iff fs gs]
    | _ => simp [same]

theorem sameFields_iff : ∀ fs gs : List (String × SmtSort), sameFields fs gs = true ↔ fs = gs
  | [], gs => by cases gs <;> simp [sameFields]
  | (m, s) :: fs, [] => by simp [sameFields]
  | (m, s) :: fs, (n, t) :: gs => by
    simp [sameFields, same_iff s t, sameFields_iff fs gs]

end

instance : DecidableEq SmtSort := fun s t => decidable_of_iff _ (same_iff s t)

instance : Inhabited SmtSort := ⟨.bool⟩

def rank : SmtSort → Nat
  | .bool => 0
  | .bitVec _ => 1
  | .int => 2
  | .real => 3
  | .string => 4
  | .record .. => 5

mutual

def order : SmtSort → SmtSort → Ordering
  | .bitVec m, .bitVec n => compare m n
  | .record m fs, .record n gs => (compare m n).then (orderFields fs gs)
  | s, t => compare s.rank t.rank

def orderFields : List (String × SmtSort) → List (String × SmtSort) → Ordering
  | [], [] => .eq
  | [], _ :: _ => .lt
  | _ :: _, [] => .gt
  | (m, s) :: fs, (n, t) :: gs => ((compare m n).then (s.order t)).then (orderFields fs gs)

end

def width? : SmtSort → Option Nat
  | .bitVec width => some width
  | _ => none

/-- The width of a bit vector sort, and zero for all other sorts. -/
def width (s : SmtSort) : Nat := s.width?.getD 0

def isBool : SmtSort → Bool
  | .bool => true
  | _ => false

/-- The sorts with sums and an order. -/
def isArithmetic : SmtSort → Bool
  | .int | .real => true
  | _ => false

/-- The name of a sort in messages. -/
def text : SmtSort → String
  | .bool => "Bool"
  | .bitVec width => "(_ BitVec " ++ toString width ++ ")"
  | .int => "Int"
  | .real => "Real"
  | .string => "String"
  | .record name _ => "|" ++ name ++ "|"

end SmtSort

structure Record where
  name : String
  fields : List (String × SmtSort)
  deriving DecidableEq

namespace Record

def sort (r : Record) : SmtSort := .record r.name r.fields

theorem eq_of_sort_eq {r s : Record} (h : r.sort = s.sort) : r = s := by
  cases r
  cases s
  simpa [sort] using h

/-- The order of records is the order of their sorts. -/
def order (r s : Record) : Ordering := r.sort.order s.sort

def fieldIndex? (r : Record) (name : String) : Option Nat :=
  r.fields.findIdx? fun f => f.1 == name

def fieldSort? (r : Record) (i : Nat) : Option SmtSort := r.fields[i]?.map Prod.snd

def constructorName (r : Record) : String := "mk-" ++ r.name

def accessorName (r : Record) (field : String) : String := r.name ++ "." ++ field

def accessorName? (r : Record) (i : Nat) : Option String :=
  r.fields[i]?.map fun f => r.accessorName f.1

end Record

/-- The record that a sort is. -/
def SmtSort.record? : SmtSort → Option Record
  | .record name fields => some ⟨name, fields⟩
  | _ => none

end PlayerPaths
