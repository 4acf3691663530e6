/-!
# Sorted lists as sets

A set is an increasing list without repetition, for an order given as a comparison. Two sets with
the same elements are then equal as lists, and listing a set is listing it in order.
-/

namespace PlayerPaths.Sorted

variable {α : Type}

/-- Insert an element once. -/
def insert (cmp : α → α → Ordering) (x : α) : List α → List α
  | [] => [x]
  | y :: ys =>
    match cmp x y with
    | .lt => x :: y :: ys
    | .eq => y :: ys
    | .gt => y :: insert cmp x ys

/-- All elements of both lists; the first is already sorted. -/
def union (cmp : α → α → Ordering) (xs ys : List α) : List α :=
  ys.foldl (fun set y => insert cmp y set) xs

def ofList (cmp : α → α → Ordering) (xs : List α) : List α := union cmp [] xs

def words (xs : List String) : List String := ofList compare xs

end PlayerPaths.Sorted
