import PlayerPaths.Execution.Evaluate

/-!
# The numbers of calls

The calls of an instruction are counted in the order of execution, so the calls in the arguments of
a call are counted before it (`Operation.ordered_sites`): when a call is the next one to be made,
the calls of its arguments are the last ones that were made.
-/

namespace PlayerPaths.IL

namespace Expression

def sitesAll (es : List Expression) : List CallSite := (postOrderAll es).filterMap asSite?

/-- An expression that is no call adds nothing after its parts. -/
theorem filterMap_asSite?_snoc {e : Expression} (h : e.asSite? = none) (es : List Expression) :
    (es ++ [e]).filterMap asSite? = es.filterMap asSite? := by
  simp [h]

@[simp] theorem sites_binary {op : BinaryOp} {sign : Sign} {lhs rhs : Expression} :
    (binary op sign lhs rhs).sites = lhs.sites ++ rhs.sites :=
  (filterMap_asSite?_snoc rfl _).trans List.filterMap_append

@[simp] theorem sites_compare {kind : Comparison} {sign : Sign} {lhs rhs : Expression} :
    (compare kind sign lhs rhs).sites = lhs.sites ++ rhs.sites :=
  (filterMap_asSite?_snoc rfl _).trans List.filterMap_append

@[simp] theorem sites_not {e : Expression} : (Expression.not e).sites = e.sites :=
  filterMap_asSite?_snoc rfl _

@[simp] theorem sites_convert {e : Expression} {target : Ty} :
    (convert e target).sites = e.sites :=
  filterMap_asSite?_snoc rfl _

@[simp] theorem sites_field {e : Expression} {f : FieldRef} : (field e f).sites = e.sites :=
  filterMap_asSite?_snoc rfl _

@[simp] theorem sites_length {e : Expression} : (length e).sites = e.sites :=
  filterMap_asSite?_snoc rfl _

@[simp] theorem sites_call {method : MethodRef} {arguments : List Expression} :
    (call method arguments).sites = sitesAll arguments ++ [⟨⟨method, arguments⟩, false⟩] :=
  List.filterMap_append

@[simp] theorem sites_new {method : MethodRef} {arguments : List Expression} :
    (new method arguments).sites = sitesAll arguments ++ [⟨⟨method, arguments⟩, true⟩] :=
  List.filterMap_append

theorem sitesAll_cons {e : Expression} {es : List Expression} :
    sitesAll (e :: es) = e.sites ++ sitesAll es := by
  simp [sitesAll, sites, postOrderAll]

theorem flatMap_sites (es : List Expression) : es.flatMap sites = sitesAll es := by
  induction es with
  | nil => rfl
  | cons e es ih => rw [List.flatMap_cons, ih, sitesAll_cons]

/-! ## Counts -/

def siteCounts (es : List Expression) : Nat :=
  (postOrderAll es).countP fun e => e.asSite?.isSome

theorem length_sitesAll (es : List Expression) : (sitesAll es).length = siteCounts es :=
  List.length_filterMap_eq_countP

@[simp] theorem siteCount_binary {op : BinaryOp} {sign : Sign} {lhs rhs : Expression} :
    (binary op sign lhs rhs).siteCount = lhs.siteCount + rhs.siteCount := by
  simp [siteCount]

@[simp] theorem siteCount_compare {kind : Comparison} {sign : Sign} {lhs rhs : Expression} :
    (compare kind sign lhs rhs).siteCount = lhs.siteCount + rhs.siteCount := by
  simp [siteCount]

@[simp] theorem siteCount_not {e : Expression} : (Expression.not e).siteCount = e.siteCount := by
  simp [siteCount]

@[simp] theorem siteCount_convert {e : Expression} {target : Ty} :
    (convert e target).siteCount = e.siteCount := by
  simp [siteCount]

@[simp] theorem siteCount_field {e : Expression} {f : FieldRef} :
    (field e f).siteCount = e.siteCount := by
  simp [siteCount]

@[simp] theorem siteCount_length {e : Expression} : (length e).siteCount = e.siteCount := by
  simp [siteCount]

@[simp] theorem siteCount_call {method : MethodRef} {arguments : List Expression} :
    (call method arguments).siteCount = siteCounts arguments + 1 := by
  simp [siteCount, length_sitesAll]

@[simp] theorem siteCount_new {method : MethodRef} {arguments : List Expression} :
    (new method arguments).siteCount = siteCounts arguments + 1 := by
  simp [siteCount, length_sitesAll]

@[simp] theorem siteCounts_nil : siteCounts [] = 0 := rfl

@[simp] theorem siteCounts_cons {e : Expression} {es : List Expression} :
    siteCounts (e :: es) = e.siteCount + siteCounts es := by
  rw [siteCounts, postOrderAll, List.countP_append]
  exact congrArg (· + siteCounts es) List.length_filterMap_eq_countP.symm

end Expression

/-! ## The order of calls -/

/-- The calls in the arguments of a call come before it. -/
def CallSite.Ordered (sites : List CallSite) : Prop :=
  ∀ (i : Nat) site, sites[i]? = some site → Expression.siteCounts site.call.arguments ≤ i

namespace CallSite

theorem ordered_nil : Ordered [] := fun i site h => by simp at h

theorem Ordered.append {sites others : List CallSite} (h : Ordered sites) (h' : Ordered others) :
    Ordered (sites ++ others) := by
  intro i site hi
  rcases Nat.lt_or_ge i sites.length with hlt | hge
  · exact h i _ (List.getElem?_append_left hlt ▸ hi)
  · exact Nat.le_trans (h' _ _ (List.getElem?_append_right hge ▸ hi)) (Nat.sub_le _ _)

/-- A call comes behind exactly the calls of its arguments. -/
theorem Ordered.snoc {sites : List CallSite} (h : Ordered sites) {site : CallSite}
    (hlength : Expression.siteCounts site.call.arguments = sites.length) :
    Ordered (sites ++ [site]) := by
  intro i site' hi
  rcases Nat.lt_or_ge i sites.length with hlt | hge
  · exact h i _ (List.getElem?_append_left hlt ▸ hi)
  · rw [List.getElem?_append_right hge] at hi
    obtain rfl := List.mem_singleton.mp (List.mem_of_getElem? hi)
    omega

end CallSite

namespace Expression

open CallSite

mutual

theorem ordered_sites : ∀ e : Expression, Ordered e.sites
  | .load _ | .loadAddress _ | .constant _ | .staticField _ => ordered_nil
  | .binary _ _ lhs rhs => by
    rw [sites_binary]
    exact (ordered_sites lhs).append (ordered_sites rhs)
  | .compare _ _ lhs rhs => by
    rw [sites_compare]
    exact (ordered_sites lhs).append (ordered_sites rhs)
  | .not e => by
    rw [sites_not]
    exact ordered_sites e
  | .convert e _ => by
    rw [sites_convert]
    exact ordered_sites e
  | .field e _ => by
    rw [sites_field]
    exact ordered_sites e
  | .length e => by
    rw [sites_length]
    exact ordered_sites e
  | .call _ arguments => by
    rw [sites_call]
    exact (ordered_sitesAll arguments).snoc (length_sitesAll arguments).symm
  | .new _ arguments => by
    rw [sites_new]
    exact (ordered_sitesAll arguments).snoc (length_sitesAll arguments).symm

theorem ordered_sitesAll : ∀ es : List Expression, Ordered (sitesAll es)
  | [] => ordered_nil
  | e :: es => by
    rw [sitesAll_cons]
    exact (ordered_sites e).append (ordered_sitesAll es)

end

end Expression

/-- The calls in the expressions of a statement are among its calls. -/
theorem Operation.siteCounts_le (o : Operation) :
    Expression.siteCounts o.expressions ≤ o.sites.length := by
  rw [← Expression.length_sitesAll, ← Expression.flatMap_sites]
  unfold Operation.sites
  rw [List.length_append]
  exact Nat.le_add_right _ _

/-- The calls of a statement come behind those of their arguments. -/
theorem Operation.ordered_sites (o : Operation) : CallSite.Ordered o.sites := by
  have hexpressions : CallSite.Ordered (o.expressions.flatMap Expression.sites) := by
    rw [Expression.flatMap_sites]
    exact Expression.ordered_sitesAll _
  cases o with
  | call c =>
      refine hexpressions.snoc ?_
      rw [Expression.flatMap_sites, Expression.length_sitesAll]
      rfl
  | _ =>
      show CallSite.Ordered (_ ++ [])
      rw [List.append_nil]
      exact hexpressions

end PlayerPaths.IL
