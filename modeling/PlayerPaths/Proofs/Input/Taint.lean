import PlayerPaths.Input.Taint
import PlayerPaths.Proofs.Flow.Scope

/-!
# Taint marks every poll

The calls of a statement are parts of its expressions, or the statement itself. So a statement that
polls depends on input whatever else is tainted, and the analysis marks it in every method that it
enters (`Scope.isTainted_of_site`).
-/

namespace PlayerPaths

open IL Std

/-! ## The calls of a statement -/

namespace IL

namespace Expression

mutual

/-- Both orders list the same parts. -/
theorem postOrder_perm : ∀ e : Expression, e.postOrder.Perm e.preOrder
  | binary _ _ lhs rhs | compare _ _ lhs rhs =>
      (List.perm_append_singleton _ _).trans
        (((postOrder_perm lhs).append (postOrder_perm rhs)).cons _)
  | not a | convert a _ | field a _ | length a =>
      (List.perm_append_singleton _ _).trans ((postOrder_perm a).cons _)
  | call _ es | new _ es =>
      (List.perm_append_singleton _ _).trans ((postOrderAll_perm es).cons _)
  | load _ | loadAddress _ | constant _ | staticField _ => .refl _

theorem postOrderAll_perm : ∀ es : List Expression, (postOrderAll es).Perm (preOrderAll es)
  | [] => .nil
  | e :: es => (postOrder_perm e).append (postOrderAll_perm es)

end

variable {e : Expression} {site : CallSite}

theorem asCall?_of_asSite? (h : e.asSite? = some site) : e.asCall? = some site.call := by
  cases e <;> simp_all [asSite?, asCall?]
  all_goals rw [← h]

/-- The call sites of an expression are calls of its parts. -/
theorem exists_part_of_mem_sites (h : site ∈ e.sites) :
    ∃ part ∈ e.preOrder, part.asCall? = some site.call := by
  obtain ⟨part, hpart, hsite⟩ := List.mem_filterMap.mp h
  exact ⟨part, (postOrder_perm e).mem_iff.mp hpart, asCall?_of_asSite? hsite⟩

end Expression

theorem Operation.mem_sites {o : Operation} {site : CallSite} (h : site ∈ o.sites) :
    (∃ e ∈ o.expressions, site ∈ e.sites) ∨ ∃ c, o = .call c ∧ site.call = c := by
  rcases List.mem_append.mp h with h | h
  · exact .inl (List.mem_flatMap.mp h)
  · cases o with
    | call c => exact .inr ⟨c, rfl, by rw [List.mem_singleton.mp h]⟩
    | _ => cases h

end IL

/-- A call site of a polling method makes its expression poll. -/
theorem InputApi.polls_of_site {api : InputApi} {e : Expression} {site : CallSite}
    (h : site ∈ e.sites) (hinput : api.isInput site.call.method = true) : api.polls e = true := by
  obtain ⟨part, hpart, hcall⟩ := Expression.exists_part_of_mem_sites h
  exact List.any_eq_true.mpr ⟨part, hpart, by simp [hcall, hinput]⟩

/-! ## Tainted statements -/

namespace Scope

variable {s : Scope} {site : CallSite}

/-- A statement with a call site of a polling method depends on input. -/
theorem taintsOperation_of_site {o : Operation} (hsite : site ∈ o.sites)
    (hinput : s.api.isInput site.call.method = true) (shared : SharedTaint) (signature : String)
    (names : List String) : s.taintsOperation shared signature names o = true := by
  unfold taintsOperation
  rcases Operation.mem_sites hsite with ⟨e, he, hsite⟩ | ⟨c, rfl, rfl⟩
  · have hpolls : s.api.polls e = true := InputApi.polls_of_site hsite hinput
    have hany : o.expressions.any (s.taints shared signature names) = true :=
      List.any_eq_true.mpr ⟨e, he, by simp [taints, hpolls]⟩
    rw [hany, Bool.true_or]
  · simp [hinput]

/-- Every instruction of a graph is looked at. -/
theorem mem_taintedBefore {shared : SharedTaint} {m : FlowMethod} {l : Location} {i : Instruction}
    {before : List (Location × Operation × List String)}
    (h : s.taintedBefore shared m = .ok before) (hl : m.HasLocation l)
    (hi : m.body.instruction? l = some i) : ∃ names, (l, i.operation, names) ∈ before := by
  simp only [taintedBefore, bind_eq_ok, pure_eq_ok] at h
  obtain ⟨out, -, rfl⟩ := h
  obtain ⟨n, ⟨k, hk⟩, hnl⟩ := hl
  have hmem : (k, l, i.operation) ∈ m.instructions :=
    FlowMethod.mem_instructions.mpr ⟨n, hk, hnl, FlowMethod.operation?_eq_some hnl hi⟩
  exact ⟨_, List.mem_map_of_mem hmem⟩

variable {m : Method} {b : Body} {l : Location} {i : Instruction}

/-- **The taint analysis marks every instruction that polls**, at every location that it enters. -/
theorem isTainted_of_site {taint : TaintResult} (hkeyed : s.program.Keyed)
    (hnumbered : s.program.Numbered) (h : s.taint = .ok taint) (hl : s.Located m l)
    (hb : m.body = some b) (hi : b.instruction? l = some i) (hsite : site ∈ i.operation.sites)
    (hinput : s.api.isInput site.call.method = true) :
    taint.isTainted m.signature l = true := by
  simp only [Scope.taint, taintFrom, bind_eq_ok, pure_eq_ok] at h
  obtain ⟨ms, hms, shared, -, points, hpoints, rfl⟩ := h
  obtain ⟨hmethods, hvalid⟩ := flowMethods_eq_ok hms hnumbered
  obtain ⟨fm, hfm, rfl⟩ := List.mem_map.mp (hmethods ▸ hl.1)
  have hfmvalid := hvalid fm hfm
  obtain rfl := Option.some.inj (hfmvalid.body.symm.trans hb)
  have htable := ofList_of_mapM hpoints FlowMethod.signature fun m entry hentry => by
    simp only [bind_eq_ok, pure_eq_ok] at hentry
    obtain ⟨points, -, rfl⟩ := hentry
    rfl
  have hdistinct := flowMethods_distinct hms (distinct_of_keyed hkeyed)
  obtain ⟨ls, hls, hget⟩ := (htable hdistinct).2 fm hfm
  simp only [taintedPoints, bind_eq_ok, pure_eq_ok, Prod.mk.injEq, true_and] at hls
  obtain ⟨_, ⟨before, hbefore, rfl⟩, rfl⟩ := hls
  obtain ⟨names, hmem⟩ := mem_taintedBefore hbefore (hl.hasLocation hfmvalid) hi
  show List.contains ((TreeMap.ofList points).getD fm.signature []) l = true
  rw [TreeMap.getD_eq_getD_getElem?, hget, Option.getD_some, List.contains_iff_mem,
    Sorted.mem_ofList]
  refine List.mem_filterMap.mpr ⟨_, hmem, ?_⟩
  simp [taintsOperation_of_site hsite hinput]

end Scope

end PlayerPaths
