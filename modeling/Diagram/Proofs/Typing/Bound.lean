import Diagram.Proofs.Program.References
import Diagram.Proofs.Typing.Settled

/-!
# Names that inference binds

Inference keeps the variables of comprehensions and the left sides of bindings, so an expression
binds the same names before and after it.

Main statements: `Derives.binds_inside`, `DerivesBindings.binds_withBindings`.
-/

namespace Diagram.Typing

theorem allowTime_withParams (scope : Scope) (params : List Param) :
    (scope.withParams params).allowTime = scope.allowTime := by
  induction params generalizing scope with
  | nil => rfl
  | cons p params ih => exact ih (scope.bind p.name p.ty)

theorem allowTime_scopeInside (scope : Scope) (e : Expr) :
    (scopeInside scope e).allowTime = scope.allowTime := by
  induction e using Expr.chainInduction generalizing scope with
  | map info body x source ih =>
    cases x with
    | name i n => exact ih _
    | _ => rfl
  | other e hother => rw [Expr.scopeInside_of_other hother]

theorem allowTime_scopeWithBindings (scope : Scope) (e : Expr) :
    (scopeWithBindings scope e).allowTime = scope.allowTime := by
  fun_induction scopeWithBindings scope e with
  | case1 scope info left right ihleft ihright => exact ihright.trans ihleft
  | case2 | case3 | case4 => rfl

variable {R : Resolution} {op : Operation} {v : Verdict} {area : Area} {bound : List String}

theorem Settles.ne_listMap {operands : List Expr} (h : Settles op operands v) : op ≠ .listMap := by
  rintro rfl
  cases h with
  | connective hop | sign hop | range hop => rcases hop with h | h <;> cases h
  | arithmetic hop | comparison hop => cases hop

theorem namesInside_of_ne {info : Info} (h : op ≠ .listMap) (operands : List Expr)
    (bound : List String) : (Expr.operator info op operands).namesInside bound = bound := by
  unfold Expr.namesInside
  split
  · rename_i heq
    cases heq
    exact absurd rfl h
  · rfl

theorem namesInside_expr (h : op ≠ .listMap) (operands : List Expr) (bound : List String) :
    (v.expr area op operands).namesInside bound = bound := by
  unfold Verdict.expr
  split
  · rfl
  · exact namesInside_of_ne h operands bound

theorem Finds.namesInside_eq {scope : Scope} {n : String} {s s' : State} {e' : Expr}
    (h : Finds R scope area n s e' s') (bound : List String) : e'.namesInside bound = bound := by
  cases h with
  | bound | time | fixed => rfl
  | value =>
    unfold State.reference
    split <;> rfl

/-- A chain of comprehensions binds the same names after its analysis. -/
theorem Derives.namesInside_eq {outer scope : Scope} {e e' : Expr} {s s' : State} :
    Derives R outer scope e s e' s' → ∀ bound, e'.namesInside bound = e.namesInside bound
  | .listMap _ _ hbody _, _ => hbody.namesInside_eq _
  | .name hfinds, bound => hfinds.namesInside_eq bound
  | .operands _ _ hverdict, bound => by
    have hop := (settle?_eq_some_iff.1 hverdict).ne_listMap
    rw [namesInside_expr hop, namesInside_of_ne hop]
  | .member _ _ _, bound => namesInside_expr (by simp) _ bound
  | .builtinCall _ _ _ _, bound => namesInside_expr (by simp) _ bound
  | .literal, _ | .timeStep, _ | .variant _ _, _ | .builtIn _, _ | .listFilter _ _ _ _, _
  | .call _ _ _ _ _ _ _, _ | .actionCall _ _ _ _ _, _ | .update _ _ _ _ _ _, _
  | .withBinding _ _, _ => rfl

theorem DerivesBindings.namesWithBindings_eq {scope : Scope} {chain : Bool} {e e' : Expr}
    {s s' : State} : DerivesBindings R scope chain e s e' s' →
      ∀ bound, e'.namesWithBindings bound = e.namesWithBindings bound
  | .both hleft hright, bound => by
    simp only [Expr.namesWithBindings]
    rw [hleft.namesWithBindings_eq, hright.namesWithBindings_eq]
  | .assignment _, _ => rfl

variable {outer scope : Scope} {e e' : Expr} {s s' : State}

theorem Derives.binds_inside (h : Derives R outer scope e s e' s') {inner : Scope}
    (hinner : inner.Binds bound) : (scopeInside inner e').Binds (e.namesInside bound) := by
  rw [← h.namesInside_eq]
  exact hinner.inside e'

theorem DerivesBindings.binds_withBindings {chain : Bool}
    (h : DerivesBindings R scope chain e s e' s') (hscope : scope.Binds bound) :
    (scopeWithBindings scope e').Binds (e.namesWithBindings bound) := by
  rw [← h.namesWithBindings_eq]
  exact hscope.withBindings e'

end Diagram.Typing
