import Diagram.Proofs.NameMap
import Diagram.Typing.Check

/-!
# References of a program

The names that the expressions of a program refer to at the top level.  The variable of a
comprehension, the left side of a binding, the name of a member or of a builtin and the target of
an update are no references, and neither is a name that is bound where it stands.

Main statements: `Scope.Binds.inside`, `Scope.Binds.withBindings`.
-/

namespace Diagram

namespace Expr

/-- The names that are bound inside a chain of comprehensions, where some are bound around it. -/
def namesInside (bound : List String) : Expr → List String
  | .operator _ .listMap [body, x, _] =>
    match x.name? with
    | some n => namesInside (n :: bound) body
    | none => bound
  | _ => bound

@[elab_as_elim]
theorem chainInduction {motive : Expr → Prop}
    (map : ∀ info body x source, motive body → motive (.operator info .listMap [body, x, source]))
    (other : ∀ e, (∀ info body x source, e ≠ .operator info .listMap [body, x, source]) → motive e)
    (e : Expr) : motive e := by
  by_cases h : ∃ info body x source, e = .operator info .listMap [body, x, source]
  · obtain ⟨info, body, x, source, rfl⟩ := h
    exact map info body x source (chainInduction map other body)
  · exact other e fun info body x source he => h ⟨info, body, x, source, he⟩

theorem namesInside_of_other {e : Expr}
    (h : ∀ info body x source, e ≠ .operator info .listMap [body, x, source])
    (bound : List String) : e.namesInside bound = bound := by
  unfold namesInside
  split
  · exact absurd rfl (h _ _ _ _)
  · rfl

theorem scopeInside_of_other {e : Expr}
    (h : ∀ info body x source, e ≠ .operator info .listMap [body, x, source]) (scope : Scope) :
    Typing.scopeInside scope e = scope := by
  unfold Typing.scopeInside
  split
  · exact absurd rfl (h _ _ _ _)
  · rfl

/-- The names that are bound in front of bindings, where some are bound around them. -/
def namesWithBindings (bound : List String) : Expr → List String
  | .operator _ .withBinding [left, right] =>
    namesWithBindings (namesWithBindings bound left) right
  | .operator _ .assignment [target, _] =>
    match target.name? with
    | some n => n :: bound
    | none => bound
  | _ => bound

mutual

/-- The references of an expression to names that are not bound.  The sources of a chain of
comprehensions stand outside of it, where the names `outer` are bound. -/
def references (outer bound : List String) : Expr → List String
  | .literal _ _ | .timeStep _ => []
  | .name _ n => if n ∈ bound then [] else [n]
  | .operator _ op operands =>
    match op with
    | .listMap =>
      match operands with
      | [body, x, source] =>
        source.references outer outer ++ body.references outer (x.name?.toList ++ bound)
      | es => referencesOf bound es
    | .listFilter =>
      match operands with
      | [list, condition] =>
        list.references bound bound ++
          condition.references (list.namesInside bound) (list.namesInside bound)
      | es => referencesOf bound es
    | .memberAccess =>
      match operands with
      | [subject, _] => subject.references bound bound
      | es => referencesOf bound es
    | .builtIn => []
    | .update =>
      match operands with
      | [_, value] => value.references bound bound
      | es => referencesOf bound es
    | .withBinding =>
      match operands with
      | [body, bindings] =>
        bindings.bindingReferences bound ++
          body.references (bindings.namesWithBindings bound) (bindings.namesWithBindings bound)
      | es => referencesOf bound es
    | _ => referencesOf bound operands

def referencesOf (bound : List String) : List Expr → List String
  | [] => []
  | e :: es => e.references bound bound ++ referencesOf bound es

def bindingReferences (bound : List String) : Expr → List String
  | .operator _ .withBinding [left, right] =>
    left.bindingReferences bound ++ right.bindingReferences bound
  | .operator _ .assignment [_, value] => value.references bound bound
  | .operator _ _ operands => referencesOf bound operands
  | .name _ n => if n ∈ bound then [] else [n]
  | _ => []

end

end Expr

mutual

def Action.references (bound : List String) : Action → List String
  | .hole => []
  | .block actions => Action.referencesOf bound actions
  | .update _ value => value.references bound bound
  | .call callee args => callee.references bound bound ++ Expr.referencesOf bound args
  | .conditional branches default =>
    Action.branchReferences bound branches ++ default.references bound

def Action.referencesOf (bound : List String) : List Action → List String
  | [] => []
  | a :: as => a.references bound ++ Action.referencesOf bound as

def Action.branchReferences (bound : List String) : List (Expr × Action) → List String
  | [] => []
  | (condition, a) :: rest =>
    condition.references bound bound ++ a.references bound ++ Action.branchReferences bound rest

end

def Element.references (e : Element) : List String :=
  Expr.referencesOf [] (e.quantities.filterMap id) ++ (e.click.map (Action.references [])).getD []

namespace Program

def paramNames (p : Program) (n : String) : List String :=
  ((p.signatures.get? n).map fun sig => sig.paramList.map (·.name)).getD []

def references (p : Program) : List String :=
  p.identifiers.entries.flatMap (fun e => e.2.references (p.paramNames e.1) (p.paramNames e.1)) ++
    p.actions.entries.flatMap (fun e => e.2.references (p.paramNames e.1)) ++
    Expr.referencesOf [] (p.entries.getD []) ++
    (p.ticker.map fun t => Expr.referencesOf [] t.interval.toList ++ t.action.references []).getD []
      ++
    (p.display.getD []).flatMap Element.references

end Program

def Scope.Binds (scope : Scope) (bound : List String) : Prop :=
  ∀ n, n ∈ bound ↔ (scope.get? n).isSome = true

namespace Scope

theorem binds_top : Scope.top.Binds [] := by
  intro n
  simp [top, get?, NameMap.empty, NameMap.get?]

variable {scope : Scope} {bound : List String}

variable (h : scope.Binds bound)

include h

theorem Binds.bind (n : String) (t : Ty) : (scope.bind n t).Binds (n :: bound) := by
  intro m
  change _ ↔ ((scope.locals.insert n t).get? m).isSome = true
  rw [NameMap.get?_insert, List.mem_cons, h m]
  by_cases hm : m = n
  · simp [hm]
  · simp [hm, get?]

theorem Binds.withParams (params : List Param) :
    (scope.withParams params).Binds (params.map (·.name) ++ bound) := by
  induction params generalizing scope bound with
  | nil => exact h
  | cons p params ih =>
    intro n
    have hrest := ih (h.bind p.name p.ty) n
    have hparams : scope.withParams (p :: params) =
        (scope.bind p.name p.ty).withParams params := rfl
    rw [hparams, ← hrest]
    simp only [List.map_cons, List.cons_append, List.mem_cons, List.mem_append]
    exact or_left_comm

theorem Binds.inside (e : Expr) : (Typing.scopeInside scope e).Binds (e.namesInside bound) := by
  induction e using Expr.chainInduction generalizing scope bound with
  | map info body x source ih =>
    cases x with
    | name i n => exact ih (h.bind n _)
    | _ => exact h
  | other e hother =>
    rw [Expr.namesInside_of_other hother, Expr.scopeInside_of_other hother]
    exact h

theorem Binds.withBindings (e : Expr) :
    (Typing.scopeWithBindings scope e).Binds (e.namesWithBindings bound) := by
  fun_induction Expr.namesWithBindings bound e generalizing scope with
  | case1 bound info left right ihleft ihright =>
    exact ihright (ihleft h)
  | case2 bound info target value n hn =>
    simp only [Typing.scopeWithBindings, hn]
    exact h.bind n _
  | case3 bound info target value hn =>
    simp only [Typing.scopeWithBindings, hn]
    exact h
  | case4 bound e hboth hassignment =>
    unfold Typing.scopeWithBindings
    split
    · exact absurd rfl (hboth _ _ _)
    · exact absurd rfl (hassignment _ _ _)
    · exact h

end Scope

end Diagram
