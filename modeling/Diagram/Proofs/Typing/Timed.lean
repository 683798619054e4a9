import Diagram.Proofs.Typing.Declared

/-!
# The time step

Whether a place sees the time step is said by its scope, and every scope inside passes it on.  The
body of a definition has a scope of its own, so it does not matter from where its analysis is
asked for.

* `Derives.typed` — what is derived where the time step is not seen does not have it.
* `Derives.not_mem_lookups` — where it is seen, no name that is looked up and not bound is left
  that is written like it.
* `Program.timeStep_only_in_tick` — the whole analysis.
-/

namespace Diagram

open List Expr

namespace Expr

mutual

/-- The names that are looked up in an expression and are not bound where they stand.  Neither
what is bound nor a member, a builtin, the target of an update or a called action is looked up.
The sources of a chain of comprehensions stand outside of it, where the names `outer` are bound. -/
def lookups (outer bound : List String) : Expr → List String
  | .literal _ _ | .timeStep _ => []
  | .name _ n => if n ∈ bound then [] else [n]
  | .operator _ op operands =>
    match op with
    | .listMap =>
      match operands with
      | [body, x, source] =>
        source.lookups outer outer ++ body.lookups outer (x.name?.toList ++ bound)
      | es => lookupsOf bound es
    | .listFilter =>
      match operands with
      | [list, condition] =>
        list.lookups bound bound ++
          condition.lookups (list.namesInside bound) (list.namesInside bound)
      | es => lookupsOf bound es
    | .memberAccess =>
      match operands with
      | [subject, _] => subject.lookups bound bound
      | es => lookupsOf bound es
    | .builtIn => []
    | .update =>
      match operands with
      | [_, value] => value.lookups bound bound
      | es => lookupsOf bound es
    | .actionCall =>
      match operands with
      | _ :: args => lookupsOf bound args
      | [] => []
    | .withBinding =>
      match operands with
      | [body, bindings] =>
        bindings.bindingLookups bound ++
          body.lookups (bindings.namesWithBindings bound) (bindings.namesWithBindings bound)
      | es => lookupsOf bound es
    | _ => lookupsOf bound operands

def lookupsOf (bound : List String) : List Expr → List String
  | [] => []
  | e :: es => e.lookups bound bound ++ lookupsOf bound es

def bindingLookups (bound : List String) : Expr → List String
  | .operator _ .withBinding [left, right] =>
    left.bindingLookups bound ++ right.bindingLookups bound
  | .operator _ .assignment [_, value] => value.lookups bound bound
  | .operator _ _ operands => lookupsOf bound operands
  | .name _ n => if n ∈ bound then [] else [n]
  | _ => []

end

end Expr

mutual

def Action.lookups : Action → List String
  | .hole => []
  | .block actions => Action.lookupsOf actions
  | .update _ value => value.lookups [] []
  | .call _ args => Expr.lookupsOf [] args
  | .conditional branches default => Action.branchLookups branches ++ default.lookups

def Action.lookupsOf : List Action → List String
  | [] => []
  | a :: as => a.lookups ++ Action.lookupsOf as

def Action.branchLookups : List (Expr × Action) → List String
  | [] => []
  | (condition, a) :: rest => condition.lookups [] [] ++ a.lookups ++ Action.branchLookups rest

end

namespace Typing

variable {operands : List Expr} {op : Operation} {v : Verdict} {n : String}

theorem Settles.lookups_eq (h : Settles op operands v) (info : Info) (operands' : List Expr)
    (outer bound : List String) :
    (operator info op operands').lookups outer bound = lookupsOf bound operands' := by
  have hop := h.isSettled
  cases op <;> first | rfl | cases hop

theorem Verdict.not_mem_lookups_expr {area : Area} {outer bound : List String}
    (h : n ∉ (operator ⟨v.ty, area⟩ op operands).lookups outer bound) :
    n ∉ (v.expr area op operands).lookups outer bound := by
  unfold Verdict.expr
  split
  · exact not_mem_nil
  · exact h

theorem not_mem_append {xs ys : List String} (hx : n ∉ xs) (hy : n ∉ ys) : n ∉ xs ++ ys :=
  fun h => (mem_append.1 h).elim hx hy

section Names

variable {R : Resolution}

theorem Finds.not_mem_lookups {scope : Scope} {bound : List String} (hbinds : scope.Binds bound)
    (htime : scope.allowTime) {area : Area} {n : String} {s s' : State} {e' : Expr}
    (h : Finds R scope area n s e' s') (outer : List String) :
    timeStepName ∉ e'.lookups outer bound := by
  have hname : ∀ info, scope.Free n → timeStepName ∉ (name info n).lookups outer bound := by
    intro info hfree hmem
    rw [lookups] at hmem
    split at hmem
    · cases hmem
    · exact hfree.2 ⟨htime, (mem_singleton.1 hmem).symm⟩
  cases h with
  | bound hbound =>
    have hn : n ∈ bound := (hbinds n).2 (by simp [hbound])
    rw [lookups, if_pos hn]
    exact not_mem_nil
  | time => exact not_mem_nil
  | fixed hfree => exact hname _ hfree
  | value hfree =>
    unfold State.reference
    split
    · exact not_mem_nil
    · exact hname _ hfree

mutual

/-- Where the time step is seen, no free name is left that is written like it. -/
theorem Derives.not_mem_lookups {outer scope : Scope} {ob b} (houter : outer.Binds ob)
    (hscope : scope.Binds b) {e e' s s'} :
    Derives R outer scope e s e' s' → outer.allowTime → scope.allowTime →
      timeStepName ∉ e'.lookups ob b
  | .literal, _, _ | .variant _ _, _, _ | .timeStep, _, _ => not_mem_nil
  | .name hfinds, _, htime => hfinds.not_mem_lookups hscope htime ob
  | .listMap hsource _ hbody _, houterTime, htime =>
    not_mem_append (hsource.not_mem_lookups houter houter houterTime houterTime)
      (hbody.not_mem_lookups houter (hscope.bind _ _) houterTime htime)
  | .listFilter hlist _ hcondition _, _, htime => by
    have hinside := fun e => (allowTime_scopeInside scope e).trans htime
    exact not_mem_append (hlist.not_mem_lookups hscope hscope htime htime)
      (hcondition.not_mem_lookups (hscope.inside _) (hscope.inside _) (hinside _) (hinside _))
  | .member _ hsubject _, _, htime =>
    Verdict.not_mem_lookups_expr (hsubject.not_mem_lookups hscope hscope htime htime)
  | .builtIn _, _, _ => not_mem_nil
  | .builtinCall _ _ hargs _, _, htime =>
    Verdict.not_mem_lookups_expr (not_mem_append not_mem_nil (hargs.not_mem_lookups hscope htime))
  | .call _ hcallee _ _ hargs _ _, _, htime =>
    not_mem_append (hcallee.not_mem_lookups hscope hscope htime htime)
      (hargs.not_mem_lookups hscope htime)
  | .actionCall _ _ _ hargs _, _, htime => hargs.not_mem_lookups hscope htime
  | .operands _ hoperands hverdict, _, htime => by
    refine Verdict.not_mem_lookups_expr ?_
    rw [(settle?_eq_some_iff.1 hverdict).lookups_eq]
    exact hoperands.not_mem_lookups hscope htime
  | .update _ _ _ _ hvalue _, _, htime => hvalue.not_mem_lookups hscope hscope htime htime
  | .withBinding hbindings hbody, _, htime => by
    have hinner := fun e => (allowTime_scopeWithBindings scope e).trans htime
    exact not_mem_append (hbindings.not_mem_lookups hscope htime)
      (hbody.not_mem_lookups (hscope.withBindings _) (hscope.withBindings _) (hinner _) (hinner _))

theorem DerivesAll.not_mem_lookups {scope : Scope} {b} (hscope : scope.Binds b) {es es' s s'} :
    DerivesAll R scope es s es' s' → scope.allowTime → timeStepName ∉ lookupsOf b es'
  | .nil, _ => not_mem_nil
  | .cons hhead htail, htime =>
    not_mem_append (hhead.not_mem_lookups hscope hscope htime htime)
      (htail.not_mem_lookups hscope htime)

theorem DerivesBindings.not_mem_lookups {scope : Scope} {b} (hscope : scope.Binds b) {chain e e' s s'} :
    DerivesBindings R scope chain e s e' s' → scope.allowTime → timeStepName ∉ e'.bindingLookups b
  | .both hleft hright, htime =>
    not_mem_append (hleft.not_mem_lookups hscope htime) (hright.not_mem_lookups hscope htime)
  | .assignment hvalue, htime => hvalue.not_mem_lookups hscope hscope htime htime

end

end Names

section Parts

variable {D : Expr → Expr → Prop}

mutual

theorem not_mem_lookups_of_lift {n : String} (hD : ∀ ⦃e e'⦄, D e e' → n ∉ e'.lookups [] []) {a a' : Action} :
    a.Lift D a' → n ∉ a'.lookups
  | .block has => not_mem_lookups_of_liftAll hD has
  | .update h => by
    have hvalue := hD h
    exact hvalue
  | .call h => by
    have hargs := hD h
    exact hargs
  | .conditional harms => not_mem_append (not_mem_lookups_of_liftArms hD harms) not_mem_nil
  | .conditionalElse harms hd =>
    not_mem_append (not_mem_lookups_of_liftArms hD harms) (not_mem_lookups_of_lift hD hd)

theorem not_mem_lookups_of_liftAll {n : String} (hD : ∀ ⦃e e'⦄, D e e' → n ∉ e'.lookups [] [])
    {as as'} : Action.LiftAll D as as' → n ∉ Action.lookupsOf as'
  | .nil => not_mem_nil
  | .cons ha has => not_mem_append (not_mem_lookups_of_lift hD ha) (not_mem_lookups_of_liftAll hD has)

theorem not_mem_lookups_of_liftArms {n : String} (hD : ∀ ⦃e e'⦄, D e e' → n ∉ e'.lookups [] [])
    {arms arms'} : Action.LiftArms D arms arms' → n ∉ Action.branchLookups arms'
  | .nil => not_mem_nil
  | .cons hc _ ha hrest =>
    not_mem_append (not_mem_append (hD hc) (not_mem_lookups_of_lift hD ha))
      (not_mem_lookups_of_liftArms hD hrest)

end

end Parts

end Typing

namespace Program

variable {tokens : List Token} {p q : Program}

/-- An analyzed program has the time step in the action of its ticker only, and no name that is
looked up there and not bound is left that is written like it. -/
theorem timeStep_only_in_tick (hparse : Program.parse tokens = .ok p)
    (h : p.analyze.outcome = .ok q) :
    (∀ e ∈ q.withoutTick.allNodes, e.isTimeStep = false) ∧
      ∀ t, q.ticker = some t → Expr.timeStepName ∉ t.action.lookups := by
  obtain ⟨hnodes, -⟩ := allows_of_analyze (L := ⟨False, fun _ => True, fun _ => True⟩) hparse
    (fun _ _ => trivial) h
  refine ⟨fun e he => Bool.eq_false_iff.2 (hnodes e he).time, fun t' ht' => ?_⟩
  -- Only the action of the ticker is analyzed where the time step is seen.
  obtain ⟨-, -, -, -, hlift⟩ := Typing.exists_completed h
  obtain ⟨t, -, -, haction⟩ := exists_of_optionRel hlift.ticker ht'
  refine Typing.not_mem_lookups_of_lift ?_ haction
  have hbinds : Scope.ticking.Binds [] := Scope.binds_top
  rintro e e' ⟨_, _, _, _, hderives⟩
  exact hderives.not_mem_lookups hbinds hbinds rfl rfl

/-- A definition, a parameter and a binding have the name of the time step; the ticker has two time
steps, and the one name that is left is bound. -/
theorem timeStep_only_in_tick_shadowed :
    let tokens := Token.ofText "var t: real = 0; let dt = 5; let later(x: real) = x + dt;
      action f(dt: real) \x7b t := dt \x7d
      ticker (1 / 60) \x7b action f(later(dt)), t := dt + (dt with dt = t) \x7d"
    ∃ p q t, Program.parse tokens = .ok p ∧ p.analyze.outcome = .ok q ∧ q.ticker = some t ∧
      q.allNodes.countP isTimeStep = 2 ∧
      t.action.nodes.filterMap name? = ["f", "later", "t", "dt", "dt", "t"] ∧
      (∀ e ∈ q.withoutTick.allNodes, e.isTimeStep = false) ∧
      timeStepName ∉ t.action.lookups := by
  intro tokens
  obtain ⟨p, hp, q, hq, t, ht, hsteps, hnames⟩ : ∃ p, Program.parse tokens = .ok p ∧
      ∃ q, p.analyze.outcome = .ok q ∧ ∃ t, q.ticker = some t ∧
        q.allNodes.countP isTimeStep = 2 ∧
        t.action.nodes.filterMap name? = ["f", "later", "t", "dt", "dt", "t"] := by
    decide +kernel
  obtain ⟨houtside, hinside⟩ := timeStep_only_in_tick hp hq
  exact ⟨p, q, t, hp, hq, ht, hsteps, hnames, houtside, hinside t ht⟩

end Program

end Diagram
