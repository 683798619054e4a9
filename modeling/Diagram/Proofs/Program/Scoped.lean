import Diagram.Proofs.Program.References

/-!
# Names in scope

A name of a program is bound where it stands, or it is a reference of the program.  If every name
that is not bound satisfies a predicate, then so does every reference.

Main statement: `Program.Scoped.references`.
-/

namespace Diagram

open List

def Operation.readsInPlace : Operation → Bool
  | .listMap | .listFilter | .memberAccess | .builtIn | .actionCall | .withBinding
  | .assignment => false
  | _ => true

mutual

/-- Every name of an expression is bound or satisfies `D`.  The sources of a chain of
comprehensions stand outside of it, where the names `outer` are bound. -/
inductive Expr.Scoped (D : String → Prop) : List String → List String → Expr → Prop
  | literal {outer bound info v} : Expr.Scoped D outer bound (.literal info v)
  | name {outer bound info n} (h : n ∈ bound ∨ D n) : Expr.Scoped D outer bound (.name info n)
  | timeStep {outer bound info} : Expr.Scoped D outer bound (.timeStep info)
  | listMap {outer bound info body boundInfo n source}
      (hsource : Expr.Scoped D outer outer source) (hbody : Expr.Scoped D outer (n :: bound) body) :
      Expr.Scoped D outer bound (.operator info .listMap [body, .name boundInfo n, source])
  | listFilter {outer bound info list condition} (hlist : Expr.Scoped D bound bound list)
      (hcondition : Expr.Scoped D (list.namesInside bound) (list.namesInside bound) condition) :
      Expr.Scoped D outer bound (.operator info .listFilter [list, condition])
  | memberAccess {outer bound info subject member} (hsubject : Expr.Scoped D bound bound subject) :
      Expr.Scoped D outer bound (.operator info .memberAccess [subject, member])
  | builtIn {outer bound info operands} :
      Expr.Scoped D outer bound (.operator info .builtIn operands)
  | actionCall {outer bound info calleeInfo n args} (h : n ∈ bound ∨ D n)
      (hargs : ∀ e ∈ args, Expr.Scoped D bound bound e) :
      Expr.Scoped D outer bound (.operator info .actionCall (.name calleeInfo n :: args))
  | withBinding {outer bound info body bindings} (hbindings : Expr.BindsScoped D bound bindings)
      (hbody : Expr.Scoped D (bindings.namesWithBindings bound)
        (bindings.namesWithBindings bound) body) :
      Expr.Scoped D outer bound (.operator info .withBinding [body, bindings])
  | inPlace {outer bound info op operands} (hop : op.readsInPlace = true)
      (hoperands : ∀ e ∈ operands, Expr.Scoped D bound bound e) :
      Expr.Scoped D outer bound (.operator info op operands)

/-- Every name in the values of bindings is bound or satisfies `D`. -/
inductive Expr.BindsScoped (D : String → Prop) : List String → Expr → Prop
  | both {bound info left right} (hleft : Expr.BindsScoped D bound left)
      (hright : Expr.BindsScoped D bound right) :
      Expr.BindsScoped D bound (.operator info .withBinding [left, right])
  | assignment {bound info targetInfo n value} (hvalue : Expr.Scoped D bound bound value) :
      Expr.BindsScoped D bound (.operator info .assignment [.name targetInfo n, value])

end

/-- Every name of an action is bound or satisfies `D`. -/
inductive Action.Scoped (D : String → Prop) (bound : List String) : Action → Prop
  | block {actions} (hactions : ∀ a ∈ actions, Action.Scoped D bound a) :
      Action.Scoped D bound (.block actions)
  | update {target value} (htarget : target.Scoped D bound bound)
      (hvalue : value.Scoped D bound bound) : Action.Scoped D bound (.update target value)
  | call {info n args} (h : n ∈ bound ∨ D n) (hargs : ∀ e ∈ args, e.Scoped D bound bound) :
      Action.Scoped D bound (.call (.name info n) args)
  | conditional {arms} (hconditions : ∀ arm ∈ arms, arm.1.Scoped D bound bound)
      (hbodies : ∀ arm ∈ arms, Action.Scoped D bound arm.2) :
      Action.Scoped D bound (.conditional arms .hole)
  | conditionalElse {arms default} (hconditions : ∀ arm ∈ arms, arm.1.Scoped D bound bound)
      (hbodies : ∀ arm ∈ arms, Action.Scoped D bound arm.2)
      (hdefault : Action.Scoped D bound default) : Action.Scoped D bound (.conditional arms default)

theorem Expr.scoped_of_inPlace {D : String → Prop} {info : Info} {op : Operation}
    {operands : List Expr} {outer bound : List String} (hop : op.readsInPlace)
    (h : (Expr.operator info op operands).Scoped D outer bound) :
    ∀ e ∈ operands, e.Scoped D bound bound := by
  cases h with
  | inPlace _ hoperands => exact hoperands
  | _ => cases hop

/-- Every name of a program is bound where it stands or satisfies `D`. -/
structure Program.Scoped (D : String → Prop) (q : Program) : Prop where
  identifiers : ∀ n e, q.identifiers.get? n = some e → e.Scoped D (q.paramNames n) (q.paramNames n)
  actions : ∀ n a, q.actions.get? n = some a → a.Scoped D (q.paramNames n)
  entries : ∀ es, q.entries = some es → ∀ e ∈ es, e.Scoped D [] []
  interval : ∀ t e, q.ticker = some t → t.interval = some e → e.Scoped D [] []
  tick : ∀ t, q.ticker = some t → t.action.Scoped D []
  quantities : ∀ es, q.display = some es → ∀ e ∈ es, ∀ x ∈ e.quantities.filterMap id,
    x.Scoped D [] []
  click : ∀ es, q.display = some es → ∀ e ∈ es, ∀ a, e.click = some a → a.Scoped D []

section References

variable {D : String → Prop} {bound : List String}

theorem Expr.forall_referencesOf {es : List Expr}
    (h : ∀ e ∈ es, ∀ n ∈ e.references bound bound, D n) : ∀ n ∈ referencesOf bound es, D n := by
  induction es with
  | nil => nofun
  | cons e es ih =>
    obtain ⟨he, hes⟩ := forall_mem_cons.1 h
    exact forall_mem_append.2 ⟨he, ih hes⟩

theorem Action.forall_referencesOf {as : List Action}
    (h : ∀ a ∈ as, ∀ n ∈ a.references bound, D n) : ∀ n ∈ referencesOf bound as, D n := by
  induction as with
  | nil => nofun
  | cons a as ih =>
    obtain ⟨ha, has⟩ := forall_mem_cons.1 h
    exact forall_mem_append.2 ⟨ha, ih has⟩

theorem Expr.references_subset_of_inPlace {info : Info} {op : Operation}
    (hop : op.readsInPlace) (operands : List Expr) (outer : List String) :
    (Expr.operator info op operands).references outer bound ⊆ referencesOf bound operands := by
  cases op with
  | update =>
    rcases operands with _ | ⟨target, _ | ⟨value, _ | ⟨_, _⟩⟩⟩
    case cons.cons.nil => simp [references, referencesOf]
    all_goals exact List.Subset.refl _
  | _ => first | exact List.Subset.refl _ | cases hop

mutual

theorem Expr.Scoped.references {e : Expr} {outer bound : List String} :
    e.Scoped D outer bound → ∀ n ∈ e.references outer bound, D n
  | .literal | .timeStep | .builtIn => nofun
  | .name h => by
    unfold Expr.references
    split
    · nofun
    · simpa using h.resolve_left ‹_›
  | .listMap hsource hbody => forall_mem_append.2 ⟨hsource.references, hbody.references⟩
  | .listFilter hlist hcondition =>
    forall_mem_append.2 ⟨hlist.references, hcondition.references⟩
  | .memberAccess hsubject => hsubject.references
  | .actionCall h hargs => by
    refine forall_mem_append.2 ⟨?_, forall_referencesOf fun e he => (hargs e he).references⟩
    exact (Expr.Scoped.name h).references
  | .withBinding hbindings hbody =>
    forall_mem_append.2 ⟨hbindings.references, hbody.references⟩
  | .inPlace hop hoperands => fun n hn =>
    forall_referencesOf (fun e he => (hoperands e he).references) n
      (references_subset_of_inPlace hop _ _ hn)

theorem Expr.BindsScoped.references {e : Expr} {bound : List String} :
    e.BindsScoped D bound → ∀ n ∈ e.bindingReferences bound, D n
  | .both hleft hright => forall_mem_append.2 ⟨hleft.references, hright.references⟩
  | .assignment hvalue => hvalue.references

end

theorem Action.Scoped.references {a : Action} (h : a.Scoped D bound) :
    ∀ n ∈ a.references bound, D n := by
  have harms : ∀ {arms : List (Expr × Action)}, (∀ arm ∈ arms, arm.1.Scoped D bound bound) →
      (∀ arm ∈ arms, ∀ n ∈ arm.2.references bound, D n) →
      ∀ n ∈ Action.branchReferences bound arms, D n := by
    intro arms hconditions hbodies
    induction arms with
    | nil => nofun
    | cons arm arms ih =>
      obtain ⟨hcondition, hconditions⟩ := forall_mem_cons.1 hconditions
      obtain ⟨hbody, hbodies⟩ := forall_mem_cons.1 hbodies
      exact forall_mem_append.2
        ⟨forall_mem_append.2 ⟨hcondition.references, hbody⟩, ih hconditions hbodies⟩
  induction h with
  | block _ ih => exact Action.forall_referencesOf ih
  | update _ hvalue => exact hvalue.references
  | call h hargs =>
    exact forall_mem_append.2 ⟨(Expr.Scoped.name h).references,
      Expr.forall_referencesOf fun e he => (hargs e he).references⟩
  | conditional hconditions _ ih =>
    exact forall_mem_append.2 ⟨harms hconditions ih, nofun⟩
  | conditionalElse hconditions _ _ ih ihdefault =>
    exact forall_mem_append.2 ⟨harms hconditions ih, ihdefault⟩

theorem Program.Scoped.references {q : Program} (h : q.Scoped D) : ∀ n ∈ q.references, D n := by
  refine forall_mem_append.2 ⟨forall_mem_append.2 ⟨forall_mem_append.2
    ⟨forall_mem_append.2 ⟨?_, ?_⟩, ?_⟩, ?_⟩, ?_⟩
  · intro m hm
    obtain ⟨⟨n, e⟩, hmem, hm⟩ := mem_flatMap.1 hm
    exact (h.identifiers n e (NameMap.get?_eq_some_iff.2 hmem)).references m hm
  · intro m hm
    obtain ⟨⟨n, a⟩, hmem, hm⟩ := mem_flatMap.1 hm
    exact (h.actions n a (NameMap.get?_eq_some_iff.2 hmem)).references m hm
  · cases hes : q.entries with
    | none => nofun
    | some es => exact Expr.forall_referencesOf fun e he => (h.entries es hes e he).references
  · cases ht : q.ticker with
    | none => nofun
    | some t =>
      refine forall_mem_append.2 ⟨Expr.forall_referencesOf fun e he => ?_, (h.tick t ht).references⟩
      exact (h.interval t e ht (Option.mem_toList.1 he)).references
  · cases hes : q.display with
    | none => nofun
    | some es =>
      intro m hm
      obtain ⟨e, he, hm⟩ := mem_flatMap.1 hm
      refine forall_mem_append.2 ⟨?_, ?_⟩ m hm
      · exact Expr.forall_referencesOf fun x hx => (h.quantities es hes e he x hx).references
      · cases ha : e.click with
        | none => nofun
        | some a => exact (h.click es hes e he a ha).references

end References

end Diagram
