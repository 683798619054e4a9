import Diagram.Proofs.Typing.Named
import Diagram.Proofs.Typing.Respelled
import Mathlib.Logic.Equiv.Defs

/-!
# Alike expressions

Two expressions are alike if they differ in the spelling of top-level names only, by a
permutation of the names under which no name is captured.  The top-level names that matter for
their types satisfy a property `D`.

Main statements: `Alike.symm`, `matches_expr`.
-/

namespace Diagram

open Value

/-- A change of names that can be undone. -/
structure Respelling where
  name : Equiv.Perm String
  type : Equiv.Perm String
  enum : String → Bool

namespace Respelling

/-- The new names of a change of names. -/
def toRenaming (c : Respelling) : Renaming :=
  ⟨c.name, c.type, c.enum⟩

instance : Coe Respelling Renaming :=
  ⟨toRenaming⟩

def symm (c : Respelling) : Respelling :=
  ⟨c.name.symm, c.type.symm, fun n => c.enum (c.name.symm n)⟩

theorem injective (c : Respelling) : c.toRenaming.Injective :=
  ⟨c.name.injective, c.type.injective⟩

theorem symm_symm (c : Respelling) : c.symm.symm = c := by
  simp [symm]

/-- What a name corresponds to where some names are bound and the time step is seen or not: to
itself if it is bound or the time step, and to its new name otherwise, which must not be taken. -/
def Sees (c : Respelling) (time : Bool) (bound : List String) (n n' : String) : Prop :=
  n' = n ∧ (n ∈ bound ∨ time = true ∧ n = Expr.timeStepName) ∨
    n' = c.name n ∧ ∀ m ∈ [n, n'], m ∉ bound ∧ ¬(time = true ∧ m = Expr.timeStepName)

theorem Sees.symm {c : Respelling} {time : Bool} {bound : List String} {n n' : String}
    (h : c.Sees time bound n n') : c.symm.Sees time bound n' n := by
  rcases h with ⟨rfl, h⟩ | ⟨rfl, h⟩
  · exact .inl ⟨rfl, h⟩
  · refine .inr ⟨(c.name.symm_apply_apply n).symm, fun m hm => h m ?_⟩
    simpa [or_comm] using hm

/-- The subject of a member access is an enumeration only if that is seen where it stands. -/
def Timely (c : Respelling) (time : Bool) (bound : List String) (subject : Expr) : Prop :=
  time = true → Expr.timeStepName ∉ bound → subject.name? = some Expr.timeStepName →
    c.enum Expr.timeStepName = false

end Respelling

theorem Ty.rename_symm (c : Respelling) (t : Ty) : (t.rename c).rename c.symm = t := by
  induction t with
  | list t ih => exact congrArg Ty.list ih
  | function n => exact congrArg Ty.function (c.name.symm_apply_apply n)
  | action n => exact congrArg Ty.action (c.name.symm_apply_apply n)
  | user n => exact congrArg Ty.user (c.type.symm_apply_apply n)
  | _ => rfl

mutual

theorem Value.rename_symm (c : Respelling) : (v : Value) →
    (v.rename c).rename c.symm = v
  | .list item items => by
    simp only [rename, Ty.rename_symm, renameAll_symm c items]
  | .enum n variant ordinal =>
    congrArg (enum · variant ordinal) (c.type.symm_apply_apply n)
  | .real _ | .int _ | .bool _ | .point _ | .ipoint _ _ | .color _ _ _ _ | .polygon _
  | .segment _ _ | .str _ => rfl

theorem Value.renameAll_symm (c : Respelling) : (vs : List Value) →
    renameAll c.symm (renameAll c vs) = vs
  | [] => rfl
  | v :: vs => by simp only [renameAll, rename_symm c v, renameAll_symm c vs]

end

/-- Whether all operands of an operation stand in the scope around it. -/
def Operation.isUniform : Operation → Bool
  | .listMap | .listFilter | .memberAccess | .builtIn | .actionCall | .update | .withBinding =>
    false
  | _ => true

namespace Typing

abbrev Any (_ : String) : Prop := True

/-- Whether inference refuses an expression wherever it stands. -/
def Stuck (e : Expr) : Prop :=
  ∀ R outer scope s e' s', ¬Derives R outer scope e s e' s'

mutual

/-- The relation of expressions that differ in top-level names only.  The sources of a chain of
comprehensions stand outside of it, as they do for inference. -/
inductive Alike (c : Respelling) (D : String → Prop) (time : Bool) :
    List String → List String → Expr → Expr → Prop
  | literal {ob b i i' v v'} (hv : v' = v.rename c) (hwithin : v.ty.Within D) :
      Alike c D time ob b (.literal i v) (.literal i' v')
  | name {ob b i i' n n'} (hn : c.Sees time b n n') (hfree : n ∉ b → D n) :
      Alike c D time ob b (.name i n) (.name i' n')
  | timeStep {ob b i i'} : Alike c D time ob b (.timeStep i) (.timeStep i')
  | listMap {ob b i i' body body' j j' x source source'}
      (hsource : Alike c D time ob ob source source') (hbody : Alike c D time ob (x :: b) body body') :
      Alike c D time ob b (.operator i .listMap [body, .name j x, source])
        (.operator i' .listMap [body', .name j' x, source'])
  | listFilter {ob b i i' list list' condition condition'} (hlist : Alike c D time b b list list')
      (hnames : list'.namesInside b = list.namesInside b)
      (hcondition : Alike c D time (list.namesInside b) (list.namesInside b) condition condition') :
      Alike c D time ob b (.operator i .listFilter [list, condition])
        (.operator i' .listFilter [list', condition'])
  | variant {ob b i i' j j' n n' k k' m} (hn : n' = c.name n) (hfree : n ∉ b ∧ n' ∉ b)
      (henum : c.enum n = true) :
      Alike c D time ob b (.operator i .memberAccess [.name j n, .name k m])
        (.operator i' .memberAccess [.name j' n', .name k' m])
  | member {ob b i i' subject subject' k k' m} (hsubject : Alike c D time b b subject subject')
      (htime : c.Timely time b subject) (htime' : c.symm.Timely time b subject') :
      Alike c D time ob b (.operator i .memberAccess [subject, .name k m])
        (.operator i' .memberAccess [subject', .name k' m])
  | builtIn {ob b i i' j j' n} :
      Alike c D time ob b (.operator i .builtIn [.name j n]) (.operator i' .builtIn [.name j' n])
  | actionCall {ob b i i' j j' n n' args args'} (hn : c.Sees false b n n')
      (hargs : AlikeAll c D time b args args') :
      Alike c D time ob b (.operator i .actionCall (.name j n :: args))
        (.operator i' .actionCall (.name j' n' :: args'))
  | update {ob b i i' j j' n n' value value'} (hn : c.Sees false b n n') (hfree : n ∉ b → D n)
      (hvalue : Alike c D time b b value value') :
      Alike c D time ob b (.operator i .update [.name j n, value])
        (.operator i' .update [.name j' n', value'])
  | withBinding {ob b i i' body body' bindings bindings'}
      (hbindings : AlikeBindings c D time b bindings bindings')
      (hnames : bindings'.namesWithBindings b = bindings.namesWithBindings b)
      (hbody : Alike c D time (bindings.namesWithBindings b) (bindings.namesWithBindings b) body
        body') :
      Alike c D time ob b (.operator i .withBinding [body, bindings])
        (.operator i' .withBinding [body', bindings'])
  | operator {ob b i i' op operands operands'} (hop : op.isUniform = true)
      (hoperands : AlikeAll c D time b operands operands') :
      Alike c D time ob b (.operator i op operands) (.operator i' op operands')
  | stuck {ob b e e'} (h : Stuck e) (h' : Stuck e') : Alike c D time ob b e e'

/-- The relation of lists of expressions that differ in top-level names only. -/
inductive AlikeAll (c : Respelling) (D : String → Prop) (time : Bool) :
    List String → List Expr → List Expr → Prop
  | nil {b} : AlikeAll c D time b [] []
  | cons {b e es e' es'} (hhead : Alike c D time b b e e') (htail : AlikeAll c D time b es es') :
      AlikeAll c D time b (e :: es) (e' :: es')

/-- The relation of bindings that differ in top-level names only. -/
inductive AlikeBindings (c : Respelling) (D : String → Prop) (time : Bool) :
    List String → Expr → Expr → Prop
  | both {b i i' left left' right right'} (hleft : AlikeBindings c D time b left left')
      (hright : AlikeBindings c D time b right right') :
      AlikeBindings c D time b (.operator i .withBinding [left, right])
        (.operator i' .withBinding [left', right'])
  | assignment {b i i' j j' n value value'} (hvalue : Alike c D time b b value value') :
      AlikeBindings c D time b (.operator i .assignment [.name j n, value])
        (.operator i' .assignment [.name j' n, value'])
  | stuck {b e e'} (h : ∀ R scope chain s e₁ s₁, ¬DerivesBindings R scope chain e s e₁ s₁)
      (h' : ∀ R scope chain s e₁ s₁, ¬DerivesBindings R scope chain e' s e₁ s₁) :
      AlikeBindings c D time b e e'

end

section Symmetry

variable {c : Respelling} {D : String → Prop} {time : Bool}

theorem within_rename_symm {t : Ty} (h : t.Within D) :
    (t.rename c).Within fun n => D (c.name.symm n) := by
  induction t with
  | list t ih => exact ih h
  | function n =>
    refine Ty.within_function_iff.2 ?_
    change D (c.name.symm (c.name n))
    rw [c.name.symm_apply_apply]
    exact Ty.within_function_iff.1 h
  | action n => exact Ty.within_action _ _
  | user n => exact Ty.within_user _ _
  | _ => trivial

theorem within_of_sees {b : List String} {n n' : String} (h : c.Sees time b n n')
    (hD : time → ∀ m, D m) (hn : n ∉ b → D n) (hn' : n' ∉ b) : D (c.name.symm n') := by
  rcases h with ⟨rfl, hmem | htime⟩ | ⟨rfl, hfree⟩
  · exact absurd hmem hn'
  · exact hD htime.1 _
  · rw [c.name.symm_apply_apply]
    exact hn (hfree n (by simp)).1

mutual

theorem Alike.symm (hD : time → ∀ m, D m) {ob b e e'} :
    Alike c D time ob b e e' → Alike c.symm (fun n => D (c.name.symm n)) time ob b e' e
  | .literal hv hwithin => by
    refine .literal (by rw [hv, rename_symm]) ?_
    rw [hv, ty_rename]
    exact within_rename_symm hwithin
  | .name hn hfree => .name hn.symm (within_of_sees hn hD hfree)
  | .timeStep => .timeStep
  | .listMap hsource hbody => .listMap (hsource.symm hD) (hbody.symm hD)
  | .listFilter hlist hnames hcondition =>
    .listFilter (hlist.symm hD) hnames.symm (hnames ▸ hcondition.symm hD)
  | .variant hn hfree henum =>
    .variant (by rw [hn]; exact (c.name.symm_apply_apply _).symm) hfree.symm (by
      rw [hn]
      change c.enum (c.name.symm (c.name _)) = true
      rw [c.name.symm_apply_apply]
      exact henum)
  | .member hsubject htime htime' =>
    .member (hsubject.symm hD) htime' (by rw [c.symm_symm]; exact htime)
  | .builtIn => .builtIn
  | .actionCall hn hargs => .actionCall hn.symm (hargs.symm hD)
  | .update hn hfree hvalue =>
    .update hn.symm (within_of_sees hn nofun hfree) (hvalue.symm hD)
  | .withBinding hbindings hnames hbody =>
    .withBinding (hbindings.symm hD) hnames.symm (hnames ▸ hbody.symm hD)
  | .operator hop hoperands => .operator hop (hoperands.symm hD)
  | .stuck h h' => .stuck h' h

theorem AlikeAll.symm (hD : time → ∀ m, D m) {b es es'} :
    AlikeAll c D time b es es' → AlikeAll c.symm (fun n => D (c.name.symm n)) time b es' es
  | .nil => .nil
  | .cons hhead htail => .cons (hhead.symm hD) (htail.symm hD)

theorem AlikeBindings.symm (hD : time → ∀ m, D m) {b e e'} :
    AlikeBindings c D time b e e' → AlikeBindings c.symm (fun n => D (c.name.symm n)) time b e' e
  | .both hleft hright => .both (hleft.symm hD) (hright.symm hD)
  | .assignment hvalue => .assignment (hvalue.symm hD)
  | .stuck h h' => .stuck h' h

end

end Symmetry

/-- The relation of scopes whose local names have types that differ in names only. -/
structure ScopeAlike (c : Respelling) (D : String → Prop) (scope scope' : Scope) : Prop where
  locals : ∀ n, scope'.get? n = (scope.get? n).map (Ty.rename c)
  within : scope.Within D
  time : scope'.allowTime = scope.allowTime
  index : scope'.allowIndex = scope.allowIndex

/-- The scopes of two alike expressions, where some names are bound and the time step is seen or
not. -/
structure Paired (c : Respelling) (D : String → Prop) (time : Bool) (bound : List String)
    (scope scope' : Scope) : Prop where
  binds : scope.Binds bound
  time : scope.allowTime = time
  alike : ScopeAlike c D scope scope'

/-- The relation of analyzed expressions that differ in names only. -/
structure Matches (c : Respelling) (D : String → Prop) (e e' : Expr) : Prop where
  respelled : e.Respelled c e'
  within : e.Within D
  isMap : e'.isOp .listMap = e.isOp .listMap
  inside : ∀ {scope scope'}, ScopeAlike c D scope scope' →
    ScopeAlike c D (scopeInside scope e) (scopeInside scope' e')

section Scopes

variable {c : Respelling} {D : String → Prop} {time : Bool} {bound : List String}
  {scope scope' : Scope}

theorem ScopeAlike.bind (h : ScopeAlike c D scope scope') (n : String) {t : Ty} (ht : t.Within D) :
    ScopeAlike c D (scope.bind n t) (scope'.bind n (t.rename c)) where
  locals m := by
    change (scope'.locals.insert n _).get? m = ((scope.locals.insert n t).get? m).map _
    rw [NameMap.get?_insert, NameMap.get?_insert]
    split
    · rfl
    · exact h.locals m
  within := h.within.bind n ht
  time := h.time
  index := h.index

theorem ScopeAlike.withParams (h : ScopeAlike c D scope scope') {params : List Param}
    (hparams : ∀ p ∈ params, p.ty.Within D) :
    ScopeAlike c D (scope.withParams params) (scope'.withParams (params.map (Param.rename c))) := by
  induction params generalizing scope scope' with
  | nil => exact h
  | cons p params ih =>
    obtain ⟨hp, hparams⟩ := List.forall_mem_cons.1 hparams
    exact ih (h.bind p.name hp) hparams

theorem scopeAlike_top : ScopeAlike c D .top .top :=
  ⟨fun _ => rfl, Scope.over_top, rfl, rfl⟩

variable (h : Paired c D time bound scope scope')

include h

theorem Paired.bind (n : String) {t : Ty}
    (ht : t.Within D) :
    Paired c D time (n :: bound) (scope.bind n t) (scope'.bind n (t.rename c)) :=
  ⟨h.binds.bind n t, h.time, h.alike.bind n ht⟩

variable {n n' : String}

theorem Paired.not_mem (hn : scope.get? n = none) :
    n ∉ bound := fun hmem => by
  simpa [hn] using (h.binds n).1 hmem

theorem Paired.get?_eq_none (hn : n ∉ bound) : scope.get? n = none ∧ scope'.get? n = none := by
  have hnone : scope.get? n = none := by
    cases hget : scope.get? n with
    | none => rfl
    | some t => exact absurd ((h.binds n).2 (by simp [hget])) hn
  refine ⟨hnone, ?_⟩
  rw [h.alike.locals, hnone]
  rfl

/-- A name that stands for something at the top level corresponds to its new name. -/
theorem Paired.free (hn : scope.Free n)
    (hsees : c.Sees time bound n n') : n' = c.name n ∧ scope'.Free n' := by
  have hnot := h.not_mem hn.1
  have htime : ¬(time = true ∧ n = Expr.timeStepName) := h.time ▸ hn.2
  rcases hsees with ⟨-, hmem⟩ | ⟨rfl, hfree⟩
  · rcases hmem with hmem | hmem
    · exact absurd hmem hnot
    · exact absurd hmem htime
  · obtain ⟨hnot', htime'⟩ := hfree (c.name n) (by simp)
    refine ⟨rfl, (h.get?_eq_none hnot').2, ?_⟩
    rw [h.alike.time, h.time]
    exact htime'

/-- A target or a callee that stands for something at the top level corresponds to its new
name. -/
theorem Paired.unbound (hn : scope.get? n = none)
    (hsees : c.Sees false bound n n') : n' = c.name n ∧ scope'.get? n' = none := by
  rcases hsees with ⟨-, hmem | hmem⟩ | ⟨rfl, hfree⟩
  · exact absurd hmem (h.not_mem hn)
  · cases hmem.1
  · exact ⟨rfl, (h.get?_eq_none (hfree (c.name n) (by simp)).1).2⟩

theorem Paired.permits {op : Operation} {count : Nat}
    (hpermits : scope.Permits op count) : scope'.Permits op count := by
  refine ⟨fun hop => ?_, hpermits.2⟩
  rw [h.alike.index]
  exact hpermits.1 hop

end Scopes

section Results

variable {c : Respelling} {D : String → Prop}

theorem matches_constant {v : Value} (hv : v.ty.Within D) (area area' : Area) :
    Matches c D (.constant v area) (.constant (v.rename c) area') :=
  ⟨⟨ty_rename v, rfl⟩, Expr.over_constant hv area, rfl, fun h => h⟩

variable {t : Ty} {op : Operation} {es es' : List Expr}

theorem matches_name (ht : t.Within D) (n n' : String) (area area' : Area) :
    Matches c D (.name ⟨t, area⟩ n) (.name ⟨t.rename c, area'⟩ n') :=
  ⟨⟨rfl, rfl⟩, Expr.over_name ht area n, rfl, fun h => h⟩

theorem matches_timeStep (area area' : Area) :
    Matches c D (.timeStep ⟨.real, area⟩) (.timeStep ⟨.real, area'⟩) :=
  ⟨⟨rfl, rfl⟩, ⟨trivial, nofun⟩, rfl, fun h => h⟩

theorem matches_operator (hop : op ≠ .listMap) (ht : t.Within D) (area area' : Area)
    (operands operands' : List Expr) :
    Matches c D (.operator ⟨t, area⟩ op operands) (.operator ⟨t.rename c, area'⟩ op operands') := by
  have hsame : ∀ (info : Info) (es : List Expr) (scope : Scope),
      scopeInside scope (.operator info op es) = scope := by
    intro info es scope
    unfold scopeInside
    split
    · rename_i heq
      cases heq
      exact absurd rfl hop
    · rfl
  refine ⟨⟨rfl, rfl⟩, Expr.over_operator ht area op operands, rfl, fun h => ?_⟩
  rw [hsame, hsame]
  exact h

theorem matches_expr {v : Verdict} (hv : v.Within D) (hop : op ≠ .listMap) (area area' : Area)
    (operands operands' : List Expr) :
    Matches c D (v.expr area op operands) ((v.rename c).expr area' op operands') := by
  obtain ⟨t, value⟩ := v
  cases value with
  | some w => exact matches_constant (hv.2 w rfl) area area'
  | none => exact matches_operator hop hv.1 area area' operands operands'

theorem matches_builtinExpr {n : String} {b : Builtin} (hfind : Builtin.find? n = some b)
    (area area' : Area) (name name' : Expr) :
    Matches c D (builtinExpr area name b) (builtinExpr area' name' b) := by
  have hmatches := matches_operator (c := c) (by decide : Operation.builtIn ≠ .listMap)
    (Builtin.over_result (P := fun u => ∀ n, u = .function n → D n) hfind) area area' [name.withTy b.result]
    [name'.withTy b.result]
  rw [rename_result hfind] at hmatches
  exact hmatches

/-- A coordinate of an analyzed subject under new names. -/
theorem matches_member {subject subject' : Expr} (h : subject.Respelled c subject')
    {m : String} (hty : (memberTy .nowhere subject m).toOption = some t) (area area' : Area)
    (operands operands' : List Expr) :
    Matches c D
      (Verdict.expr ⟨spread t [subject.ty], subject.value?.bind (coordinate? m)⟩ area
        .memberAccess operands)
      (Verdict.expr ⟨spread t [subject'.ty], subject'.value?.bind (coordinate? m)⟩ area'
        .memberAccess operands') := by
  have hspread : spread t [subject'.ty] = (spread t [subject.ty]).rename c := by
    have hrename := spread_rename (r := c) t [subject.ty]
    rw [(memberTy_respelled h hty).2] at hrename
    rw [h.ty]
    exact hrename
  have hvalue : subject'.value?.bind (coordinate? m) =
      (subject.value?.bind (coordinate? m)).map (rename c) := by
    rw [h.value]
    cases subject.value? with
    | none => rfl
    | some v => exact coordinate?_rename m v
  rw [hspread, hvalue]
  exact matches_expr (over_member hty) (by simp) area area' operands operands'

theorem forall₂_respelled (h : List.Forall₂ (Matches c D) es es') :
    List.Forall₂ (Expr.Respelled c) es es' :=
  h.imp fun _ _ h => h.respelled

theorem forall₂_within (h : List.Forall₂ (Matches c D) es es') : ∀ e ∈ es, e.Within D := by
  induction h with
  | nil => simp
  | cons hhead _ ih => exact List.forall_mem_cons.2 ⟨hhead.within, ih⟩

end Results

section Inversion

variable {c : Respelling} {D : String → Prop} {time : Bool} {ob b : List String} {op : Operation}
  {info : Info} {e' e : Expr}

theorem Settles.isUniform {operands : List Expr} {v : Verdict} (h : Settles op operands v) :
    op.isUniform := by
  have hop := h.isSettled
  cases op <;> first | rfl | cases hop

theorem AlikeAll.length_eq {es es' : List Expr} :
    AlikeAll c D time b es es' → es'.length = es.length
  | .nil => rfl
  | .cons _ htail => congrArg Nat.succ htail.length_eq

/-- An operation whose operands stand in one scope is matched by the same operation. -/
theorem Alike.operands {es : List Expr} (h : Alike c D time ob b (.operator info op es) e')
    (hop : op.isUniform) (hstuck : ¬Stuck (.operator info op es)) :
    ∃ info' es', e' = .operator info' op es' ∧ AlikeAll c D time b es es' := by
  cases h with
  | operator _ hoperands => exact ⟨_, _, rfl, hoperands⟩
  | stuck h => exact absurd h hstuck
  | _ => cases hop

theorem Alike.builtIn_eq {nameInfo : Info} {n : String} {bi : Builtin}
    (hfind : Builtin.find? n = some bi)
    (h : Alike c D time ob b (.operator info .builtIn [.name nameInfo n]) e') :
    ∃ info' nameInfo', e' = .operator info' .builtIn [.name nameInfo' n] := by
  cases h with
  | builtIn => exact ⟨_, _, rfl⟩
  | operator hop => cases hop
  | stuck hstuck =>
    exact absurd (.builtIn hfind)
      (hstuck (fun _ _ _ => False) .top .top ⟨.empty, .empty, .empty, []⟩ _ _)

theorem Alike.isOp_eq (h : Alike c D time ob b e e') (hstuck : ¬Stuck e) (op : Operation) :
    e'.isOp op = e.isOp op := by
  cases h with
  | stuck h => exact absurd h hstuck
  | _ => rfl

theorem not_stuck_name (i : Info) (n : String) : ¬Stuck (.name i n) := fun h => by
  have hbound : (Scope.top.bind n .unknown).get? n = some .unknown := NameMap.get?_insert_self _ _ _
  exact h (fun _ _ _ => False) .top _ ⟨.empty, .empty, .empty, []⟩ _ _ (.name (.bound hbound))

theorem Stuck.value?_eq_none (h : Stuck e) : e.value? = none := by
  cases e with
  | literal i v =>
    exact absurd .literal (h (fun _ _ _ => False) .top .top ⟨.empty, .empty, .empty, []⟩ _ _)
  | _ => rfl

theorem Alike.value?_eq (h : Alike c D time ob b e e') :
    e'.value? = e.value?.map (rename c) ∧ ∀ v, e.value? = some v → v.ty.Within D := by
  cases h with
  | literal hv hwithin =>
    subst hv
    refine ⟨rfl, fun v hv => ?_⟩
    cases hv
    exact hwithin
  | stuck h h' => simp [h.value?_eq_none, h'.value?_eq_none]
  | _ => exact ⟨rfl, nofun⟩

end Inversion

end Typing

end Diagram
