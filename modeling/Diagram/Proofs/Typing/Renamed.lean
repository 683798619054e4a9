import Diagram.Proofs.Typing.Counterpart
import Diagram.Proofs.Typing.Declared

/-!
# Renamed expressions

An expression under new names is alike to what it was, if no new name is the time step or a local
name, and so are actions and display elements.

* `alike_rename` — the expressions.
* `alikeAction_rename`, `alikeElement_rename` — what is put together from them.
-/

namespace Diagram

open List Expr

namespace Expr

def target? : Expr → Option String
  | .operator _ .update [target, _] => target.name?
  | _ => none

def binders : Expr → List String
  | .operator _ .listMap [_, x, _] => x.name?.toList
  | .operator _ .assignment [x, _] => x.name?.toList
  | _ => []

end Expr

mutual

def Action.targets : Action → List String
  | .hole => []
  | .block actions => Action.targetsOf actions
  | .update target _ => target.name?.toList
  | .call _ _ => []
  | .conditional branches default => Action.branchTargets branches ++ default.targets

def Action.targetsOf : List Action → List String
  | [] => []
  | a :: as => a.targets ++ Action.targetsOf as

/-- The names that the branches of a conditional action update. -/
def Action.branchTargets : List (Expr × Action) → List String
  | [] => []
  | (_, a) :: rest => a.targets ++ Action.branchTargets rest

end

def Operation.namePlace? : Operation → Option Nat
  | .listMap | .memberAccess => some 1
  | .builtIn | .actionCall | .update => some 0
  | _ => none

namespace Typing

/-- A change of names that does what new names say, which are neither the time step nor among the
local names `L`. -/
structure Realizes (c : Respelling) (r : Renaming) (L : String → Prop) : Prop where
  enum : c.enum = r.enum
  enumName : ∀ n, c.enum n = true → c.name n = r.name n
  fresh : ∀ n, r.name n = n ∨ ¬L (r.name n) ∧ r.name n ≠ timeStepName

/-- Whether a part of an expression is no constant of a named type and has as many operands as it
takes, updates a name that satisfies `M` and binds names that satisfy `L`. -/
structure Tidy (M L : String → Prop) (x : Expr) : Prop where
  plain : ∀ v, x.value? = some v → v.ty.isPlain = true
  takes : ∀ info op operands, x = .operator info op operands → op.takes operands.length = true
  target : ∀ n, x.target? = some n → M n
  binders : ∀ n ∈ x.binders, L n

abbrev AllTidy (M L : String → Prop) (e : Expr) : Prop :=
  ∀ x ∈ e.nodes, Tidy M L x

section Expressions

variable {c : Respelling} {r : Renaming} {D M L : String → Prop} {time : Bool} {info : Info}
  {op : Operation} {b : List String} {n : String} {es : List Expr} {e : Expr}

theorem allTidy_operator_iff {operands : List Expr} :
    AllTidy M L (.operator info op operands) ↔
      (∀ e ∈ operands, AllTidy M L e) ∧ Tidy M L (.operator info op operands) := by
  unfold AllTidy
  rw [nodes, forall_mem_append, forall_nodesOf_iff, forall_mem_singleton]

theorem Realizes.sees (hc : Realizes c r L) (hb : ∀ m ∈ b, L m) (hn : n ∉ b → c.name n = r.name n) :
    c.Sees time b n (if n ∈ b ∨ (time ∧ n = timeStepName) then n else r.name n) := by
  by_cases hbound : n ∈ b ∨ (time = true ∧ n = timeStepName)
  · rw [if_pos hbound]
    exact .inl ⟨rfl, hbound⟩
  · rw [if_neg hbound]
    obtain ⟨hfree, htime⟩ := not_or.1 hbound
    refine .inr ⟨(hn hfree).symm, forall_mem_cons.2 ⟨⟨hfree, htime⟩, forall_mem_singleton.2 ?_⟩⟩
    rcases hc.fresh n with hsame | ⟨hlocal, hdt⟩
    · rw [hsame]
      exact ⟨hfree, htime⟩
    · exact ⟨fun hmem => hlocal (hb _ hmem), fun h => hdt h.2⟩

theorem Realizes.sees_bare (hc : Realizes c r L) (hb : ∀ m ∈ b, L m)
    (hn : n ∉ b → c.name n = r.name n) : c.Sees false b n (if n ∈ b then n else r.name n) := by
  have hsees : c.Sees false b n
      (if n ∈ b ∨ (false = true ∧ n = timeStepName) then n else r.name n) := hc.sees hb hn
  simp only [Bool.false_eq_true, false_and, or_false] at hsees
  exact hsees

theorem rename_of_isPlain {v : Value} (h : v.ty.isPlain) (r : Renaming) : v.rename r = v := by
  cases v <;> first | rfl | cases h

/-- Whether an expression under new names is alike to what it was. -/
def Respells (c : Respelling) (r : Renaming) (D M L : String → Prop) (time : Bool) (e : Expr) :
    Prop :=
  ∀ ob b, (∀ n ∈ e.references ob b, M n) → (∀ n ∈ ob, L n) → (∀ n ∈ b, L n) →
    Alike c D time ob b e (e.rename r time ob b)

/-- Whether bindings under new names are alike to what they were. -/
def RespellsBindings (c : Respelling) (r : Renaming) (D M L : String → Prop) (time : Bool)
    (e : Expr) : Prop :=
  ∀ b, (∀ n ∈ e.bindingReferences b, M n) → (∀ n ∈ b, L n) →
    AlikeBindings c D time b e (e.renameBindings r time b)

theorem rename_of_isUniform (hop : op.isUniform) (es : List Expr) (ob b : List String) :
    (operator info op es).rename r time ob b = .operator info op (renameAll r time b es) := by
  cases op <;> first | rfl | cases hop

theorem references_of_isUniform (hop : op.isUniform) (es : List Expr) (ob b : List String) :
    (operator info op es).references ob b = referencesOf b es := by
  cases op <;> first | rfl | cases hop

theorem alikeAll_renameAll (hes : ∀ e ∈ es, Respells c r D M L time e)
    (hrefs : ∀ n ∈ referencesOf b es, M n) (hb : ∀ n ∈ b, L n) :
    AlikeAll c D time b es (renameAll r time b es) := by
  induction es with
  | nil => exact .nil
  | cons e es ih =>
    obtain ⟨he, hes⟩ := forall_mem_cons.1 hes
    obtain ⟨hhead, htail⟩ := forall_mem_append.1 hrefs
    exact .cons (he b b hhead hb hb) (ih hes htail)

theorem exists_rename_operator (info : Info) (op : Operation) (es : List Expr)
    (ob b : List String) :
    ∃ es', (operator info op es).rename r time ob b = .operator info op es' := by
  unfold rename
  cases op <;> first | exact ⟨_, rfl⟩ | (dsimp only; split <;> exact ⟨_, rfl⟩)

theorem name?_rename (e : Expr) (ob b : List String) :
    (e.rename r time ob b).name? = e.name?.map fun n =>
      if n ∈ b ∨ (time ∧ n = timeStepName) then n else r.name n := by
  cases e with
  | operator info op es =>
    obtain ⟨es', hes'⟩ := @exists_rename_operator r time info op es ob b
    rw [hes']
    rfl
  | _ => rfl

/-- New names leave the names alone that a chain of comprehensions binds. -/
theorem namesInside_rename (e : Expr) (ob b bound : List String) :
    (e.rename r time ob b).namesInside bound = e.namesInside bound := by
  induction e using chainInduction generalizing ob b bound with
  | map info body x source ih =>
    cases x with
    | name i n => exact ih _ _ _
    | _ => rfl
  | other e hother =>
    rw [namesInside_of_other hother]
    cases e with
    | operator info op operands =>
      by_cases hop : op = .listMap
      · subst hop
        match operands with
        | [body, x, source] => exact absurd rfl (hother info body x source)
        | [] | [_] | [_, _] | _ :: _ :: _ :: _ :: _ => rfl
      · obtain ⟨es', hes'⟩ := @exists_rename_operator r time info op operands ob b
        rw [hes', namesInside_of_ne hop]
    | _ => rfl

theorem forall_mem_namesInside (he : AllTidy M L e) (hb : ∀ n ∈ b, L n) :
    ∀ n ∈ e.namesInside b, L n := by
  induction e using chainInduction generalizing b with
  | map info body x source ih =>
    obtain ⟨hoperands, hself⟩ := allTidy_operator_iff.1 he
    cases x with
    | name i n =>
      refine ih (hoperands body (by simp)) (forall_mem_cons.2 ⟨hself.binders n ?_, hb⟩)
      simp [binders, name?]
    | _ => exact hb
  | other e hother =>
    rw [namesInside_of_other hother]
    exact hb

theorem namesWithBindings_renameBindings (e : Expr) (b bound : List String) :
    (e.renameBindings r time b).namesWithBindings bound = e.namesWithBindings bound := by
  fun_induction namesWithBindings bound e with
  | case1 bound info left right ihleft ihright =>
    simp only [renameBindings, namesWithBindings]
    rw [ihleft, ihright]
  | case2 bound info target value n hn | case3 bound info target value hn =>
    simp only [renameBindings, namesWithBindings, hn]
  | case4 =>
    rename_i hboth hassignment
    rename Expr => e
    have hsame : e.renameBindings r time b = e := by
      unfold renameBindings
      split
      · exact absurd rfl (hboth _ _ _)
      · exact absurd rfl (hassignment _ _ _)
      · rfl
    rw [hsame]
    unfold namesWithBindings
    split
    · exact absurd rfl (hboth _ _ _)
    · exact absurd rfl (hassignment _ _ _)
    · rfl

theorem forall_mem_namesWithBindings (he : AllTidy M L e) (hb : ∀ n ∈ b, L n) :
    ∀ n ∈ e.namesWithBindings b, L n := by
  fun_induction namesWithBindings b e with
  | case1 b info left right ihleft ihright =>
    obtain ⟨hoperands, -⟩ := allTidy_operator_iff.1 he
    exact ihright (hoperands right (by simp)) (ihleft (hoperands left (by simp)) hb)
  | case2 b info target value n hn =>
    obtain ⟨-, hself⟩ := allTidy_operator_iff.1 he
    refine forall_mem_cons.2 ⟨hself.binders n ?_, hb⟩
    simp [binders, hn]
  | case3 | case4 => exact hb

theorem settle?_eq_none (hop : op.isUniform = false) (es : List Expr) : settle? op es = none := by
  cases hsettle : settle? op es with
  | none => rfl
  | some v =>
    have huniform := (settle?_eq_some_iff.1 hsettle).isUniform
    rw [hop] at huniform
    cases huniform

theorem stuck_of_namePlace {i : Nat} (hop : op.namePlace? = some i) {x : Expr}
    (hplace : es[i]? = some x) (hx : x.name? = none) : Stuck (.operator info op es) := by
  have huniform : op.isUniform = false := by
    cases op <;> first | rfl | cases hop
  intro R outer scope s e' s' h
  cases h with
  | operands _ _ hverdict =>
    rw [settle?_eq_none huniform] at hverdict
    cases hverdict
  | listFilter | builtinCall | call | withBinding => cases hop
  | listMap | variant | member | builtIn | actionCall | update =>
    cases hop
    cases hplace
    cases hx

section Operations

variable (hc : Realizes c r L) (hM : ∀ n, M n → c.name n = r.name n ∧ D n) {info : Info}

include hc hM

theorem respells_name {n : String} : Respells c r D M L time (.name info n) := by
  intro ob b hrefs _ hb
  have hmentioned : n ∉ b → M n := fun hn => hrefs n (by simp [references, hn])
  exact .name (hc.sees hb fun hn => (hM n (hmentioned hn)).1) fun hn => (hM n (hmentioned hn)).2

variable {op : Operation} {es : List Expr} {body x subject : Expr}

omit hc hM in
theorem respells_uniform (hop : op.isUniform) (hes : ∀ e ∈ es, Respells c r D M L time e) :
    Respells c r D M L time (.operator info op es) := by
  intro ob b hrefs _ hb
  rw [references_of_isUniform hop] at hrefs
  rw [rename_of_isUniform hop]
  exact .operator hop (alikeAll_renameAll hes hrefs hb)

omit hc hM in
theorem respells_listMap {source : Expr} (hbody : Respells c r D M L time body)
    (hsource : Respells c r D M L time source)
    (hself : Tidy M L (.operator info .listMap [body, x, source])) :
    Respells c r D M L time (.operator info .listMap [body, x, source]) := by
  intro ob b hrefs hob hb
  obtain ⟨hsourceRefs, hbodyRefs⟩ := forall_mem_append.1 hrefs
  cases x with
  | name j n =>
    have hn : L n := hself.binders n (by simp [binders, name?])
    exact .listMap (hsource ob ob hsourceRefs hob hob)
      (hbody ob (n :: b) hbodyRefs hob (forall_mem_cons.2 ⟨hn, hb⟩))
  | literal | timeStep | operator =>
    exact .stuck (stuck_of_namePlace rfl rfl rfl) (stuck_of_namePlace rfl rfl rfl)

omit hc hM in
theorem respells_listFilter {list condition : Expr} (hlist : Respells c r D M L time list)
    (htidy : AllTidy M L list) (hcondition : Respells c r D M L time condition) :
    Respells c r D M L time (.operator info .listFilter [list, condition]) := by
  intro ob b hrefs _ hb
  obtain ⟨hlistRefs, hconditionRefs⟩ := forall_mem_append.1 hrefs
  have hinside := forall_mem_namesInside htidy hb
  exact .listFilter (hlist b b hlistRefs hb hb) (namesInside_rename list b b b)
    (hcondition _ _ hconditionRefs hinside hinside)

omit hM in
/-- A subject that stands for no enumeration stands for none under its new name. -/
theorem timely_rename {b : List String} (hsubject : subject.namesEnum r b = false) :
    c.Timely time b subject ∧ c.symm.Timely time b (subject.rename r time b b) := by
  have hsame : c.Timely time b subject := by
    intro _ hfree hname
    rw [namesEnum, hname] at hsubject
    rw [hc.enum]
    simpa [hfree] using hsubject
  refine ⟨hsame, fun htime hfree hname => ?_⟩
  -- No name but the time step itself becomes the time step.
  have hstep : ∀ n, r.name n = timeStepName → n = timeStepName := by
    intro n hn
    rcases hc.fresh n with h | ⟨-, h⟩
    · exact h.symm.trans hn
    · exact absurd hn h
  have hname' : subject.name? = some timeStepName := by
    rw [name?_rename, Option.map_eq_some_iff] at hname
    obtain ⟨n, hn, hnew⟩ := hname
    split at hnew
    · rw [hn, hnew]
    · rw [hn, hstep n hnew]
  have hold := hsame htime hfree hname'
  cases henum : c.symm.enum timeStepName with
  | false => rfl
  | true =>
    have hback : c.name (c.name.symm timeStepName) = timeStepName := c.name.apply_symm_apply _
    change c.enum (c.name.symm timeStepName) = true at henum
    rw [hstep _ ((hc.enumName _ henum).symm.trans hback), hold] at henum
    cases henum

omit hM in
theorem respells_memberAccess {member : Expr} (hsubject : Respells c r D M L time subject) :
    Respells c r D M L time (.operator info .memberAccess [subject, member]) := by
  intro ob b hrefs _ hb
  cases member with
  | name k m =>
    have hrename : (operator info .memberAccess [subject, .name k m]).rename r time ob b =
        .operator info .memberAccess [if subject.namesEnum r b then subject.renameBare r b
          else subject.rename r time b b, .name k m] := rfl
    rw [hrename]
    cases henum : subject.namesEnum r b with
    | true =>
      cases subject with
      | name j n =>
        simp only [namesEnum, name?, Bool.and_eq_true, Bool.not_eq_true',
          decide_eq_false_iff_not] at henum
        obtain ⟨hfree, henum⟩ := henum
        rw [← hc.enum] at henum
        have hfree' : r.name n ∉ b := by
          rcases hc.fresh n with hsame | ⟨hlocal, -⟩
          · rwa [hsame]
          · exact fun hmem => hlocal (hb _ hmem)
        rw [renameBare, if_neg hfree]
        exact .variant (hc.enumName n henum).symm ⟨hfree, hfree'⟩ henum
      | literal | timeStep | operator => cases henum
    | false =>
      obtain ⟨htime, htime'⟩ := timely_rename hc henum
      exact .member (hsubject b b hrefs hb hb) htime htime'
  | literal | timeStep | operator =>
    exact .stuck (stuck_of_namePlace rfl rfl rfl) (stuck_of_namePlace rfl rfl rfl)

omit hc hM in
theorem respells_builtIn : Respells c r D M L time (.operator info .builtIn [x]) := by
  intro ob b _ _ _
  cases x with
  | name j n => exact .builtIn
  | literal | timeStep | operator =>
    exact .stuck (stuck_of_namePlace rfl rfl rfl) (stuck_of_namePlace rfl rfl rfl)

theorem respells_actionCall {callee : Expr} {args : List Expr}
    (hargs : ∀ e ∈ args, Respells c r D M L time e) :
    Respells c r D M L time (.operator info .actionCall (callee :: args)) := by
  intro ob b hrefs _ hb
  obtain ⟨hcalleeRefs, hargsRefs⟩ := forall_mem_append.1 hrefs
  cases callee with
  | name j n =>
    refine .actionCall (hc.sees_bare hb fun hn => (hM n (hcalleeRefs n ?_)).1)
      (alikeAll_renameAll hargs hargsRefs hb)
    simp [references, hn]
  | literal | timeStep | operator =>
    exact .stuck (stuck_of_namePlace rfl rfl rfl) (stuck_of_namePlace rfl rfl rfl)

theorem respells_update {target value : Expr} (hvalue : Respells c r D M L time value)
    (hself : Tidy M L (.operator info .update [target, value])) :
    Respells c r D M L time (.operator info .update [target, value]) := by
  intro ob b hrefs _ hb
  cases target with
  | name j n =>
    obtain ⟨hname, hn⟩ := hM n (hself.target n rfl)
    exact .update (hc.sees_bare hb fun _ => hname) (fun _ => hn) (hvalue b b hrefs hb hb)
  | literal | timeStep | operator =>
    exact .stuck (stuck_of_namePlace rfl rfl rfl) (stuck_of_namePlace rfl rfl rfl)

omit hc hM in
theorem respells_withBinding {bindings : Expr} (hbody : Respells c r D M L time body)
    (hbindings : RespellsBindings c r D M L time bindings) (htidy : AllTidy M L bindings) :
    Respells c r D M L time (.operator info .withBinding [body, bindings]) := by
  intro ob b hrefs _ hb
  obtain ⟨hbindingsRefs, hbodyRefs⟩ := forall_mem_append.1 hrefs
  have hinside := forall_mem_namesWithBindings htidy hb
  exact .withBinding (hbindings b hbindingsRefs hb) (namesWithBindings_renameBindings bindings b b)
    (hbody _ _ hbodyRefs hinside hinside)

/-- An operation whose operands are alike to what they were under new names. -/
theorem respells_operator
    (hes : ∀ e ∈ es, Respells c r D M L time e ∧ RespellsBindings c r D M L time e)
    (htidy : AllTidy M L (.operator info op es)) :
    Respells c r D M L time (.operator info op es) := by
  obtain ⟨hoperands, hself⟩ := allTidy_operator_iff.1 htidy
  have htakes := hself.takes info op es rfl
  have hes' : ∀ e ∈ es, Respells c r D M L time e := fun e he => (hes e he).1
  cases huniform : op.isUniform with
  | true => exact respells_uniform huniform hes'
  | false =>
    cases op with
    | listMap =>
      match es with
      | [body, x, source] =>
        exact respells_listMap (hes' body (by simp)) (hes' source (by simp)) hself
    | listFilter =>
      match es with
      | [list, condition] =>
        exact respells_listFilter (hes' list (by simp)) (hoperands list (by simp))
          (hes' condition (by simp))
    | memberAccess =>
      match es with
      | [subject, member] => exact respells_memberAccess hc (hes' subject (by simp))
    | builtIn =>
      match es with
      | [x] => exact respells_builtIn
    | actionCall =>
      match es with
      | callee :: args =>
        exact respells_actionCall hc hM fun e he => hes' e (mem_cons_of_mem _ he)
    | update =>
      match es with
      | [target, value] => exact respells_update hc hM (hes' value (by simp)) hself
    | withBinding =>
      match es with
      | [body, bindings] =>
        exact respells_withBinding (hes' body (by simp)) (hes bindings (by simp)).2
          (hoperands bindings (by simp))
    | _ => cases huniform

omit hc hM in
theorem respellsBindings_operator
    (hes : ∀ e ∈ es, Respells c r D M L time e ∧ RespellsBindings c r D M L time e) :
    RespellsBindings c r D M L time (.operator info op es) := by
  intro b hrefs hb
  unfold renameBindings
  split
  case h_1 left right heq =>
    cases heq
    obtain ⟨hleftRefs, hrightRefs⟩ := forall_mem_append.1 hrefs
    exact .both ((hes left (by simp)).2 b hleftRefs hb) ((hes right (by simp)).2 b hrightRefs hb)
  case h_2 target value heq =>
    cases heq
    cases target with
    | name j n => exact .assignment ((hes value (by simp)).1 b b hrefs hb hb)
    | literal | timeStep | operator =>
      exact .stuck (fun _ _ _ _ _ _ h => nomatch h) (fun _ _ _ _ _ _ h => nomatch h)
  case h_3 hboth hassignment =>
    have hstuck : ∀ R scope chain s e₁ s₁,
        ¬DerivesBindings R scope chain (.operator info op es) s e₁ s₁ := by
      intro R scope chain s e₁ s₁ h
      cases h with
      | both => exact hboth _ _ _ rfl
      | assignment => exact hassignment _ _ _ rfl
    exact .stuck hstuck hstuck

omit hc hM in
theorem respellsBindings_leaf {e : Expr} (he : ∀ info op es, e ≠ .operator info op es) :
    RespellsBindings c r D M L time e := by
  have hstuck : ∀ {e : Expr}, (∀ info op es, e ≠ .operator info op es) →
      ∀ R scope chain s e₁ s₁, ¬DerivesBindings R scope chain e s e₁ s₁ := by
    intro e he R scope chain s e₁ s₁ h
    cases h <;> exact he _ _ _ rfl
  intro b _ _
  refine .stuck (hstuck he) (hstuck ?_)
  cases e with
  | operator info op es => exact absurd rfl (he info op es)
  | _ => rintro _ _ _ ⟨⟩

theorem alike_rename (e : Expr) (htidy : AllTidy M L e) :
    Respells c r D M L time e ∧ RespellsBindings c r D M L time e := by
  induction e using operandInduction with
  | literal info v =>
    refine ⟨fun ob b _ _ _ => ?_, respellsBindings_leaf (by simp)⟩
    have hplain : v.ty.isPlain = true := (htidy (.literal info v) (by simp [nodes])).plain v rfl
    unfold rename
    rw [rename_of_isPlain hplain]
    exact .literal (rename_of_isPlain hplain _).symm (Value.over_of_isPlain hplain)
  | name info n => exact ⟨respells_name hc hM, respellsBindings_leaf (by simp)⟩
  | timeStep info =>
    exact ⟨fun ob b _ _ _ => .timeStep, respellsBindings_leaf (by simp)⟩
  | operator info op es ih =>
    have hoperands := (allTidy_operator_iff.1 htidy).1
    have hes := fun e he => ih e he (hoperands e he)
    exact ⟨respells_operator hc hM hes htidy, respellsBindings_operator hes⟩

end Operations

end Expressions

/-! ### Renamed parts of a program -/

section Parts

variable {c : Respelling} {r : Renaming} {M L : String → Prop} {time : Bool} {b : List String}

theorem ty_renameBare (e : Expr) : (e.renameBare r b).ty = e.ty := by
  cases e <;> rfl

variable {e : Expr}

theorem respells_any (hc : Realizes c r L) (hM : ∀ n, M n → c.name n = r.name n)
    (he : AllTidy M L e) : Respells c r Any M L time e :=
  (alike_rename hc (fun n hn => ⟨hM n hn, trivial⟩) e he).1

theorem alikeTop_rename (hc : Realizes c r L) (hM : ∀ n, M n → c.name n = r.name n)
    (he : AllTidy M L e) (hrefs : ∀ n ∈ e.references [] [], M n) :
    AlikeTop c e (e.rename r false [] []) :=
  respells_any hc hM he [] [] hrefs (by simp) (by simp)

mutual

theorem alikeAction_rename (hc : Realizes c r L) (hM : ∀ n, M n → c.name n = r.name n)
    (hb : ∀ n ∈ b, L n) : (a : Action) → (∀ x ∈ a.nodes, Tidy M L x) →
    (∀ n ∈ a.references b, M n) → (∀ n ∈ a.targets, M n) →
    AlikeAction c time b a (a.rename r time b)
  | .hole, _, _, _ => .hole
  | .block as, htidy, hrefs, htargets =>
    .block (alikeActions_rename hc hM hb as htidy hrefs htargets)
  | .update target value, htidy, hrefs, htargets => by
    have hself : Tidy M L (.updating target value) := by
      refine ⟨nofun, fun _ _ _ heq => ?_, fun n hn => htargets n (Option.mem_toList.2 hn), nofun⟩
      cases heq
      rfl
    have hvalue : AllTidy M L value := (forall_mem_append.1 htidy).2
    exact .update (respells_update hc (fun n hn => ⟨hM n hn, trivial⟩)
      (respells_any hc hM hvalue) hself b b hrefs hb hb)
  | .call callee args, htidy, hrefs, _ => by
    have hargs := forall_nodesOf_iff.1 (forall_mem_append.1 htidy).2
    refine .call ?_
    unfold acting
    rw [ty_renameBare]
    exact respells_actionCall hc (fun n hn => ⟨hM n hn, trivial⟩)
      (fun e he => respells_any hc hM (hargs e he)) b b hrefs hb hb
  | .conditional arms d, htidy, hrefs, htargets => by
    obtain ⟨htidyArms, htidyDefault⟩ := forall_mem_append.1 htidy
    obtain ⟨hrefsArms, hrefsDefault⟩ := forall_mem_append.1 hrefs
    obtain ⟨htargetsArms, htargetsDefault⟩ := forall_mem_append.1 htargets
    exact .conditional (alikeArms_rename hc hM hb arms htidyArms hrefsArms htargetsArms)
      (alikeAction_rename hc hM hb d htidyDefault hrefsDefault htargetsDefault)

theorem alikeActions_rename (hc : Realizes c r L) (hM : ∀ n, M n → c.name n = r.name n)
    (hb : ∀ n ∈ b, L n) : (as : List Action) → (∀ x ∈ Action.nodesOf as, Tidy M L x) →
    (∀ n ∈ Action.referencesOf b as, M n) → (∀ n ∈ Action.targetsOf as, M n) →
    AlikeActions c time b as (Action.renameAll r time b as)
  | [], _, _, _ => .nil
  | a :: as, htidy, hrefs, htargets => by
    obtain ⟨htidyHead, htidyTail⟩ := forall_mem_append.1 htidy
    obtain ⟨hrefsHead, hrefsTail⟩ := forall_mem_append.1 hrefs
    obtain ⟨htargetsHead, htargetsTail⟩ := forall_mem_append.1 htargets
    exact .cons (alikeAction_rename hc hM hb a htidyHead hrefsHead htargetsHead)
      (alikeActions_rename hc hM hb as htidyTail hrefsTail htargetsTail)

theorem alikeArms_rename (hc : Realizes c r L) (hM : ∀ n, M n → c.name n = r.name n)
    (hb : ∀ n ∈ b, L n) : (arms : List (Expr × Action)) →
    (∀ x ∈ Action.branchNodes arms, Tidy M L x) →
    (∀ n ∈ Action.branchReferences b arms, M n) → (∀ n ∈ Action.branchTargets arms, M n) →
    AlikeArms c time b arms (Action.renameBranches r time b arms)
  | [], _, _, _ => .nil
  | (condition, a) :: rest, htidy, hrefs, htargets => by
    obtain ⟨htidyArm, htidyRest⟩ := forall_mem_append.1 htidy
    obtain ⟨hrefsArm, hrefsRest⟩ := forall_mem_append.1 hrefs
    obtain ⟨htargetsArm, htargetsRest⟩ := forall_mem_append.1 htargets
    obtain ⟨htidyCondition, htidyBody⟩ := forall_mem_append.1 htidyArm
    obtain ⟨hrefsCondition, hrefsBody⟩ := forall_mem_append.1 hrefsArm
    exact .cons (respells_any hc hM htidyCondition b b hrefsCondition hb hb)
      (alikeAction_rename hc hM hb a htidyBody hrefsBody htargetsArm)
      (alikeArms_rename hc hM hb rest htidyRest hrefsRest htargetsRest)

end

theorem references_subset {es : List Expr} (he : e ∈ es) :
    ∀ n ∈ e.references b b, n ∈ referencesOf b es := by
  induction es with
  | nil => cases he
  | cons e' es ih =>
    intro n hn
    rcases mem_cons.1 he with rfl | he
    · exact mem_append_left _ hn
    · exact mem_append_right _ (ih he n hn)

theorem Element.rename_eq_refill (e : Element) : e.rename r =
    e.refill (e.quantities.map (Option.map (rename r false [] [])))
      (e.click.map (Action.rename r false [])) := by
  obtain ⟨what, color, point, stroke, fill, label, drag, click, description⟩ := e
  cases point <;> cases stroke <;> cases fill <;> cases label <;> rfl

theorem alikeElement_rename (hc : Realizes c r L) (hM : ∀ n, M n → c.name n = r.name n)
    {e : Element} (htidy : ∀ x ∈ e.nodes, Tidy M L x) (hrefs : ∀ n ∈ e.references, M n)
    (htargets : ∀ a, e.click = some a → ∀ n ∈ a.targets, M n) :
    e.Lift (Option.Rel (AlikeTop c)) (AlikeAction c false []) (e.rename r) := by
  obtain ⟨htidyQuantities, htidyClick⟩ := forall_mem_append.1 htidy
  obtain ⟨hrefsQuantities, hrefsClick⟩ := forall_mem_append.1 hrefs
  have hQ : ∀ q ∈ e.quantities, Option.Rel (AlikeTop c) q (q.map (rename r false [] [])) := by
    intro q hq
    cases q with
    | none => exact .none
    | some x =>
      have hx : x ∈ e.quantities.filterMap id := mem_filterMap.2 ⟨some x, hq, rfl⟩
      refine .some (alikeTop_rename hc hM (forall_nodesOf_iff.1 htidyQuantities x hx) ?_)
      exact fun n hn => hrefsQuantities n (references_subset hx n hn)
  have hclick : Option.Rel (AlikeAction c false []) e.click
      (e.click.map (Action.rename r false [])) := by
    cases ha : e.click with
    | none => exact .none
    | some a =>
      rw [ha] at htidyClick hrefsClick
      exact .some (alikeAction_rename hc hM (forall_mem_nil _) a htidyClick hrefsClick
        (htargets a ha))
  rw [Element.rename_eq_refill]
  refine Element.lift_refill (forall₂_map_right_iff.2 (forall₂_same.2 hQ)) hclick

end Parts

end Typing

end Diagram
