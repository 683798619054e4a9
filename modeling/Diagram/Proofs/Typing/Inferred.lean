import Diagram.Proofs.Typing.Sound
import Mathlib.Data.List.Induction

/-!
# Inference on expressions that were read

Inference gives every expression that was read from a source an analyzed one, or fails at a
place of the source.  There is one lemma for each form, in which the parts of the form are
assumed to be inferred so.

Main statement: `infers_of_shaped`.
-/

namespace Diagram.Typing

open List Operation

variable {tokens : List Token} {p : Program} {k : Nat} {r r' : String → Check Unit}

section Scopes

variable {D : String → Prop} {scope : Scope} {e : Expr}

/-- The scope inside a chain of comprehensions binds variables of known types. -/
theorem within_scopeInside (hscope : scope.Within D) (he : e.Analyzed tokens D) :
    (scopeInside scope e).Within D := by
  induction he generalizing scope with
  | operator harea hty hfits hoperands ih =>
    unfold scopeInside
    split
    · rename_i heq
      cases heq
      split
      · rename_i name _
        exact ih _ (by simp) (hscope.bind name (hoperands _ (by simp)).ty)
      · exact hscope
    · exact hscope
  | _ => exact hscope

theorem within_scopeWithBindings (hscope : scope.Within D) (he : e.Analyzed tokens D) :
    (scopeWithBindings scope e).Within D := by
  induction he generalizing scope with
  | operator harea hty hfits hoperands ih =>
    unfold scopeWithBindings
    split
    · rename_i heq
      cases heq
      exact ih _ (by simp) (ih _ (by simp) hscope)
    · rename_i heq
      cases heq
      split
      · rename_i name _
        exact hscope.bind name (hoperands _ (by simp)).ty
      · exact hscope
    · exact hscope
  | _ => exact hscope

end Scopes

/-- In every scope inference gives an analyzed expression or fails at a place of the source. -/
def Infers (tokens : List Token) (p : Program) (k : Nat) (r r' : String → Check Unit) (e : Expr) :
    Prop :=
  ∀ outer scope : Scope, outer.Within p.Defines → scope.Within p.Defines →
    Concurs tokens p k (infer r outer scope e) (infer r' outer scope e)
      (Expr.Analyzed tokens p.Defines)

section Lists

variable {scope : Scope} (hscope : scope.Within p.Defines) {es : List Expr}
  (hes : ∀ e ∈ es, Infers tokens p k r r' e)

include hscope hes

theorem sound_inferAll :
    Concurs tokens p k (inferAll r scope es) (inferAll r' scope es) fun es' =>
      (∀ e ∈ es', e.Analyzed tokens p.Defines) ∧ es'.length = es.length := by
  induction es with
  | nil =>
    exact .pure ⟨by simp, rfl⟩
  | cons e es ih =>
    obtain ⟨he, hrest⟩ := forall_mem_cons.1 hes
    refine .bind (he scope scope hscope hscope) fun e' he' => ?_
    refine .bind (ih hrest) fun es' hes' => .pure ⟨?_, ?_⟩
    · exact forall_mem_cons.2 ⟨he', hes'.1⟩
    · simp [hes'.2]

theorem sound_inferArgs (cause : Nat → Ty → Ty → Cause) (number : Nat) {params : List Param}
    (hcount : es.length = params.length) :
    Concurs tokens p k (inferArgs r scope cause number params es)
      (inferArgs r' scope cause number params es) fun es' =>
        ∀ e ∈ es', e.Analyzed tokens p.Defines := by
  induction es generalizing number params with
  | nil =>
    exact .pure (by simp)
  | cons e es ih =>
    obtain ⟨he, hrest⟩ := forall_mem_cons.1 hes
    refine .bind (he scope scope hscope hscope) fun e' he' => ?_
    cases params with
    | nil => cases hcount
    | cons q qs =>
      refine .unless he'.area fun _ => ?_
      refine .bind (ih hrest _ (Nat.succ.inj hcount)) fun es' hes' => .pure ?_
      exact forall_mem_cons.2 ⟨he', hes'⟩

/-- The values of a conditional have a common type. -/
theorem sound_inferBranches {earlier : Option Ty}
    (hearlier : ∀ t, earlier = some t → t.Within p.Defines) :
    Concurs tokens p k (inferBranches r scope earlier es)
      (inferBranches r' scope earlier es) fun result => (∀ e ∈ result.1, e.Analyzed tokens p.Defines) ∧ result.2.Within p.Defines := by
  induction es using List.twoStepInduction generalizing earlier with
  | nil =>
    refine .pure ⟨by simp, ?_⟩
    cases earlier with
    | none => trivial
    | some t => exact hearlier t rfl
  | singleton default =>
    refine .bind (hes default (by simp) scope scope hscope hscope) fun e he => ?_
    refine .bind (.follow (ruled_mergeBranch hearlier he.operand)) fun t ht => ?_
    exact .pure ⟨by simpa using he, ht⟩
  | cons_cons condition value rest ih _ =>
    refine .bind (hes condition (by simp) scope scope hscope hscope) fun c hc => ?_
    refine .bind (.follow (ruled_requireCoercion hc.area)) fun _ _ => ?_
    refine .bind (hes value (by simp) scope scope hscope hscope) fun v hv => ?_
    refine .bind (.follow (ruled_mergeBranch hearlier hv.operand)) fun t ht => ?_
    have hrest : ∀ e ∈ rest, Infers tokens p k r r' e := fun e he => hes e (by simp [he])
    have hnext : ∀ u, some t = some u → u.Within p.Defines := fun u hu => Option.some.inj hu ▸ ht
    refine .bind (ih hrest hnext) fun result hresult => .pure ⟨?_, hresult.2⟩
    simpa using ⟨hc, hv, hresult.1⟩

end Lists

/-- In every scope the bindings behind a body are analyzed or fail at a place of the source. -/
def InfersBindings (tokens : List Token) (p : Program) (k : Nat) (r r' : String → Check Unit)
    (e : Expr) : Prop :=
  ∀ (scope : Scope) (chain : Bool), scope.Within p.Defines →
    Concurs tokens p k (inferBindings r scope chain e) (inferBindings r' scope chain e) fun e' =>
      e'.Analyzed tokens p.Defines ∧ e'.IsBindings

section Forms

variable {info : Info} (harea : info.area.Among tokens)

include harea

variable {body name callee x : Expr} {args operands : List Expr} {op : Operation}

theorem infers_listMap {bound source : Expr} (hbody : Infers tokens p k r r' body)
    (hbound : bound.area.Among tokens) (hsource : Infers tokens p k r r' source) :
    Infers tokens p k r r' (.operator info .listMap [body, bound, source]) := by
  intro outer scope houter hscope
  refine .bind (hsource outer outer houter houter) fun source' hsource' => ?_
  cases bound with
  | name boundInfo n =>
    refine .bind (.follow (ruled_requireList hsource'.area)) fun _ _ => ?_
    have hitem := over_itemTy hsource'.ty
    refine .bind (hbody outer _ houter (hscope.bind n hitem)) fun body' hbody' => ?_
    have hty : Ruled (Area.Among tokens) (comprehensionTy body') (Ty.Within p.Defines) := by
      unfold comprehensionTy
      split
      · exact hbody'.ty
      · exact .bind (ruled_requireFlat hbody'.area) fun _ _ => hbody'.ty
    refine .bind (.follow hty) fun t ht => .pure ?_
    refine .operator harea ht (fits_of_takes rfl (by simp)) ?_
    simpa using ⟨hbody', .name hbound hitem, hsource'⟩
  | _ => exact .reject hbound

theorem infers_listFilter {list condition : Expr} (hlist : Infers tokens p k r r' list)
    (hcondition : Infers tokens p k r r' condition) :
    Infers tokens p k r r' (.operator info .listFilter [list, condition]) := by
  intro outer scope houter hscope
  refine .bind (hlist scope scope hscope hscope) fun list' hlist' => ?_
  have hinner := within_scopeInside hscope hlist'
  refine .ite (fun _ => ?_) fun _ =>
    .bind (.follow (ruled_requireList hlist'.area)) fun _ _ => ?_
  all_goals
    refine .bind (hcondition _ _ hinner hinner) fun condition' hcondition' => ?_
    refine .bind (.follow (ruled_requireItemCoercion hcondition'.area)) fun _ _ => ?_
    refine .pure (.operator harea hlist'.ty (fits_of_takes rfl (by simp)) ?_)
    simpa using ⟨hlist', hcondition'⟩

theorem infers_memberAccess {subject member : Expr} (hsubject : Infers tokens p k r r' subject)
    (hmember : member.area.Among tokens) :
    Infers tokens p k r r' (.operator info .memberAccess [subject, member]) := by
  intro outer scope houter hscope
  cases member with
  | name memberInfo n =>
    refine .bind (sound_enumSignature? scope subject) fun sig? _ => ?_
    split
    · rename_i sig
      split
      · rename_i v hvariant
        refine .pure (.literal harea ?_)
        obtain ⟨i, -, rfl⟩ := Option.map_eq_some_iff.1 hvariant
        exact Ty.within_user _ sig.name
      · exact .reject hmember
    · refine .bind (hsubject scope scope hscope hscope) fun subject' hsubject' => ?_
      refine .bind (.follow (ruled_memberTy (P := fun u => ∀ n, u = .function n → p.Defines n) harea))
        fun t ht => ?_
      refine .pure ?_
      obtain ⟨hty, hname⟩ := ht
      refine Verdict.analyzed_expr ⟨over_spread hty _, ?_⟩ harea ⟨rfl, ?_, nofun⟩ ?_
      · intro v hv
        obtain ⟨w, -, hcoordinate⟩ := Option.bind_eq_some_iff.1 hv
        exact Value.over_of_isPlain (isPlain_coordinate? hcoordinate)
      · intro _ m hm
        cases hm
        refine ⟨n, rfl, ?_⟩
        rcases hname with rfl | rfl <;> decide
      · simpa using ⟨hsubject', .name hmember hty⟩
  | _ => exact .reject hmember

theorem infers_builtIn (hname : name.area.Among tokens) :
    Infers tokens p k r r' (.operator info .builtIn [name]) := by
  intro outer scope houter hscope
  refine .bind (sound_lookupBuiltin harea hname) fun b hb => ?_
  obtain ⟨nameInfo, n, rfl, hfind⟩ := hb
  exact .pure (analyzed_builtinExpr harea hname (Builtin.over_result hfind))

theorem infers_builtinCall {calleeInfo : Info} (hcallee : calleeInfo.area.Among tokens)
    (hname : name.area.Among tokens) (hargs : ∀ e ∈ args, Infers tokens p k r r' e) :
    Infers tokens p k r r'
      (.operator info .call (.operator calleeInfo .builtIn [name] :: args)) := by
  intro outer scope houter hscope
  refine .bind (sound_lookupBuiltin hcallee hname) fun b hb => ?_
  obtain ⟨nameInfo, n, rfl, hfind⟩ := hb
  split
  · exact .reject harea
  · rename_i hcount
    refine .bind (sound_inferAll hscope hargs) fun args' hargs' => ?_
    rw [← hargs'.2] at hcount
    refine .bind (sound_builtinCall harea hfind hcount) fun v hv => .pure ?_
    refine Verdict.analyzed_expr hv harea (fits_of_takes ?_ (by simp)) ?_
    · simp [takes]
    · have hresult : b.result.Within p.Defines := Builtin.over_result hfind
      exact forall_mem_cons.2 ⟨analyzed_builtinExpr hcallee hname hresult, hargs'.1⟩

theorem infers_call (hp : p.Shaped tokens) (hr : Answers tokens p k r r')
    (hcallee : Infers tokens p k r r' callee) (hargs : ∀ e ∈ args, Infers tokens p k r r' e)
    (hbuiltIn : callee.isOp .builtIn = false) :
    Infers tokens p k r r' (.operator info .call (callee :: args)) := by
  intro outer scope houter hscope
  rw [infer_call hbuiltIn, infer_call hbuiltIn]
  refine .bind (hcallee scope scope hscope hscope) fun callee' hcallee' => ?_
  split
  · rename_i name hty
    -- Only the definitions of the program have a function type.
    have hname : p.Defines name := by
      have hwithin := hcallee'.ty
      rw [hty] at hwithin
      exact Ty.within_function_iff.1 hwithin
    refine .bind (sound_signature?_of_contains (hp.signed name hname)) fun sig? hsig => ?_
    obtain ⟨sig, rfl, -⟩ := hsig
    refine .unless harea fun hcount => ?_
    have hcount : args.length = sig.paramList.length := not_not.1 hcount
    refine .bind (sound_inferArgs hscope hargs _ _ hcount) fun args' hargs' => ?_
    refine .when (fun _ => hr name hname) fun _ => ?_
    refine .bind (sound_knownTy name) fun t ht => .pure ?_
    refine .operator harea ht (fits_of_takes ?_ (by simp)) ?_
    · simp [takes]
    · exact forall_mem_cons.2 ⟨hcallee', hargs'⟩
  · exact .reject hcallee'.area

theorem infers_actionCall (hcallee : callee.area.Among tokens)
    (hargs : ∀ e ∈ args, Infers tokens p k r r' e) :
    Infers tokens p k r r' (.operator info .actionCall (callee :: args)) := by
  intro outer scope houter hscope
  refine .bind (sound_actionSignature scope hcallee _) fun sig hsig => ?_
  obtain ⟨⟨calleeInfo, n, rfl⟩, hcount⟩ := hsig
  refine .bind (sound_inferArgs hscope hargs _ _ hcount) fun args' hargs' => .pure ?_
  have haction := Ty.within_action p.Defines sig.name
  refine .operator harea haction (fits_of_takes ?_ (by simp)) ?_
  · simp [takes]
  · exact forall_mem_cons.2 ⟨.name hcallee haction, hargs'⟩

theorem infers_not (hx : Infers tokens p k r r' x) :
    Infers tokens p k r r' (.operator info .not [x]) := by
  intro outer scope houter hscope
  refine .bind (hx scope scope hscope hscope) fun x' hx' => ?_
  refine .bind (.follow (ruled_requireCoercion hx'.area)) fun _ _ => .pure ?_
  exact Verdict.analyzed_expr (Verdict.plain_negation x').over harea
    (fits_of_takes rfl (by simp)) (by simpa using hx')

theorem infers_connective (hop : op = .and ∨ op = .or) {y : Expr} (hx : Infers tokens p k r r' x)
    (hy : Infers tokens p k r r' y) : Infers tokens p k r r' (.operator info op [x, y]) := by
  intro outer scope houter hscope
  rcases hop with rfl | rfl
  all_goals
    refine .bind (hx scope scope hscope hscope) fun x' hx' => ?_
    refine .bind (.follow (ruled_requireCoercion hx'.area)) fun _ _ => ?_
    refine .bind (hy scope scope hscope hscope) fun y' hy' => ?_
    refine .bind (.follow (ruled_requireCoercion hy'.area)) fun _ _ => .pure ?_
    exact Verdict.analyzed_expr (Verdict.plain_connective _ x' y').over harea
      (fits_of_takes rfl (by simp)) (by simpa using ⟨hx', hy'⟩)

theorem infers_conditional (h : ∀ e ∈ operands, Infers tokens p k r r' e) :
    Infers tokens p k r r' (.operator info .conditional operands) := by
  intro outer scope houter hscope
  refine .bind (sound_inferBranches hscope h (by simp)) fun result hresult => .pure ?_
  exact .operator harea hresult.2 (fits_of_takes rfl (by simp)) hresult.1

theorem infers_assignment : Infers tokens p k r r' (.operator info .assignment operands) := by
  intro outer scope houter hscope
  exact .reject harea

theorem infers_update (hr : Answers tokens p k r r')
    {target value : Expr} (htarget : target.area.Among tokens)
    (hvalue : Infers tokens p k r r' value) :
    Infers tokens p k r r' (.operator info .update [target, value]) := by
  intro outer scope houter hscope
  refine .bind (sound_updateTarget hr scope htarget) fun target' htarget' => ?_
  refine .bind (hvalue scope scope hscope hscope) fun value' hvalue' => ?_
  refine .bind (.follow (ruled_requireCoercion hvalue'.area)) fun _ _ => .pure ?_
  exact .operator harea trivial (fits_of_takes rfl (by simp)) (by simpa using ⟨htarget', hvalue'⟩)

theorem infers_withBinding {bindings : Expr} (hbody : Infers tokens p k r r' body)
    (hbindings : InfersBindings tokens p k r r' bindings) :
    Infers tokens p k r r' (.operator info .withBinding [body, bindings]) := by
  intro outer scope houter hscope
  refine .bind (hbindings scope true hscope) fun bindings' ⟨hanalyzed, hbindings'⟩ => ?_
  have hinner := within_scopeWithBindings hscope hanalyzed
  refine .bind (hbody _ _ hinner hinner) fun body' hbody' => .pure ?_
  exact .operator harea hbody'.ty ⟨rfl, nofun, fun _ _ h => Option.some.inj h ▸ hbindings'⟩
    (by simpa using ⟨hbody', hanalyzed⟩)

omit harea in
theorem sound_requireStarts (hareas : ∀ e ∈ operands, e.area.Among tokens) :
    Sound tokens p k (requireStarts op operands) fun _ => True := by
  unfold requireStarts
  split
  · exact .ite (fun _ => .reject (hareas _ (by simp))) fun _ => .pure trivial
  · exact .pure trivial

theorem infers_judged (hop : isJudged op) (htakes : op.takes operands.length)
    (hareas : ∀ e ∈ operands, e.area.Among tokens) (h : ∀ e ∈ operands, Infers tokens p k r r' e) :
    Infers tokens p k r r' (.operator info op operands) := by
  intro outer scope houter hscope
  have hrest : Concurs tokens p k (inferAll r scope operands >>= conclude info.area op)
      (inferAll r' scope operands >>= conclude info.area op) (Expr.Analyzed tokens p.Defines) := by
    refine .bind (sound_inferAll hscope h) fun operands' hoperands' => ?_
    have htakes' : op.takes operands'.length = true := hoperands'.2 ▸ htakes
    unfold conclude
    rcases ruled_verdict harea hop htakes' hoperands'.1 with ⟨v, hv, hwithin⟩ | ⟨e, he, hlocated⟩
    · rw [hv]
      have hplain : op ≠ .memberAccess ∧ op ≠ .withBinding := by
        constructor <;> (rintro rfl; cases hop)
      exact .pure (Verdict.analyzed_expr hwithin harea
        (fits_of_takes htakes' hplain) hoperands'.1)
    · rw [he]
      exact .throw hlocated
  rw [infer_judged hop, infer_judged hop]
  refine .unless harea fun _ => ?_
  exact .bind (sound_requireStarts hareas) fun _ _ => hrest

end Forms

section Bindings

variable {info : Info} (harea : info.area.Among tokens)

include harea

theorem infersBindings_chain (hty : info.ty.Within p.Defines) {left right : Expr}
    (hleft : InfersBindings tokens p k r r' left)
    (hright : InfersBindings tokens p k r r' right) :
    InfersBindings tokens p k r r' (.operator info .withBinding [left, right]) := by
  intro scope chain hscope
  refine .bind (hleft scope false hscope) fun left' ⟨hleft', hlefts⟩ => ?_
  refine .bind (hright scope chain hscope) fun right' ⟨hright', hrights⟩ => .pure ?_
  refine ⟨.operator harea ?_ ⟨rfl, nofun, fun _ _ h => Option.some.inj h ▸ hrights⟩
    (by simpa using ⟨hleft', hright'⟩), .group hlefts hrights⟩
  cases chain with
  | true => trivial
  | false => exact hty

theorem infersBindings_assignment {target value : Expr} (htarget : target.area.Among tokens)
    (hvalue : Infers tokens p k r r' value) :
    InfersBindings tokens p k r r' (.operator info .assignment [target, value]) := by
  intro scope chain hscope
  cases target with
  | name targetInfo n =>
    refine .bind (hvalue scope scope hscope hscope) fun value' hvalue' => .pure ?_
    exact ⟨.operator harea hvalue'.ty (fits_of_takes rfl (by simp))
      (by simpa using ⟨.name htarget hvalue'.ty, hvalue'⟩), .single⟩
  | _ => exact .throw htarget

end Bindings

section Operators

variable {area : Area} (harea : area.Among tokens) {op : Operation} {operands : List Expr}
  (htakes : op.takes operands.length = true) (hoperands : ∀ e ∈ operands, e.Shaped tokens)
  (hinfers : ∀ e ∈ operands, Infers tokens p k r r' e)
  (hbindings : ∀ e ∈ operands, InfersBindings tokens p k r r' e)

include harea htakes hoperands hinfers

/-- A call takes a callee, and a builtin among the callees takes a name. -/
theorem infers_anyCall (hp : p.Shaped tokens) (hr : Answers tokens p k r r') (hop : op = .call) :
    Infers tokens p k r r' (.operator ⟨.unknown, area⟩ op operands) := by
  subst hop
  obtain ⟨callee, args, rfl⟩ := exists_cons_of_length_pos (of_decide_eq_true htakes)
  obtain ⟨hcallee, hargs⟩ := forall_mem_cons.1 hinfers
  by_cases hbuiltIn : callee.isOp .builtIn = true
  · cases hoperands callee (by simp) with
    | operator hcalleeArea hcalleeTakes hcalleeOperands =>
      obtain rfl := beq_iff_eq.1 hbuiltIn
      obtain ⟨name, rfl⟩ := exists_single hcalleeTakes
      exact infers_builtinCall harea hcalleeArea (hcalleeOperands name (by simp)).area hargs
    | _ => cases hbuiltIn
  · exact infers_call harea hp hr hcallee hargs (by simpa using hbuiltIn)

include hbindings in
theorem infers_operator (hp : p.Shaped tokens) (hr : Answers tokens p k r r') :
    Infers tokens p k r r' (.operator ⟨.unknown, area⟩ op operands) := by
  have hareas : ∀ e ∈ operands, e.area.Among tokens := fun e he => (hoperands e he).area
  by_cases hjudged : isJudged op = true
  · exact infers_judged harea hjudged htakes hareas hinfers
  cases op with
  | listMap =>
    obtain ⟨body, bound, source, rfl⟩ := length_eq_three.1 (beq_iff_eq.1 htakes)
    exact infers_listMap harea (hinfers body (by simp)) (hareas bound (by simp))
      (hinfers source (by simp))
  | listFilter =>
    obtain ⟨list, condition, rfl⟩ := exists_pair htakes
    exact infers_listFilter harea (hinfers list (by simp)) (hinfers condition (by simp))
  | memberAccess =>
    obtain ⟨subject, member, rfl⟩ := exists_pair htakes
    exact infers_memberAccess harea (hinfers subject (by simp)) (hareas member (by simp))
  | builtIn =>
    obtain ⟨name, rfl⟩ := exists_single htakes
    exact infers_builtIn harea (hareas name (by simp))
  | call => exact infers_anyCall harea htakes hoperands hinfers hp hr rfl
  | actionCall =>
    obtain ⟨callee, args, rfl⟩ := exists_cons_of_length_pos (of_decide_eq_true htakes)
    exact infers_actionCall harea (hareas callee (by simp)) (forall_mem_cons.1 hinfers).2
  | not =>
    obtain ⟨x, rfl⟩ := exists_single htakes
    exact infers_not harea (hinfers x (by simp))
  | and | or =>
    obtain ⟨x, y, rfl⟩ := exists_pair htakes
    exact infers_connective harea (by simp) (hinfers x (by simp)) (hinfers y (by simp))
  | conditional => exact infers_conditional harea hinfers
  | assignment => exact infers_assignment harea
  | update =>
    obtain ⟨target, value, rfl⟩ := exists_pair htakes
    exact infers_update harea hr (hareas target (by simp)) (hinfers value (by simp))
  | withBinding =>
    obtain ⟨body, bindings, rfl⟩ := exists_pair htakes
    exact infers_withBinding harea (hinfers body (by simp)) (hbindings bindings (by simp))
  | other n => cases htakes
  | _ => exact absurd rfl hjudged

include hbindings in
/-- What stands behind a body is a chain of assignments, or refused. -/
theorem infersBindings_operator :
    InfersBindings tokens p k r r' (.operator ⟨.unknown, area⟩ op operands) := by
  have hareas : ∀ e ∈ operands, e.area.Among tokens := fun e he => (hoperands e he).area
  by_cases hchain : op = .withBinding
  · subst hchain
    obtain ⟨left, right, rfl⟩ := exists_pair htakes
    have hunknown : Ty.unknown.Within p.Defines := trivial
    exact infersBindings_chain harea hunknown (hbindings left (by simp)) (hbindings right (by simp))
  by_cases hassignment : op = .assignment
  · subst hassignment
    obtain ⟨target, value, rfl⟩ := exists_pair htakes
    exact infersBindings_assignment harea (hareas target (by simp)) (hinfers value (by simp))
  intro scope chain hscope
  unfold inferBindings
  -- The first four cases are about the two operations with bindings, which are dealt with.
  split
  case h_1 heq | h_3 heq =>
    cases heq
    exact absurd rfl hchain
  case h_2 heq | h_4 heq =>
    cases heq
    exact absurd rfl hassignment
  case h_5 => exact .reject harea

end Operators

/-- Every expression that was read is analyzed or refused at a place of the source. -/
theorem infers_of_shaped (hp : p.Shaped tokens) (hr : Answers tokens p k r r') {e : Expr}
    (he : e.Shaped tokens) :
    Infers tokens p k r r' e ∧ InfersBindings tokens p k r r' e := by
  -- Bindings are chains of assignments, so both statements are carried through the tree at once.
  induction he with
  | literal harea hv =>
    refine ⟨fun outer scope houter hscope => ?_, fun scope chain hscope => ?_⟩
    · exact .pure (.literal harea (Value.over_of_isPlain hv))
    · exact .reject harea
  | name harea =>
    refine ⟨fun outer scope houter hscope => ?_, fun scope chain hscope => ?_⟩
    · exact sound_lookup hr hscope harea _
    · exact .reject harea
  | operator harea htakes hoperands ih =>
    have hinfers := fun e he => (ih e he).1
    have hbindings := fun e he => (ih e he).2
    exact ⟨infers_operator harea htakes hoperands hinfers hbindings hp hr,
      infersBindings_operator harea htakes hoperands hinfers hbindings⟩

end Diagram.Typing
