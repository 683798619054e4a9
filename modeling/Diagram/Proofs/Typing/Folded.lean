import Diagram.Proofs.Typing.Merged

/-!
# Types of folded operations

A rule gives an operation a type from the types of its operands alone, whether they are constants
or not, and where it also gives a value the value has this type.  So an operation that is folded
into a constant keeps the type that it has where it is not folded.

Main statements: `Settles.ty_eq`, `Settles.exists_of_ty`, `infer_folded`.
-/

namespace Diagram

open List Option

/-- Whether the type of an expression is that of the constant that it is, if it is one. -/
def Expr.Fits (e : Expr) : Prop :=
  ∀ v, e.value? = some v → e.ty = v.ty

/-- The operands of an operation with other inputs. -/
def Operation.withInputs (op : Operation) (es inputs : List Expr) : List Expr :=
  match op with
  | .memberAccess => inputs ++ es.drop 1
  | .call => es.take 1 ++ inputs
  | _ => inputs

/-- The values of bindings, from left to right. -/
def Expr.boundValues : Expr → List Expr
  | .operator _ .withBinding [left, right] => left.boundValues ++ right.boundValues
  | .operator _ .assignment [_, value] => [value]
  | _ => []

/-- The parts of an operation that are inferred first, one after the other in the scope around
it. -/
def Typing.State.inputs (s : Typing.State) (scope : Scope) : Operation → List Expr → List Expr
  | .memberAccess, subject :: _ => if (s.enum? scope subject).isSome then [] else [subject]
  | .listFilter, list :: _ => [list]
  | .withBinding, [_, bindings] => bindings.boundValues
  | .call, callee :: args => if callee.isOp .builtIn then args else callee :: args
  | .actionCall, _ :: args => args
  | .listMap, _ | .builtIn, _ | .update, _ => []
  | _, es => es

namespace Value

variable {a b w : Value} {t : Ty} {op : Operation}

theorem isSome_vertex? (v : Value) : v.vertex?.isSome = v.ty.isPoint := by
  cases v <;> rfl

theorem isUnknown_ty (v : Value) : v.ty.isUnknown = false := by
  cases v <;> rfl

theorem ty_ofVertex (ht : t.isPoint) (p : Vertex) : (ofVertex t p).ty = t := by
  cases t <;> first | rfl | cases ht

/-- What arithmetic on constants gives is of the type that is asked for. -/
theorem ty_of_arithmetic? (ht : t.isPoint ∨ t = .int ∨ t = .real)
    (h : arithmetic? op a b t = some w) : w.ty = t := by
  unfold arithmetic? at h
  split at h
  · obtain ⟨p, -, rfl⟩ := map_eq_some_iff.1 h
    exact ty_ofVertex ‹_› p
  · rename_i hpoint
    split at h <;> simp only [bind_eq_bind, bind_eq_some_iff] at h
    · obtain ⟨_, -, _, -, _, -, h⟩ := h
      cases h
      exact Eq.symm ‹_›
    · obtain ⟨_, -, _, -, _, -, h⟩ := h
      cases h
      exact (ht.resolve_left hpoint |>.resolve_left ‹_›).symm

/-- A sign keeps the type of a point and makes any other constant a number. -/
theorem ty_of_signed? (h : signed? op a = some w) :
    a.ty.isPoint ∧ w.ty = a.ty ∨
      a.ty.isPoint = false ∧ a.ty.isNumeric ∧ Ty.mergeNumeric a.ty a.ty = .ok w.ty := by
  unfold signed? at h
  cases hvertex : a.vertex? with
  | some p =>
    have hpoint : a.ty.isPoint = true := by simp [← isSome_vertex?, hvertex]
    rw [hvertex] at h
    cases h
    exact .inl ⟨hpoint, ty_ofVertex hpoint _⟩
  | none =>
    rw [hvertex] at h
    right
    cases a <;> first | (cases h; exact ⟨rfl, rfl, rfl⟩) | skip
    all_goals
      dsimp only [number?, integer?] at h
      repeat' split at h
      all_goals cases h
      all_goals exact ⟨rfl, rfl, rfl⟩

end Value

namespace Typing

variable {x y x' y' : Expr} {t : Ty} {area : Area} {op : Operation} {v : Verdict}
  {es es' : List Expr} {w : Value} {R : Resolution} {outer scope : Scope} {s s' : State}

section Values

theorem itemTy_eq_self (h : isList t = false) : itemTy t = t := by
  have hitem : t.item? = none := by simpa [isList] using h
  simp [itemTy, hitem]

theorem isPoint_of_pointType {a b : Ty} (h : Ty.pointType a b = .ok t) : t.isPoint := by
  obtain ⟨u, -, rfl⟩ := map_ok_iff.1 h
  split <;> rfl

/-- Arithmetic on the types of constants gives a point or a number. -/
theorem isPoint_or_eq_of_arithmeticTy? {a b : Value} (h : arithmeticTy? op a.ty b.ty = some t) :
    t.isPoint ∨ t = .int ∨ t = .real := by
  unfold arithmeticTy? scaledPointTy at h
  split at h
  · left
    repeat' split at h
    all_goals cases h
    all_goals rfl
  · unfold Ty.mergeNumeric at h
    simp only [Value.isUnknown_ty, Bool.or_self, Bool.false_eq_true, if_false] at h
    grind

theorem signTy?_of_signed? {a : Value} (h : Value.signed? op a = some w) :
    signTy? a.ty = some w.ty := by
  unfold signTy?
  rcases Value.ty_of_signed? h with ⟨hpoint, hw⟩ | ⟨hpoint, hnumeric, hmerge⟩
  · have hlist : isList a.ty = false := by cases a <;> first | rfl | cases hpoint
    simp [itemTy_eq_self hlist, hpoint, hw]
  · have hlist : isList a.ty = false := by cases a <;> first | rfl | cases hnumeric
    simp [itemTy_eq_self hlist, hpoint, hnumeric, a.isUnknown_ty, hmerge, spread, hlist,
      Except.toOption]

/-- A value that a rule gives has the type that it gives. -/
theorem Settles.ty_eq (h : Settles op es v) (hes : ∀ e ∈ es, e.Fits) (hw : v.value = some w) :
    w.ty = v.ty := by
  cases h with
  | not =>
    obtain ⟨b, -, rfl⟩ := map_eq_some_iff.1 hw
    rfl
  | connective =>
    obtain ⟨a, -, hw⟩ := bind_eq_some_iff.1 hw
    obtain ⟨b, -, hw⟩ := bind_eq_some_iff.1 hw
    cases hw
    rfl
  | point h =>
    obtain ⟨-, -, t, ht, rfl⟩ := point_eq_ok_iff.1 h
    obtain ⟨-, -, hty, a, b, -, -, hw⟩ := of_value_itemwise hw
    cases hw
    rw [hty, Value.ty_ofVertex (isPoint_of_pointType ht)]
  | listLiteral h =>
    obtain ⟨t, -, rfl⟩ := listLiteral_eq_ok_iff.1 h
    obtain ⟨values, -, hw⟩ := bind_eq_some_iff.1 hw
    split at hw <;> cases hw
    rfl
  | sign _ h =>
    obtain ⟨t, ht, rfl⟩ := sign_eq_ok_iff.1 h
    obtain ⟨a, ha, hw⟩ := bind_eq_some_iff.1 hw
    rw [hes _ (by simp) a ha, signTy?_of_signed? hw] at ht
    exact some.inj ht
  | arithmetic _ h =>
    obtain ⟨t, ht, rfl⟩ := arithmetic_eq_ok_iff.1 h
    obtain ⟨hx, hy, hty, a, b, ha, hb, hw⟩ := of_value_itemwise hw
    rw [itemTy_eq_self hx, itemTy_eq_self hy, hes _ (by simp) a ha, hes _ (by simp) b hb] at ht
    rw [hty, Value.ty_of_arithmetic? (isPoint_or_eq_of_arithmeticTy? ht) hw]
  | comparison _ h =>
    obtain ⟨-, rfl⟩ := comparison_eq_ok_iff.1 h
    obtain ⟨-, -, hty, a, b, -, -, hw⟩ := of_value_itemwise hw
    obtain ⟨c, -, hw⟩ := bind_eq_some_iff.1 hw
    cases hw
    rw [hty]
    rfl
  | conditional => cases hw
  | listFill h =>
    obtain ⟨-, -, rfl⟩ := listFill_eq_ok_iff.1 h
    cases hw
  | index h =>
    obtain ⟨-, -, rfl⟩ := index_eq_ok_iff.1 h
    cases hw
  | range _ h =>
    obtain ⟨-, rfl⟩ := range_eq_ok_iff.1 h
    cases hw

end Values

theorem exists_of_map_ty_eq_pair (hes : es'.map Expr.ty = [x, y].map Expr.ty) :
    ∃ x' y', es' = [x', y'] ∧ x'.ty = x.ty ∧ y'.ty = y.ty := by
  obtain ⟨x', _, rfl, hx, htail⟩ := map_eq_cons_iff.1 hes
  obtain ⟨y', rfl, hy⟩ := map_eq_singleton_iff.1 htail
  exact ⟨x', y', rfl, hx, hy⟩

/-- A rule that gives a value gives the same type to all operands of the same types, at every
place. -/
theorem Settles.exists_of_ty (h : Settles op es v) (hw : v.value = some w)
    (hes : es'.map Expr.ty = es.map Expr.ty) :
    (∃ v', Settles op es' v' ∧ v'.ty = v.ty) ∧ ∀ (scope : Scope) n, scope.Permits op n := by
  cases h with
  | not hbool =>
    obtain ⟨x', rfl, hx⟩ := map_eq_singleton_iff.1 hes
    exact ⟨⟨_, .not (hx ▸ hbool), rfl⟩, fun _ _ => ⟨nofun, nofun⟩⟩
  | connective hop hbool hbool' =>
    obtain ⟨x', y', rfl, hx, hy⟩ := exists_of_map_ty_eq_pair hes
    refine ⟨⟨_, .connective hop (hx ▸ hbool) (hy ▸ hbool'), rfl⟩, fun _ _ => ?_⟩
    rcases hop with rfl | rfl <;> exact ⟨nofun, nofun⟩
  | point h =>
    obtain ⟨x', y', rfl, hx, hy⟩ := exists_of_map_ty_eq_pair hes
    obtain ⟨hreal, hreal', t, ht, rfl⟩ := point_eq_ok_iff.1 h
    rw [← hx, ← hy] at ht
    exact ⟨⟨_, .point (point_eq_ok_iff.2 ⟨hx ▸ hreal, hy ▸ hreal', t, ht, rfl⟩),
      by simp only [ty_itemwise, hx, hy]⟩, fun _ _ => ⟨nofun, nofun⟩⟩
  | listLiteral h =>
    obtain ⟨t, ht, rfl⟩ := listLiteral_eq_ok_iff.1 h
    rw [listItemTy_eq_ok_iff, ← hes, ← listItemTy_eq_ok_iff] at ht
    exact ⟨⟨_, .listLiteral (listLiteral_eq_ok_iff.2 ⟨t, ht, rfl⟩), rfl⟩, fun _ _ => ⟨nofun, nofun⟩⟩
  | sign hop h =>
    obtain ⟨x', rfl, hx⟩ := map_eq_singleton_iff.1 hes
    obtain ⟨t, ht, rfl⟩ := sign_eq_ok_iff.1 h
    refine ⟨⟨_, .sign hop (sign_eq_ok_iff.2 ⟨t, hx ▸ ht, rfl⟩), rfl⟩, fun _ _ => ?_⟩
    rcases hop with rfl | rfl <;> exact ⟨nofun, nofun⟩
  | arithmetic hop h =>
    obtain ⟨x', y', rfl, hx, hy⟩ := exists_of_map_ty_eq_pair hes
    obtain ⟨t, ht, rfl⟩ := arithmetic_eq_ok_iff.1 h
    rw [← hx, ← hy] at ht
    refine ⟨⟨_, .arithmetic hop (arithmetic_eq_ok_iff.2 ⟨t, ht, rfl⟩),
      by simp only [ty_itemwise, hx, hy]⟩, fun _ _ => ?_⟩
    cases op <;> cases hop <;> exact ⟨nofun, nofun⟩
  | comparison hop h =>
    obtain ⟨x', y', rfl, hx, hy⟩ := exists_of_map_ty_eq_pair hes
    obtain ⟨hcompares, rfl⟩ := comparison_eq_ok_iff.1 h
    rw [← hx, ← hy] at hcompares
    refine ⟨⟨_, .comparison hop (comparison_eq_ok_iff.2 ⟨hcompares, rfl⟩),
      by simp only [ty_itemwise, hx, hy]⟩, fun _ _ => ?_⟩
    cases op <;> cases hop <;> exact ⟨nofun, nofun⟩
  | conditional => cases hw
  | listFill h =>
    obtain ⟨-, -, rfl⟩ := listFill_eq_ok_iff.1 h
    cases hw
  | index h =>
    obtain ⟨-, -, rfl⟩ := index_eq_ok_iff.1 h
    cases hw
  | range _ h =>
    obtain ⟨-, rfl⟩ := range_eq_ok_iff.1 h
    cases hw

section Calls

variable {b : Builtin} {n : String}

/-- What a call of a builtin is computed to is of the type of its calls. -/
theorem ty_of_callVerdict? (hfind : Builtin.find? n = some b) (h : callVerdict? b es = some v) :
    v.ty = b.result ∧ ∀ w, v.value = some w → w.ty = b.result := by
  unfold callVerdict? at h
  split at h
  · rename_i f vs hfold hvalues
    split at h <;> cases h
    refine ⟨rfl, fun w hw => ?_⟩
    cases hw
    rw [Builtin.ty_of_run ‹_›]
    rcases Builtin.eq_of_find?_eq_some hfind with ⟨m, rfl⟩ | rfl | rfl | rfl | rfl <;>
      cases hfold <;> rfl
  · cases h
    exact ⟨rfl, nofun⟩

/-- A call with an argument that is no constant is not computed. -/
theorem callVerdict?_of_not_isLiteral (h : ∃ e ∈ es, e.isLiteral = false) :
    callVerdict? b es = some (.typed b.result) := by
  obtain ⟨e, he, hliteral⟩ := h
  unfold callVerdict?
  cases hvalues : es.mapM Expr.value? with
  | none => cases b.fold <;> rfl
  | some vs =>
    rw [isLiteral_of_mapM hvalues e he] at hliteral
    cases hliteral

end Calls

theorem Derives.fits (h : Derives R outer scope x s x' s') : x'.Fits := by
  intro v hv
  obtain ⟨area, rfl⟩ := h.eq_constant hv
  rfl

theorem DerivesAll.fits {R : Resolution} {scope : Scope} {es es' : List Expr} {s s' : State}
    (h : DerivesAll R scope es s es' s') : ∀ e ∈ es', e.Fits := by
  induction es generalizing s es' with
  | nil =>
    cases h
    simp
  | cons e es ih =>
    cases h with
    | cons hhead htail => exact forall_mem_cons.2 ⟨hhead.fits, ih htail⟩

theorem ty_expr (h : ∀ w, v.value = some w → w.ty = v.ty) : (v.expr area op es).ty = v.ty := by
  unfold Verdict.expr
  cases hw : v.value with
  | none => rfl
  | some w => exact h w hw

/-- A coordinate of a constant has the type of the coordinates of its type. -/
theorem ty_of_coordinate? {m : String} {a : Value} (hx : x.ty = a.ty)
    (hty : (memberTy .nowhere x m).toOption = some t) (h : coordinate? m a = some w) :
    w.ty = spread t [x.ty] := by
  unfold memberTy at hty
  rw [hx] at hty ⊢
  cases a <;> cases h
  all_goals
    dsimp only at hty
    split at hty <;> cases hty
    rfl

/-- Whether an operation on operands gives a variant of an enumeration. -/
def State.GivesVariant (s : State) (scope : Scope) (op : Operation) (es : List Expr) : Prop :=
  op = .memberAccess ∧ ∃ subject ∈ es.head?, s.enum? scope subject ≠ none

theorem inferAll_iff_derivesAll {r : String → Check Unit} {scope : Scope} {es es' : List Expr}
    {s s' : State} : inferAll r scope es s = .ok es' s' ↔ DerivesAll (.of r) scope es s es' s' :=
  inferAll_eq_ok_iff fun e _ => (exact_of_expr r e).1

/-- Whether an operation is of a type wherever its inputs are of some types.  It is a constant only
if they all are.  A call on constants alone is never left as it is. -/
def HasTy (op : Operation) (es : List Expr) (types : List Ty) (t : Ty) : Prop :=
  ∀ (r : String → Check Unit) (outer scope : Scope) (info : Info) (s s₁ : State)
    (inputs inputs' : List Expr), inferAll r scope inputs s = .ok inputs' s₁ →
    inputs'.map Expr.ty = types → ¬s.GivesVariant scope op inputs →
    (op = .call → ∃ x ∈ inputs', x.isLiteral = false) →
    ∃ e s₂, infer r outer scope (.operator info op (op.withInputs es inputs)) s = .ok e s₂ ∧
      e.ty = t ∧ (e.isLiteral = true → ∀ x ∈ inputs', x.isLiteral = true)

theorem value?_expr : (v.expr area op es).value? = v.value := by
  unfold Verdict.expr
  cases v.value <;> rfl

section Forms

variable {m n : String} {subject : Expr} {i i' : Info} {b : Builtin}

theorem hasTy_member (hty : (memberTy .nowhere x m).toOption = some t) :
    HasTy .memberAccess [subject, .name i m] [x.ty] (spread t [x.ty]) := by
  intro r outer scope info s s₁ ys ys' hys htypes hvariant _
  obtain ⟨y', rfl, hy'⟩ := map_eq_singleton_iff.1 htypes
  have hderives := inferAll_iff_derivesAll.1 hys
  rcases hderives with _ | ⟨hhead, ⟨⟩⟩
  have henum : s.enum? scope _ = none := not_not.1 fun h => hvariant ⟨rfl, _, rfl, h⟩
  have hty' : (memberTy .nowhere y' m).toOption = some t := by
    unfold memberTy at hty ⊢
    rw [hy']
    dsimp only at hty ⊢
    split at hty
    · rw [if_pos ‹_›]
      exact hty
    · cases hty
  refine ⟨_, _, infer_eq_ok_iff.2 (.member henum hhead hty'), ?_, fun h => ?_⟩
  · rw [ty_expr, hy']
    intro w hw
    obtain ⟨a, ha, hw⟩ := bind_eq_some_iff.1 hw
    exact ty_of_coordinate? (hhead.fits a ha) hty' hw
  · obtain ⟨w, hw⟩ := value_of_isLiteral_expr h
    obtain ⟨a, ha, -⟩ := bind_eq_some_iff.1 hw
    simpa using isLiteral_of_value? ha

theorem hasTy_builtinCall (hfind : Builtin.find? n = some b)
    (harity : b.checkArity es.length = .ok ()) (hes : DerivesAll R scope es s es' s') :
    HasTy .call (.operator i .builtIn [.name i' n] :: es) (es'.map Expr.ty) b.result := by
  intro r outer scope info s s₁ ys ys' hys htypes _ hopen
  have hderives := inferAll_iff_derivesAll.1 hys
  have hcount : es.length = ys.length := by
    rw [← hes.length_eq, ← hderives.length_eq]
    simpa using (congrArg List.length htypes).symm
  have hverdict := callVerdict?_of_not_isLiteral (b := b) (hopen rfl)
  exact ⟨_, _, infer_eq_ok_iff.2 (.builtinCall hfind (hcount ▸ harity) hderives hverdict), rfl,
    nofun⟩

theorem hasTy_operands (hverdict : settle? op es' = some v) (hw : v.value = some w) :
    HasTy op es (es'.map Expr.ty) v.ty := by
  intro r outer scope info s s₁ ys ys' hys htypes _ _
  have hderives := inferAll_iff_derivesAll.1 hys
  have hsettles := settle?_eq_some_iff.1 hverdict
  obtain ⟨⟨v', hsettles', hv'⟩, hpermits⟩ := hsettles.exists_of_ty hw htypes
  have hop := hsettles.isSettled
  have hinputs : op.withInputs es ys = ys := by cases op <;> first | rfl | cases hop
  rw [hinputs]
  have hverdict' := settle?_eq_some_iff.2 hsettles'
  refine ⟨_, _, infer_eq_ok_iff.2 (.operands (hpermits _ _) hderives hverdict'), ?_, fun h => ?_⟩
  · rw [ty_expr fun w hw => hsettles'.ty_eq hderives.fits hw, hv']
  · obtain ⟨w, hw⟩ := value_of_isLiteral_expr h
    exact isLiteral_of_settle? hverdict' hw

end Forms

/-- An operation that is folded is of the type of the constant, and so it is wherever its inputs
have the types that they have here.  The variants of enumerations are no operations on values. -/
theorem infer_folded {r : String → Check Unit} {info i : Info}
    (h : infer r outer scope (.operator info op es) s = .ok (.literal i w) s')
    (hvariant : ¬s.GivesVariant scope op es) :
    i.ty = w.ty ∧ ∃ xs s₁, inferAll r scope (s.inputs scope op es) s = .ok xs s₁ ∧
      HasTy op es (xs.map Expr.ty) w.ty := by
  have hderives := infer_eq_ok_iff.1 h
  refine ⟨hderives.fits w rfl, ?_⟩
  simp only [inferAll_iff_derivesAll]
  generalize he' : Expr.literal i w = e' at hderives
  have hvalue : e'.value? = some w := he' ▸ rfl
  cases hderives with
  | variant henum => exact absurd ⟨rfl, _, rfl, by simp [henum]⟩ hvariant
  | member henum hsubject hty =>
    rw [value?_expr] at hvalue
    obtain ⟨a, ha, hw⟩ := bind_eq_some_iff.1 hvalue
    have hone := DerivesAll.cons hsubject .nil
    refine ⟨_, _, by simpa [State.inputs, henum] using hone, ?_⟩
    rw [ty_of_coordinate? (hsubject.fits a ha) hty hw]
    exact hasTy_member hty
  | builtinCall hfind harity hargs hverdict =>
    rw [value?_expr] at hvalue
    refine ⟨_, _, hargs, ?_⟩
    rw [(ty_of_callVerdict? hfind hverdict).2 w hvalue]
    exact hasTy_builtinCall hfind harity hargs
  | operands _ hoperands hverdict =>
    rw [value?_expr] at hvalue
    have hsettles := settle?_eq_some_iff.1 hverdict
    have hinputs : s.inputs scope op es = es := by
      have hop := hsettles.isSettled
      cases op <;> first | rfl | cases hop
    refine ⟨_, _, hinputs ▸ hoperands, ?_⟩
    rw [hsettles.ty_eq hoperands.fits hvalue]
    exact hasTy_operands hverdict hvalue
  | _ => cases he'

/-- The sum of a number and a truth value is a number, also where they are not constants. -/
theorem infer_folded_sum :
    let s : State := ⟨.empty, .empty, .empty, []⟩
    let operands := [Expr.constant (.int 1) .nowhere, .constant (.bool true) .nowhere]
    infer (fun _ => pure ()) .top .top (.operator ⟨.unknown, .nowhere⟩ .add operands) s =
        .ok (.constant (.int 2) .nowhere) s ∧
      ¬s.GivesVariant .top .add operands ∧ HasTy .add operands [.int, .bool] .int := by
  intro s operands
  have hpermits : Scope.top.Permits .add 2 := ⟨nofun, nofun⟩
  have hderives : Derives (.of fun _ => pure ()) .top .top
      (.operator ⟨.unknown, .nowhere⟩ .add operands) s (.constant (.int 2) .nowhere) s :=
    .operands (v := ⟨.int, some (.int 2)⟩) hpermits (.cons .literal (.cons .literal .nil)) rfl
  have hvariant : ¬s.GivesVariant .top .add operands := nofun
  obtain ⟨-, xs, s₁, hxs, hty⟩ := infer_folded (infer_eq_ok_iff.2 hderives) hvariant
  rcases inferAll_iff_derivesAll.1 hxs with _ | ⟨⟨⟩, _ | ⟨⟨⟩, ⟨⟩⟩⟩
  exact ⟨infer_eq_ok_iff.2 hderives, hvariant, hty⟩

end Typing

end Diagram
