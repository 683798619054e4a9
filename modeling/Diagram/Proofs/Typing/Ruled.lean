import Diagram.Proofs.Formula.Ready
import Diagram.Scope
import Diagram.Typing.Rules

/-!
# What rules give

A rule that is followed on analyzed operands gives a type that names only functions with a
definition, and a constant, if it gives one, of such a type.  A rule that is broken is broken at
one of the operands or at the operation.

Main statement: `ruled_verdict`.
-/

namespace Diagram

open List Option

/-- An expression after its analysis.  Its types name only functions that satisfy `D`. -/
inductive Expr.Analyzed (tokens : List Token) (D : String → Prop) : Expr → Prop
  | literal {area v} (harea : area.Among tokens) (hv : v.ty.Within D) :
      Analyzed tokens D (.literal ⟨v.ty, area⟩ v)
  | name {info n} (harea : info.area.Among tokens) (hty : info.ty.Within D) :
      Analyzed tokens D (.name info n)
  | timeStep {info} (harea : info.area.Among tokens) (hty : info.ty.Within D) :
      Analyzed tokens D (.timeStep info)
  | operator {info op operands} (harea : info.area.Among tokens) (hty : info.ty.Within D)
      (hfits : op.Fits operands) (hoperands : ∀ e ∈ operands, Analyzed tokens D e) :
      Analyzed tokens D (.operator info op operands)

variable {tokens : List Token} {D : String → Prop} {P : Ty → Prop}

/-- An operand at a place that satisfies `A`, of a type that names only what satisfies `P`. -/
def Expr.Operand (A : Area → Prop) (P : Ty → Prop) (e : Expr) : Prop :=
  A e.area ∧ e.ty.Over P

namespace Expr.Analyzed

variable {e : Expr}

variable (h : e.Analyzed tokens D)

include h

theorem area : e.area.Among tokens := by
  cases h with
  | literal harea _ | name harea _ | timeStep harea _ | operator harea _ _ _ => exact harea

theorem ty : e.ty.Within D := by
  cases h with
  | literal _ hv | name _ hv | timeStep _ hv | operator _ hv _ _ => exact hv

theorem operand : e.Operand (Area.Among tokens) fun u => ∀ n, u = .function n → D n :=
  ⟨h.area, h.ty⟩

theorem value {v : Value} (hv : e.value? = some v) : v.ty.Within D := by
  cases h with
  | literal _ hty =>
    cases hv
    exact hty
  | _ => cases hv

theorem ready : e.Ready := by
  induction h with
  | literal _ _ => exact .literal
  | name _ _ => exact .name
  | timeStep _ _ => exact .timeStep
  | operator _ _ hfits _ ih => exact .operator hfits ih

end Expr.Analyzed

/-- What the types of the local names of a scope name satisfies `P`. -/
def Scope.Over (P : Ty → Prop) (scope : Scope) : Prop :=
  ∀ n t, scope.get? n = some t → t.Over P

/-- The types of the local names of a scope name only functions that satisfy `D`. -/
abbrev Scope.Within (D : String → Prop) (scope : Scope) : Prop :=
  scope.Over fun u => ∀ n, u = .function n → D n

namespace Scope

theorem over_top : Scope.top.Over P := by
  intro n t h
  cases h

variable {scope : Scope}

theorem Over.bind (h : scope.Over P) (name : String) {t : Ty} (ht : t.Over P) :
    (scope.bind name t).Over P :=
  NameMap.forall_get?_insert h ht

theorem Over.withParams (h : scope.Over P) {params : List Param}
    (hparams : ∀ q ∈ params, q.ty.Over P) : (scope.withParams params).Over P := by
  induction params generalizing scope with
  | nil => exact h
  | cons q qs ih =>
    obtain ⟨hq, hqs⟩ := forall_mem_cons.1 hparams
    exact ih (h.bind q.name hq) hqs

end Scope

variable {v : Value}

theorem Value.over_of_isPlain (h : v.ty.isPlain) : v.ty.Over P := by
  cases v with
  | list item items => cases h
  | _ => trivial

namespace Builtin

variable {name : String} {b : Builtin} {args : List Value}

/-- A builtin that was found is a command that nothing is known of, or it makes a color or a
shape. -/
theorem eq_of_find?_eq_some (h : find? name = some b) :
    (∃ n, b = ⟨n, none, .unknown, none⟩) ∨ b = ⟨"rgb", some 3, .color, some (.color .rgb)⟩ ∨
      b = ⟨"hsv", some 3, .color, some (.color .hsv)⟩ ∨
      b = ⟨"polygon", none, .polygon, some .polygon⟩ ∨
      b = ⟨"segment", some 2, .segment, some .segment⟩ := by
  have hmem : b ∈ all := mem_of_find?_eq_some h
  rcases mem_append.1 hmem with hcommand | hconstructor
  · obtain ⟨n, -, rfl⟩ := List.mem_map.1 hcommand
    exact .inl ⟨n, rfl⟩
  · exact .inr (by simpa [constructors] using hconstructor)

/-- Where the name of a builtin was found, the type of its calls names nothing. -/
theorem over_result (h : find? name = some b) : b.result.Over P := by
  rcases eq_of_find?_eq_some h with ⟨n, rfl⟩ | rfl | rfl | rfl | rfl <;> trivial

theorem length_channels {i : Nat} {vs : List Value} {xs : List Float}
    (h : channels i vs = .ok xs) : xs.length = vs.length := by
  induction vs generalizing i xs with
  | nil =>
    cases h
    rfl
  | cons v vs ih =>
    unfold channels at h
    split at h
    · cases h
    · obtain ⟨ys, hys, rfl⟩ := map_ok_iff.1 h
      simp [ih hys]

theorem run_color_ne_none {model : ColorModel} (hcount : args.length = 3) :
    (Fold.color model).run args ≠ .ok none := by
  intro hrun
  obtain ⟨xs, hxs, h⟩ := map_ok_iff.1 hrun
  obtain ⟨a, b, c, rfl⟩ := length_eq_three.1 ((length_channels hxs).trans hcount)
  cases h

theorem run_segment_ne_none (hcount : args.length = 2) : Fold.segment.run args ≠ .ok none := by
  intro hrun
  obtain ⟨a, b, rfl⟩ := length_eq_two.1 hcount
  unfold Fold.run at hrun
  dsimp only at hrun
  split at hrun <;> cases hrun

/-- A call with as many constants as a builtin takes is computed or refused. -/
theorem run_ne_none (h : find? name = some b) {f : Fold} (hfold : b.fold = some f)
    (hcount : b.checkArity args.length = .ok ()) : f.run args ≠ .ok none := by
  have harity : ∀ n, b.arity = some n → args.length = n := by
    intro n hn
    unfold checkArity at hcount
    rw [hn] at hcount
    dsimp only at hcount
    split at hcount
    case isTrue heq => exact heq.symm
    case isFalse => cases hcount
  rcases eq_of_find?_eq_some h with ⟨n, rfl⟩ | rfl | rfl | rfl | rfl
  · cases hfold
  · cases hfold
    exact run_color_ne_none (harity 3 rfl)
  · cases hfold
    exact run_color_ne_none (harity 3 rfl)
  · cases hfold
    intro hrun
    obtain ⟨vs, -, h⟩ := map_ok_iff.1 hrun
    cases h
  · cases hfold
    exact run_segment_ne_none (harity 2 rfl)

/-- The type of what a kind of calls is computed to. -/
def Fold.ty : Builtin.Fold → Ty
  | .color _ => .color
  | .polygon => .polygon
  | .segment => .segment

/-- What a call with constant arguments is computed to is of the type of its kind of calls. -/
theorem ty_of_run {f : Builtin.Fold} (h : f.run args = .ok (some v)) : v.ty = Fold.ty f := by
  cases f with
  | color model =>
    obtain ⟨xs, -, h⟩ := map_ok_iff.1 h
    split at h <;> cases h
    rfl
  | polygon =>
    obtain ⟨vs, -, h⟩ := map_ok_iff.1 h
    cases h
    rfl
  | segment =>
    unfold Builtin.Fold.run at h
    dsimp only at h
    repeat' split at h
    all_goals cases h
    rfl

theorem isPlain_run {f : Builtin.Fold} (h : f.run args = .ok (some v)) : v.ty.isPlain := by
  rw [ty_of_run h]
  cases f <;> rfl

end Builtin

/-- A constant in the representation of another type has its old type or that one, if it is a
list. -/
theorem Value.over_convert {t : Ty} (ht : t.Over P) (hv : v.ty.Over P) :
    (v.convert t).ty.Over P := by
  cases v with
  | list item items =>
    unfold convert
    split
    · split
      · exact hv
      · exact ht
    · exact hv
  | int i | ipoint x y =>
    unfold convert
    split <;> trivial
  | bool b | enum name variant ordinal =>
    unfold convert convert.convertNumber
    split <;> trivial
  | _ => trivial

namespace Typing

variable {t a b : Ty} {area : Area} {op : Operation} {operands : List Expr}

theorem over_itemTy (h : t.Over P) : (itemTy t).Over P := by
  cases t <;> exact h

theorem over_spread {item : Ty} (h : item.Over P) (operands : List Ty) :
    (spread item operands).Over P := by
  unfold spread
  split <;> exact h

/-- The common type of two types is one of them, or unknown. -/
theorem over_merge (ha : a.Over P) (hb : b.Over P) (h : Ty.merge a b = .ok t) : t.Over P := by
  unfold Ty.merge at h
  repeat' split at h
  all_goals cases h
  · trivial
  · exact hb
  · exact ha

theorem over_mergeNumeric (h : Ty.mergeNumeric a b = .ok t) : t.Over P := by
  unfold Ty.mergeNumeric at h
  repeat' split at h
  all_goals cases h
  all_goals trivial

theorem over_pointType (h : Ty.pointType a b = .ok t) : t.Over P := by
  obtain ⟨u, -, rfl⟩ := map_ok_iff.1 h
  split <;> trivial

/-- A rule gives what satisfies `Q`, or is broken at a place that satisfies `A`. -/
def Ruled {α : Type} (A : Area → Prop) (r : Ruling α) (Q : α → Prop) : Prop :=
  match r with
  | .ok a => Q a
  | .error e => A e.area

/-- What the types of a verdict and of its constant name, if it has one, satisfies `P`. -/
def Verdict.Over (P : Ty → Prop) (v : Verdict) : Prop :=
  v.ty.Over P ∧ ∀ x, v.value = some x → x.ty.Over P

/-- A verdict whose type names what satisfies `P`, with no constant or a plain one. -/
def Verdict.Plain (P : Ty → Prop) (v : Verdict) : Prop :=
  v.ty.Over P ∧ ∀ x, v.value = some x → x.ty.isPlain = true

theorem Verdict.Plain.over {v : Verdict} (h : v.Plain P) : v.Over P :=
  ⟨h.1, fun x hx => Value.over_of_isPlain (h.2 x hx)⟩

/-- A verdict and its constant, if it has one, are of types that name only functions that satisfy
`D`. -/
abbrev Verdict.Within (D : String → Prop) (v : Verdict) : Prop :=
  v.Over fun u => ∀ n, u = .function n → D n

section Rules

variable {A : Area → Prop} {α β : Type} {Q : α → Prop} {e x a b : Expr} {t : Ty} {area : Area}
  {items : List Expr} {op : Operation} {v w : Value} {member : String}

variable {r : Ruling α}

protected theorem Ruled.bind {f : α → Ruling β} {R : β → Prop} (hr : Ruled A r Q)
    (hf : ∀ a, Q a → Ruled A (f a) R) : Ruled A (r >>= f) R := by
  cases r with
  | ok a => exact hf a hr
  | error e => exact hr

theorem Ruled.imp {R : α → Prop} (h : Ruled A r Q) (hQ : ∀ a, Q a → R a) :
    Ruled A r R := by
  cases r with
  | ok a => exact hQ a h
  | error e => exact h

variable (h : A e.area)

include h

protected theorem Ruled.refuse {cause : Cause} :
    Ruled A (refuse e cause : Ruling α) Q := h

theorem ruled_requireCoercion : Ruled A (requireCoercion e t) fun _ => True := by
  unfold requireCoercion
  split
  · trivial
  · exact .refuse h

theorem ruled_requireItemCoercion : Ruled A (requireItemCoercion e t) fun _ => True := by
  unfold requireItemCoercion
  split
  · trivial
  · exact .refuse h

theorem ruled_requireFlat : Ruled A (requireFlat e) fun _ => True := by
  unfold requireFlat
  split
  · exact .refuse h
  · trivial

theorem ruled_requireList {cause : Ty → Cause} : Ruled A (requireList e cause) fun _ => True := by
  unfold requireList
  split
  · trivial
  · exact .refuse h

omit h

theorem ruled_of_eq_ok {a : α} (h : Ruled A r Q) (hr : r = .ok a) : Q a := by
  subst hr
  exact h

theorem Verdict.plain_typed (h : t.Over P) : (Verdict.typed t).Plain P :=
  ⟨h, by simp [Verdict.typed]⟩

theorem isPlain_ofVertex (t : Ty) (v : Vertex) : (Value.ofVertex t v).ty.isPlain := by
  unfold Value.ofVertex
  split <;> rfl

theorem ruled_point (harea : A area) {y : Expr} (hx : A x.area)
    (hy : A y.area) : Ruled A (point area x y) (Verdict.Plain P) := by
  refine .bind (ruled_requireItemCoercion hx) fun _ _ => ?_
  refine .bind (ruled_requireItemCoercion hy) fun _ _ => ?_
  split
  · exact harea
  · rename_i t ht
    have hty : t.Over P := over_pointType ht
    split
    · exact Verdict.plain_typed hty
    · refine ⟨hty, fun v hv => ?_⟩
      obtain ⟨vx, -, hv⟩ := bind_eq_some_iff.1 hv
      obtain ⟨vy, -, hv⟩ := bind_eq_some_iff.1 hv
      cases hv
      exact isPlain_ofVertex _ _

theorem ruled_mergeItems (ht : t.Over P) (h : ∀ e ∈ items, e.Operand A P) :
    Ruled A (mergeItems t items) (Ty.Over P) := by
  induction items generalizing t with
  | nil => exact ht
  | cons x xs ih =>
    obtain ⟨hx, hxs⟩ := forall_mem_cons.1 h
    refine .bind (ruled_requireFlat hx.1) fun _ _ => ?_
    split
    · rename_i merged hmerge
      exact ih (over_merge ht hx.2 hmerge) hxs
    · exact .refuse hx.1

theorem ruled_listLiteral (h : ∀ e ∈ items, e.Operand A P) :
    Ruled A (listLiteral items) (Verdict.Over P) := by
  have hitem : Ruled A (listItemTy items) (Ty.Over P) := by
    unfold listItemTy
    split
    · trivial
    · obtain ⟨hx, hxs⟩ := forall_mem_cons.1 h
      exact .bind (ruled_requireFlat hx.1) fun _ _ => ruled_mergeItems hx.2 hxs
  refine .bind hitem fun t ht => ⟨ht, fun v hv => ?_⟩
  obtain ⟨values, -, hv⟩ := bind_eq_some_iff.1 hv
  split at hv
  · cases hv
  · cases hv
    exact ht

theorem ruled_listFill {item count : Expr} (hitem : item.Operand A P)
    (hcount : count.Operand A P) :
    Ruled A (listFill item count) (Verdict.Plain P) := by
  refine .bind (ruled_requireFlat hitem.1) fun _ _ => ?_
  refine .bind (ruled_requireCoercion hcount.1) fun _ _ => ?_
  exact Verdict.plain_typed hitem.2

theorem ruled_index {list number : Expr} (hlist : list.Operand A P)
    (hnumber : number.Operand A P) :
    Ruled A (index list number) (Verdict.Plain P) := by
  refine .bind (ruled_requireList hlist.1) fun _ _ => ?_
  refine .bind (ruled_requireCoercion hnumber.1) fun _ _ => ?_
  exact Verdict.plain_typed (over_itemTy hlist.2)

theorem isPlain_signed? (h : Value.signed? op v = some w) : w.ty.isPlain := by
  cases hpoint : v.vertex? with
  | some p =>
    simp only [Value.signed?, hpoint, Option.some.injEq] at h
    subst h
    exact isPlain_ofVertex _ _
  | none =>
    simp only [Value.signed?, hpoint] at h
    repeat' split at h
    all_goals cases h
    all_goals rfl

theorem ruled_sign (hx : x.Operand A P) : Ruled A (sign op x) (Verdict.Plain P) := by
  have hverdict : ∀ t : Ty, t.Over P → Verdict.Plain P ⟨t, x.value?.bind (Value.signed? op)⟩ := by
    refine fun t ht => ⟨ht, fun v hv => ?_⟩
    obtain ⟨w, -, hsigned⟩ := bind_eq_some_iff.1 hv
    exact isPlain_signed? hsigned
  unfold sign
  dsimp only
  split
  · exact hverdict _ hx.2
  · split
    · split
      · rename_i t ht
        exact hverdict _ (over_spread (over_mergeNumeric ht) _)
      · exact hverdict _ hx.2
    · exact .bind (.refuse hx.1) fun t ht => hverdict t ht

theorem Verdict.plain_negation (x : Expr) : (negation x).Plain P := by
  refine ⟨trivial, fun v hv => ?_⟩
  obtain ⟨b, -, rfl⟩ := map_eq_some_iff.1 hv
  rfl

theorem Verdict.plain_connective (op : Operation) (x y : Expr) : (connective op x y).Plain P := by
  refine ⟨trivial, fun v hv => ?_⟩
  obtain ⟨a, -, hv⟩ := bind_eq_some_iff.1 hv
  obtain ⟨b, -, hv⟩ := bind_eq_some_iff.1 hv
  cases hv
  rfl

theorem over_scaledPointTy (base factor : Ty) : (scaledPointTy base factor).Over P := by
  unfold scaledPointTy
  split <;> trivial

theorem over_arithmeticTy? {a b : Ty} (h : arithmeticTy? op a b = some t) : t.Over P := by
  unfold arithmeticTy? at h
  split at h
  · repeat' split at h
    all_goals cases h
    · trivial
    · trivial
    · exact over_scaledPointTy a b
    · exact over_scaledPointTy b a
    · trivial
  · split at h
    · cases h
    · rename_i hmerge
      cases h
      split
      · trivial
      · exact over_mergeNumeric hmerge

theorem isPlain_arithmetic? {a b : Value} (h : Value.arithmetic? op a b t = some v) :
    v.ty.isPlain := by
  unfold Value.arithmetic? at h
  split at h
  · obtain ⟨p, -, rfl⟩ := map_eq_some_iff.1 h
    exact isPlain_ofVertex _ _
  · split at h
    all_goals
      simp only [bind_eq_bind, bind_eq_some_iff, Option.pure_def, Option.some.injEq] at h
      obtain ⟨x, -, y, -, r, -, rfl⟩ := h
      rfl

theorem ruled_arithmetic (harea : A area) : Ruled A (arithmetic area op a b) (Verdict.Plain P) := by
  unfold arithmetic
  split
  · exact harea
  · rename_i t ht
    have hty : t.Over P := over_arithmeticTy? ht
    split
    · exact Verdict.plain_typed hty
    · refine ⟨hty, fun v hv => ?_⟩
      obtain ⟨x, -, hv⟩ := bind_eq_some_iff.1 hv
      obtain ⟨y, -, hv⟩ := bind_eq_some_iff.1 hv
      exact isPlain_arithmetic? hv

theorem ruled_comparison (harea : A area) (ha : A a.area)
    (hb : A b.area) : Ruled A (comparison area op a b) (Verdict.Plain P) := by
  have hverdict : Ruled A (if isList a.ty || isList b.ty then
      (pure (Verdict.typed (.list .bool)) : Ruling Verdict)
    else pure ⟨.bool, do
      let va ← a.value?
      let vb ← b.value?
      return .bool (← Value.compare? op va vb)⟩) (Verdict.Plain P) := by
    split
    · exact Verdict.plain_typed trivial
    · refine ⟨trivial, fun v hv => ?_⟩
      simp only [bind_eq_bind, bind_eq_some_iff, Option.pure_def, Option.some.injEq] at hv
      obtain ⟨x, -, y, -, r, -, rfl⟩ := hv
      rfl
  unfold comparison
  -- Equality asks for a common type, an order for numbers on both sides.
  by_cases hequality : (decide (op = .equal) || decide (op = .notEqual)) = true
  · rw [if_pos hequality]
    cases Ty.merge (itemTy a.ty) (itemTy b.ty) with
    | error m => exact harea
    | ok t => exact hverdict
  · rw [if_neg hequality]
    refine .bind (ruled_requireItemCoercion ha) fun _ _ => ?_
    exact .bind (ruled_requireItemCoercion hb) fun _ _ => hverdict

theorem ruled_range {bounds : List Expr} (h : ∀ e ∈ bounds, e.Operand A P) :
    Ruled A (range bounds) (Verdict.Plain P) := by
  have hbounds : Ruled A (bounds.forM (requireCoercion · .int)) fun _ => True := by
    induction bounds with
    | nil => trivial
    | cons e es ih =>
      obtain ⟨he, hes⟩ := forall_mem_cons.1 h
      exact .bind (ruled_requireCoercion he.1) fun _ _ => ih hes
  exact .bind hbounds fun _ _ => Verdict.plain_typed trivial

theorem ruled_mergeBranch {earlier : Option Ty} (hearlier : ∀ t, earlier = some t → t.Over P)
    (hx : x.Operand A P) : Ruled A (mergeBranch earlier x) (Ty.Over P) := by
  unfold mergeBranch
  split
  · exact hx.2
  · split
    · rename_i t _ merged hmerge
      exact over_merge (hearlier t rfl) hx.2 hmerge
    · exact .refuse hx.1

theorem ruled_memberTy (harea : A area) {subject : Expr} :
    Ruled A (memberTy area subject member) fun t =>
      t.Over P ∧ (member = "x" ∨ member = "y") := by
  unfold memberTy
  dsimp only
  split
  · rename_i h
    refine ⟨?_, by simpa using (Bool.and_eq_true_iff.1 h).2⟩
    split <;> trivial
  · exact harea

theorem isPlain_coordinate? (h : coordinate? member v = some w) : w.ty.isPlain := by
  unfold coordinate? at h
  split at h <;> cases h <;> rfl

end Rules

/-- A failure that has a place among the tokens.  A defect has none. -/
def Failure.Located (tokens : List Token) : Failure → Prop
  | .rejected e => e.area.Among tokens
  | .defective _ => False

/-- The operations whose operands are judged alike, whatever the operation. -/
def isJudged : Operation → Bool
  | .listMap | .listFilter | .memberAccess | .builtIn | .call | .actionCall | .not | .and | .or
  | .conditional | .assignment | .update | .withBinding | .other _ => false
  | _ => true

/-- The verdict on operands, as many as an operation takes, is within bounds, or a rule is broken
at a place among the tokens. -/
theorem ruled_verdict (harea : area.Among tokens) (hop : isJudged op)
    (htakes : op.takes operands.length) (h : ∀ e ∈ operands, e.Analyzed tokens D) :
    (∃ v, verdict area op operands = .ok v ∧ v.Within D) ∨
      ∃ e, verdict area op operands = .error e ∧ e.Located tokens := by
  have hruled : ∀ {r : Ruling Verdict}, Ruled (Area.Among tokens) r (Verdict.Within D) →
      (∃ v, r.mapError Failure.rejected = .ok v ∧ v.Within D) ∨
        ∃ e, r.mapError Failure.rejected = .error e ∧ e.Located tokens := by
    intro r hr
    cases r with
    | ok v => exact .inl ⟨v, rfl, hr⟩
    | error e => exact .inr ⟨_, rfl, hr⟩
  have hplain : ∀ {r : Ruling Verdict}, Ruled (Area.Among tokens) r (Verdict.Plain _) → _ :=
    fun hr => hruled (hr.imp fun _ => Verdict.Plain.over)
  have h : ∀ e ∈ operands, e.Operand (Area.Among tokens) _ := fun e he => (h e he).operand
  cases op with
  | listLiteral => exact hruled (ruled_listLiteral h)
  | exclusiveRange | inclusiveRange => exact hplain (ruled_range h)
  | posate | negate =>
    obtain ⟨x, rfl⟩ := exists_single htakes
    exact hplain (ruled_sign (h x (by simp)))
  | pointLiteral =>
    obtain ⟨x, y, rfl⟩ := exists_pair htakes
    exact hplain (ruled_point harea (h x (by simp)).1 (h y (by simp)).1)
  | listFill =>
    obtain ⟨x, y, rfl⟩ := exists_pair htakes
    exact hplain (ruled_listFill (h x (by simp)) (h y (by simp)))
  | index =>
    obtain ⟨x, y, rfl⟩ := exists_pair htakes
    exact hplain (ruled_index (h x (by simp)) (h y (by simp)))
  | exponent | multiply | divide | modulus | add | subtract =>
    obtain ⟨x, y, rfl⟩ := exists_pair htakes
    exact hplain (ruled_arithmetic harea)
  | lessThan | greaterThan | lessEqual | greaterEqual | equal | notEqual =>
    obtain ⟨x, y, rfl⟩ := exists_pair htakes
    exact hplain (ruled_comparison harea (h x (by simp)).1 (h y (by simp)).1)
  | _ => cases hop

theorem Verdict.analyzed_expr {v : Verdict} (hv : v.Within D) (harea : area.Among tokens)
    (hfits : op.Fits operands) (h : ∀ e ∈ operands, e.Analyzed tokens D) :
    (v.expr area op operands).Analyzed tokens D := by
  unfold Verdict.expr
  split
  · rename_i x hx
    exact .literal harea (hv.2 x hx)
  · exact .operator harea hv.1 hfits h

end Typing

end Diagram
