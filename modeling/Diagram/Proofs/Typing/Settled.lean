import Diagram.Proofs.Typing.Derivation

/-!
# What operands settle

The operations whose operands are all analyzed in one scope, rule by rule.  Such an operation is
a constant only if all of its operands are.

Main statements: `settle?_eq_some_iff`, `isLiteral_of_settle?`.
-/

namespace Diagram.Typing

open Option

def isArithmetic : Operation → Bool
  | .exponent | .multiply | .divide | .modulus | .add | .subtract => true
  | _ => false

def isComparison : Operation → Bool
  | .lessThan | .greaterThan | .lessEqual | .greaterEqual | .equal | .notEqual => true
  | _ => false

/-- What operands settle, rule by rule. -/
inductive Settles : Operation → List Expr → Verdict → Prop
  | not {x} (hbool : x.ty.coercesTo .bool = true) : Settles .not [x] (negation x)
  | connective {op x y} (hop : op = .and ∨ op = .or) (hx : x.ty.coercesTo .bool = true)
      (hy : y.ty.coercesTo .bool = true) : Settles op [x, y] (connective op x y)
  | conditional {es t} (hty : branchesTy? none es = some t) :
      Settles .conditional es (.typed t)
  | point {x y v} (hpoint : point .nowhere x y = .ok v) : Settles .pointLiteral [x, y] v
  | listLiteral {items v} (hlist : listLiteral items = .ok v) : Settles .listLiteral items v
  | listFill {item count v} (hfill : listFill item count = .ok v) :
      Settles .listFill [item, count] v
  | index {list number v} (hindex : index list number = .ok v) :
      Settles .index [list, number] v
  | sign {op x v} (hop : op = .posate ∨ op = .negate) (hsign : sign op x = .ok v) :
      Settles op [x] v
  | arithmetic {op a b v} (hop : isArithmetic op = true)
      (harithmetic : arithmetic .nowhere op a b = .ok v) : Settles op [a, b] v
  | comparison {op a b v} (hop : isComparison op = true)
      (hcomparison : comparison .nowhere op a b = .ok v) : Settles op [a, b] v
  | range {op bounds v} (hop : op = .exclusiveRange ∨ op = .inclusiveRange)
      (hrange : range bounds = .ok v) : Settles op bounds v

def isSettled : Operation → Bool
  | .listMap | .listFilter | .memberAccess | .builtIn | .call | .actionCall | .assignment
  | .update | .withBinding | .other _ => false
  | _ => true

variable {v : Verdict} {operands : List Expr}

theorem Settles.isSettled {op : Operation} (h : Settles op operands v) :
    isSettled op := by
  cases h with
  | not | conditional | point | listLiteral | listFill | index => rfl
  | connective hop | sign hop | range hop => rcases hop with rfl | rfl <;> rfl
  | @arithmetic op _ _ _ hop | @comparison op _ _ _ hop =>
    cases op <;> first | rfl | cases hop

theorem settle?_eq_some_iff {op : Operation} :
    settle? op operands = some v ↔ Settles op operands v := by
  constructor
  · intro h
    unfold settle? at h
    split at h
    · obtain ⟨hbool, hv⟩ := ite_none_right_eq_some.1 h
      cases hv
      exact .not hbool
    · obtain ⟨hbool, hv⟩ := ite_none_right_eq_some.1 h
      cases hv
      obtain ⟨hx, hy⟩ := Bool.and_eq_true_iff.1 hbool
      exact .connective (.inl rfl) hx hy
    · obtain ⟨hbool, hv⟩ := ite_none_right_eq_some.1 h
      cases hv
      obtain ⟨hx, hy⟩ := Bool.and_eq_true_iff.1 hbool
      exact .connective (.inr rfl) hx hy
    · obtain ⟨t, hty, rfl⟩ := map_eq_some_iff.1 h
      exact .conditional hty
    · rw [toOption_eq_some_iff] at h
      unfold verdict at h
      dsimp only at h
      split at h
      all_goals try rw [mapError_ok_iff] at h
      case h_1 => exact .point h
      case h_2 => exact .listLiteral h
      case h_3 => exact .listFill h
      case h_4 => exact .index h
      case h_5 => exact .sign (.inl rfl) h
      case h_6 => exact .sign (.inr rfl) h
      case h_7 | h_8 | h_9 | h_10 | h_11 | h_12 => exact .arithmetic rfl h
      case h_13 | h_14 | h_15 | h_16 | h_17 | h_18 => exact .comparison rfl h
      case h_19 => exact .range (.inl rfl) h
      case h_20 => exact .range (.inr rfl) h
      case h_21 | h_22 => cases h
  · intro h
    cases h with
    | not hbool => exact if_pos hbool
    | connective hop hx hy =>
      rcases hop with rfl | rfl
      · exact if_pos (Bool.and_eq_true_iff.2 ⟨hx, hy⟩)
      · exact if_pos (Bool.and_eq_true_iff.2 ⟨hx, hy⟩)
    | conditional hty =>
      change (branchesTy? none operands).map Verdict.typed = _
      rw [hty]
      rfl
    | point h | listLiteral h | listFill h | index h =>
      exact toOption_eq_some_iff.2 (mapError_ok_iff.2 h)
    | sign hop h | range hop h =>
      rcases hop with rfl | rfl
      · exact toOption_eq_some_iff.2 (mapError_ok_iff.2 h)
      · exact toOption_eq_some_iff.2 (mapError_ok_iff.2 h)
    | @arithmetic op a b v hop h | @comparison op a b v hop h =>
      cases op <;> first | exact toOption_eq_some_iff.2 (mapError_ok_iff.2 h) | cases hop

section Values

theorem isLiteral_of_value? {e : Expr} {v : Value} (h : e.value? = some v) : e.isLiteral := by
  simp [Expr.isLiteral, h]

theorem isLiteral_of_mapM {es : List Expr} {vs : List Value}
    (h : es.mapM Expr.value? = some vs) : ∀ e ∈ es, e.isLiteral := by
  induction es generalizing vs with
  | nil => simp
  | cons e es ih =>
    rw [List.mapM_cons] at h
    obtain ⟨v, hv, h⟩ := bind_eq_some_iff.1 h
    obtain ⟨rest, hrest, -⟩ := bind_eq_some_iff.1 h
    exact List.forall_mem_cons.2 ⟨isLiteral_of_value? hv, ih hrest⟩

variable {v : Verdict} {w : Value} {x y : Expr} {area : Area} {op : Operation}

/-- An operation on two constants needs both of them. -/
theorem isLiteral_of_itemwise {t : Ty} {f : Value → Value → Option Value}
    (hw : (itemwise x y t f).value = some w) : ∀ e ∈ [x, y], e.isLiteral := by
  obtain ⟨-, -, -, a, b, ha, hb, -⟩ := of_value_itemwise hw
  simp [isLiteral_of_value? ha, isLiteral_of_value? hb]

theorem isLiteral_of_settle? (h : settle? op operands = some v) (hw : v.value = some w) :
    ∀ e ∈ operands, e.isLiteral := by
  have htruth : ∀ {x : Expr} {b : Bool}, truth? x = some b → x.isLiteral = true := by
    intro x b hx
    obtain ⟨y, hy, -⟩ := map_eq_some_iff.1 hx
    obtain ⟨u, hu, -⟩ := bind_eq_some_iff.1 hy
    exact isLiteral_of_value? hu
  cases settle?_eq_some_iff.1 h with
  | not =>
    obtain ⟨b, hb, -⟩ := map_eq_some_iff.1 hw
    simpa using htruth hb
  | connective =>
    obtain ⟨a, ha, hw⟩ := bind_eq_some_iff.1 hw
    obtain ⟨b, hb, -⟩ := bind_eq_some_iff.1 hw
    simpa using ⟨htruth ha, htruth hb⟩
  | conditional => cases hw
  | point h =>
    obtain ⟨-, -, t, -, rfl⟩ := point_eq_ok_iff.1 h
    exact isLiteral_of_itemwise hw
  | listLiteral h =>
    obtain ⟨t, -, rfl⟩ := listLiteral_eq_ok_iff.1 h
    obtain ⟨values, hvalues, -⟩ := bind_eq_some_iff.1 hw
    exact isLiteral_of_mapM hvalues
  | listFill h =>
    obtain ⟨-, -, rfl⟩ := listFill_eq_ok_iff.1 h
    cases hw
  | index h =>
    obtain ⟨-, -, rfl⟩ := index_eq_ok_iff.1 h
    cases hw
  | sign _ h =>
    obtain ⟨t, -, rfl⟩ := sign_eq_ok_iff.1 h
    obtain ⟨vx, hx, -⟩ := bind_eq_some_iff.1 hw
    simpa using isLiteral_of_value? hx
  | arithmetic _ h =>
    obtain ⟨t, -, rfl⟩ := arithmetic_eq_ok_iff.1 h
    exact isLiteral_of_itemwise hw
  | comparison _ h =>
    obtain ⟨-, rfl⟩ := comparison_eq_ok_iff.1 h
    exact isLiteral_of_itemwise hw
  | range _ h =>
    obtain ⟨-, rfl⟩ := range_eq_ok_iff.1 h
    cases hw

theorem isLiteral_of_callVerdict? {b : Builtin} {args : List Expr}
    (h : callVerdict? b args = some v) (hw : v.value = some w) :
    ∀ e ∈ args, e.isLiteral := by
  unfold callVerdict? at h
  split at h
  · rename_i hvalues
    exact isLiteral_of_mapM hvalues
  · cases h
    cases hw

end Values

end Diagram.Typing
