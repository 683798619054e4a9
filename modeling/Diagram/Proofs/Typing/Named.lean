import Diagram.Proofs.Typing.Settled

/-!
# What types name

A rule gives a type that names only what the types of its operands name, and so does the type of
its value.

Main statement: `Settles.over`.
-/

namespace Diagram

variable {P : Ty → Prop}

/-- What the type of an expression and that of its value name satisfies `P`. -/
structure Expr.Over (P : Ty → Prop) (e : Expr) : Prop where
  ty : e.ty.Over P
  value : ∀ v, e.value? = some v → v.ty.Over P

/-- The type of an expression and that of its value name only functions that satisfy `D`. -/
abbrev Expr.Within (D : String → Prop) (e : Expr) : Prop :=
  e.Over fun u => ∀ n, u = .function n → D n

theorem Ty.over_of_forall (h : ∀ t, P t) (t : Ty) : t.Over P := by
  induction t with
  | list item ih => exact ih
  | function name | action name | user name => exact h _
  | _ => trivial

theorem Expr.over_constant {v : Value} (h : v.ty.Over P) (area : Area) :
    (Expr.constant v area).Over P :=
  ⟨h, fun _ hv => Option.some.inj hv ▸ h⟩

variable {t : Ty}

theorem Expr.over_name (h : t.Over P) (area : Area) (n : String) : (Expr.name ⟨t, area⟩ n).Over P :=
  ⟨h, nofun⟩

theorem Expr.over_operator (h : t.Over P) (area : Area) (op : Operation) (operands : List Expr) :
    (Expr.operator ⟨t, area⟩ op operands).Over P :=
  ⟨h, nofun⟩

namespace Typing

variable {earlier : Option Ty} {t u : Ty} {es : List Expr} {v : Verdict} {x a b subject : Expr}
  {op : Operation} {m : String}

theorem over_mergeTy? (hearlier : ∀ a, earlier = some a → a.Over P) (ht : t.Over P)
    (h : mergeTy? earlier t = some u) : u.Over P := by
  cases earlier with
  | none =>
    cases h
    exact ht
  | some a => exact over_merge (hearlier a rfl) ht (toOption_eq_some_iff.1 h)

/-- The type of a conditional is that of one of its values, or unknown. -/
theorem over_branchesTy? (hearlier : ∀ a, earlier = some a → a.Over P) (hes : ∀ e ∈ es, e.Over P)
    (h : branchesTy? earlier es = some t) : t.Over P := by
  fun_induction branchesTy? earlier es generalizing t with
  | case1 earlier =>
    cases h
    cases earlier with
    | none => trivial
    | some a => exact hearlier a rfl
  | case2 earlier default => exact over_mergeTy? hearlier (hes default (by simp)).ty h
  | case3 earlier condition value rest hbool ih =>
    obtain ⟨u, hu, h⟩ := Option.bind_eq_some_iff.1 h
    have hmerged : u.Over P := over_mergeTy? hearlier (hes value (by simp)).ty hu
    refine ih u (fun a ha => ?_) (fun e he => hes e (by simp [he])) h
    cases ha
    exact hmerged
  | case4 => cases h

/-- Every operation but a list literal gives a plain constant, or none. -/
theorem Settles.plain (h : Settles op es v) (hes : ∀ e ∈ es, e.Over P) (hop : op ≠ .listLiteral) :
    v.Plain P := by
  have hoperands : ∀ e ∈ es, e.Operand (fun _ => True) P := fun e he => ⟨trivial, (hes e he).ty⟩
  cases h with
  | not => exact Verdict.plain_negation _
  | connective => exact Verdict.plain_connective _ _ _
  | conditional hty => exact Verdict.plain_typed (over_branchesTy? (by simp) hes hty)
  | point h => exact ruled_of_eq_ok (ruled_point (A := fun _ => True) trivial trivial trivial) h
  | listLiteral => exact absurd rfl hop
  | listFill h =>
    exact ruled_of_eq_ok (ruled_listFill (hoperands _ (by simp)) (hoperands _ (by simp))) h
  | index h =>
    exact ruled_of_eq_ok (ruled_index (hoperands _ (by simp)) (hoperands _ (by simp))) h
  | sign _ h => exact ruled_of_eq_ok (ruled_sign (hoperands _ (by simp))) h
  | arithmetic _ h => exact ruled_of_eq_ok (ruled_arithmetic (A := fun _ => True) trivial) h
  | comparison _ h =>
    exact ruled_of_eq_ok (ruled_comparison (A := fun _ => True) trivial trivial trivial) h
  | range _ h => exact ruled_of_eq_ok (ruled_range hoperands) h

theorem listLiteral_of_settles (h : Settles .listLiteral es v) : listLiteral es = .ok v := by
  cases h with
  | listLiteral h => exact h
  | connective hop | sign hop | range hop => rcases hop with hop | hop <;> cases hop
  | arithmetic hop | comparison hop => cases hop

theorem Settles.over (h : Settles op es v) (hes : ∀ e ∈ es, e.Over P) : v.Over P := by
  by_cases hop : op = .listLiteral
  · subst hop
    have hoperands : ∀ e ∈ es, e.Operand (fun _ => True) P := fun e he => ⟨trivial, (hes e he).ty⟩
    exact ruled_of_eq_ok (ruled_listLiteral hoperands) (listLiteral_of_settles h)
  · exact (h.plain hes hop).over

/-- A function that is built in is typed by its result, and gives plain constants only. -/
theorem of_callVerdict? {b : Builtin} {args : List Expr} (h : callVerdict? b args = some v) :
    v.ty = b.result ∧ ∀ w, v.value = some w → w.ty.isPlain := by
  unfold callVerdict? at h
  split at h
  · split at h
    · rename_i w hrun
      cases h
      exact ⟨rfl, fun w' hw' => Option.some.inj hw' ▸ Builtin.isPlain_run hrun⟩
    · cases h
  · cases h
    exact ⟨rfl, nofun⟩

theorem over_callVerdict? {n : String} {b : Builtin} (hfind : Builtin.find? n = some b)
    {args : List Expr} (h : callVerdict? b args = some v) : v.Over P :=
  have ⟨hty, hplain⟩ := of_callVerdict? h
  ⟨hty ▸ Builtin.over_result hfind, fun w hw => Value.over_of_isPlain (hplain w hw)⟩

theorem over_variant? {sig : Signature} {v : Value} (hsig : P (.user sig.name))
    (h : variant? sig m = some v) : v.ty.Over P := by
  obtain ⟨i, -, rfl⟩ := Option.map_eq_some_iff.1 h
  exact hsig

theorem over_comprehensionTy {body : Expr} (hbody : body.Over P)
    (h : (comprehensionTy body).toOption = some t) : t.Over P := by
  have hrule := toOption_eq_some_iff.1 h
  unfold comprehensionTy at hrule
  split at hrule
  · cases hrule
    exact hbody.ty
  · obtain ⟨_, -, hrule⟩ := bind_ok_iff.1 hrule
    cases hrule
    exact hbody.ty

theorem over_memberTy (h : (memberTy .nowhere subject m).toOption = some t) : t.Over P :=
  (ruled_of_eq_ok (ruled_memberTy (A := fun _ => True) trivial) (toOption_eq_some_iff.1 h)).1

theorem over_member (h : (memberTy .nowhere subject m).toOption = some t) :
    Verdict.Over P ⟨spread t [subject.ty], subject.value?.bind (coordinate? m)⟩ := by
  refine ⟨over_spread (over_memberTy h) _, fun w hw => ?_⟩
  obtain ⟨v, -, hw⟩ := Option.bind_eq_some_iff.1 hw
  exact Value.over_of_isPlain (isPlain_coordinate? hw)

end Typing

end Diagram
