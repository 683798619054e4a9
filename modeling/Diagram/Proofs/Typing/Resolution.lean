import Diagram.Proofs.Typing.Exact
import Diagram.Proofs.Typing.Resolved

/-!
# How definitions are resolved

A definition that is asked for has begun already and is left alone, or it is begun, derived,
accepted and recorded.  What holds of these two steps holds of every resolution, and what
resolutions do to the state, derivations do as well.

Main statements: `resolve_induction`, `Derives.relates`.
-/

namespace Diagram

/-- Whether a declaration is that of a constant without a list of parameters. -/
def Signature.isConstant (sig : Signature) : Bool :=
  sig.declares = .const && !sig.hasParams

/-- The expression as a value of a type, which matters if it is a constant. -/
def Expr.convertTo (t : Ty) (e : Expr) : Expr :=
  match e.value? with
  | some v => .constant (v.convert t) e.area
  | none => e

theorem Expr.isLiteral_convertTo (t : Ty) (e : Expr) : (e.convertTo t).isLiteral = e.isLiteral := by
  cases e <;> rfl

namespace Typing

variable {n : String} {s s' : State} {sig : Signature} {body e : Expr} {k : Nat}

theorem accept_eq_ok_iff :
    accept sig body = .ok e ↔
      (sig.isConstant ∨ sig.declares = .var → body.isLiteral) ∧
        (if sig.ty.isUnknown then e = body
          else body.ty.coercesTo sig.ty ∧ e = body.convertTo sig.ty) := by
  unfold accept Signature.isConstant
  by_cases hconst : (sig.declares = .const && !sig.hasParams && !body.isLiteral) = true
  · rw [if_pos hconst]
    simp only [Bool.and_eq_true, Bool.not_eq_true'] at hconst
    refine ⟨nofun, fun h => ?_⟩
    have hliteral := h.1 (.inl (by simpa using hconst.1))
    simp [hliteral] at hconst
  by_cases hvar : (sig.declares = .var && !body.isLiteral) = true
  · rw [if_neg hconst, if_pos hvar]
    simp only [Bool.and_eq_true, Bool.not_eq_true', decide_eq_true_eq] at hvar
    refine ⟨nofun, fun h => ?_⟩
    have hliteral := h.1 (.inr hvar.1)
    simp [hliteral] at hvar
  rw [if_neg hconst, if_neg hvar]
  have hneeds : (sig.declares = .const && !sig.hasParams) = true ∨ sig.declares = .var →
      body.isLiteral = true := by
    rintro (h | h)
    · simpa [h] using hconst
    · simpa [h] using hvar
  by_cases hunknown : sig.ty.isUnknown = true
  · rw [if_pos hunknown, if_pos hunknown]
    exact ⟨fun h => ⟨hneeds, (Except.ok.inj h).symm⟩, fun h => congrArg Except.ok h.2.symm⟩
  rw [if_neg hunknown, if_neg hunknown]
  by_cases hcoerces : body.ty.coercesTo sig.ty = true
  · have hrule : requireCoercion body sig.ty = .ok () := requireCoercion_eq_ok_iff.2 hcoerces
    have hconvert : (match body.value? with
        | some v => pure (.constant (v.convert sig.ty) body.area)
        | none => pure body : Ruling Expr) = .ok (body.convertTo sig.ty) := by
      cases body <;> rfl
    rw [hrule]
    refine (Eq.congr hconvert rfl).trans ?_
    exact ⟨fun h => ⟨hneeds, hcoerces, (Except.ok.inj h).symm⟩,
      fun h => congrArg Except.ok h.2.2.symm⟩
  · have hrule : requireCoercion body sig.ty = refuse body (.cannotCoerce body.ty sig.ty) :=
      if_neg hcoerces
    rw [hrule]
    exact ⟨nofun, fun h => absurd h.2.1 hcoerces⟩

def bodyScope (sig : Signature) : Scope :=
  Scope.top.withParams sig.paramList

theorem resolve_zero_eq_ok_iff : resolve n 0 s = .ok () s' ↔ s.hasBegun n ∧ s' = s := by
  cases hbegun : s.hasBegun n with
  | true => simp [resolve_of_begun hbegun, eq_comm]
  | false =>
    suffices h : ∃ d, resolve n 0 s = (defect d : Check Unit) s by
      obtain ⟨d, hd⟩ := h
      simp [hd, defect_ne_ok]
    change ∃ d, (if s.hasBegun n = true then pure () else _ : Check Unit) s = _
    rw [if_neg (by simp [hbegun]), signature?_bind]
    cases s.signatures.get? n <;> exact ⟨_, rfl⟩

theorem inferBody_eq_ok_iff :
    inferBody (resolve · k) sig body s = .ok e s' ↔
      ∃ body', Derives (.of (resolve · k)) (bodyScope sig) (bodyScope sig) body s body' s' ∧
        accept sig body' = .ok e := by
  simp only [inferBody, bind_eq_ok_iff, follow_eq_ok_iff, infer_eq_ok_iff]
  constructor
  · rintro ⟨body', s₁, hderives, haccept, rfl⟩
    exact ⟨body', hderives, haccept⟩
  · rintro ⟨body', hderives, haccept⟩
    exact ⟨body', s', hderives, haccept, rfl⟩

/-- A name without a signature or without a definition is not resolved. -/
theorem resolve_ne_ok (hbegun : s.hasBegun n = false)
    (hmissing : s.signatures.get? n = none ∨ s.identifiers.get? n = none) :
    ¬resolve n (k + 1) s = .ok () s' := by
  have hbegin : (modify fun s => { s with begun := n :: s.begun } : Check Unit) s =
      .ok () (begin s n) := rfl
  have hget : (get : Check State) (begin s n) = .ok (begin s n) (begin s n) := rfl
  change ¬(if s.hasBegun n = true then pure () else _ : Check Unit) s = _
  rw [if_neg (by simp [hbegun]), bind_of_ok hbegin, signature?_bind]
  cases hsig : (begin s n).signatures.get? n with
  | none => exact defect_ne_ok
  | some sig =>
    have hsome : s.signatures.get? n = some sig := hsig
    have hbody : (begin s n).identifiers.get? n = none := hmissing.resolve_left (by simp [hsome])
    dsimp only
    rw [bind_of_ok hget, hbody]
    exact defect_ne_ok

theorem resolve_succ_eq_ok_iff :
    resolve n (k + 1) s = .ok () s' ↔
      s.hasBegun n ∧ s' = s ∨
      s.hasBegun n = false ∧ ∃ sig body body' e s₁,
        s.signatures.get? n = some sig ∧ s.identifiers.get? n = some body ∧
        Derives (.of (resolve · k)) (bodyScope sig) (bodyScope sig) body (begin s n) body' s₁ ∧
        accept sig body' = .ok e ∧ s' = record s₁ n sig e := by
  cases hbegun : s.hasBegun n with
  | true => simp [resolve_of_begun hbegun, eq_comm]
  | false =>
    cases hsig : s.signatures.get? n with
    | none => simp [resolve_ne_ok hbegun (.inl hsig)]
    | some sig =>
      cases hbody : s.identifiers.get? n with
      | none => simp [resolve_ne_ok hbegun (.inr hbody)]
      | some body =>
        rw [resolve, visit_of_not_begun hbegun hsig hbody, bind_eq_ok_iff]
        simp only [inferBody_eq_ok_iff]
        constructor
        · rintro ⟨e, s₁, ⟨body', hderives, haccept⟩, hdefine⟩
          cases hdefine
          exact .inr ⟨trivial, sig, body, body', e, s₁, rfl, rfl, hderives, haccept, rfl⟩
        · rintro (⟨h, -⟩ | ⟨-, sig', body₀, body', e, s₁, hsig', hbody', hderives, haccept, rfl⟩)
          · cases h
          · cases hsig'
            cases hbody'
            exact ⟨e, s₁, ⟨body', hderives, haccept⟩, rfl⟩

/-- What holds where a definition has begun and is kept when one is analyzed holds of every
resolution. -/
theorem resolve_induction {P : Resolution} (hbegun : ∀ n s, s.hasBegun n → P n s s)
    (hanalyzed : ∀ (R : Resolution) n s sig body body' e s₁, (∀ m t t', R m t t' → P m t t') →
      s.hasBegun n = false → s.signatures.get? n = some sig →
      s.identifiers.get? n = some body →
      Derives R (bodyScope sig) (bodyScope sig) body (begin s n) body' s₁ →
      accept sig body' = .ok e → P n s (record s₁ n sig e)) (h : resolve n k s = .ok () s') :
    P n s s' := by
  induction k generalizing n s s' with
  | zero =>
    obtain ⟨hn, rfl⟩ := resolve_zero_eq_ok_iff.1 h
    exact hbegun n s' hn
  | succ k ih =>
    rcases resolve_succ_eq_ok_iff.1 h with
      ⟨hn, rfl⟩ | ⟨hn, sig, body, body', e, s₁, hsig, hbody, hderives, haccept, rfl⟩
    · exact hbegun n s' hn
    · exact hanalyzed _ n s sig body body' e s₁ (fun m t t' => ih) hn hsig hbody hderives haccept

/-- A relation that holds between the states before and after all that a derivation does. -/
structure Carries (R : Resolution) (G : State → State → Prop) : Prop where
  refl : ∀ s, G s s
  trans : ∀ {s s₁ s₂}, G s s₁ → G s₁ s₂ → G s s₂
  notes : ∀ s notes, G s { s with notes := notes }
  asked : ∀ {n s s'}, R n s s' → G s s'

section Relations

variable {R : Resolution} {G : State → State → Prop} (hG : Carries R G)

include hG

theorem Asked.relates {b : Bool} (h : Asked R b n s s') : G s s' := by
  cases b with
  | true => exact hG.asked h
  | false =>
    cases h
    exact hG.refl s

theorem Finds.relates {scope : Scope} {area : Area} {e' : Expr}
    (h : Finds R scope area n s e' s') : G s s' := by
  cases h with
  | bound | time | fixed => exact hG.refl s
  | value _ _ _ hasked => exact hasked.relates hG

theorem State.relates_noted (s : State) (b : Builtin) (v : Verdict) : G s (s.noted b v) := by
  unfold State.noted
  split
  · exact hG.notes s _
  · exact hG.refl s

mutual

theorem Derives.relates {outer scope e e' s s'} : Derives R outer scope e s e' s' → G s s'
  | .literal | .timeStep | .variant _ _ | .builtIn _ => hG.refl _
  | .name hfinds => hfinds.relates hG
  | .listMap hsource _ hbody _ => hG.trans hsource.relates hbody.relates
  | .listFilter hlist _ hcondition _ => hG.trans hlist.relates hcondition.relates
  | .member _ hsubject _ => hsubject.relates
  | .builtinCall _ _ hargs _ => hG.trans hargs.relates (State.relates_noted hG _ _ _)
  | .call _ hcallee _ _ hargs _ hasked =>
    hG.trans hcallee.relates (hG.trans hargs.relates (hasked.relates hG))
  | .actionCall _ _ _ hargs _ => hargs.relates
  | .operands _ hoperands _ => hoperands.relates
  | .update _ _ _ hasked hvalue _ => hG.trans (hG.asked hasked) hvalue.relates
  | .withBinding hbindings hbody => hG.trans hbindings.relates hbody.relates

theorem DerivesAll.relates {scope es es' s s'} : DerivesAll R scope es s es' s' → G s s'
  | .nil => hG.refl _
  | .cons hhead htail => hG.trans hhead.relates htail.relates

theorem DerivesBindings.relates {scope chain e e' s s'} :
    DerivesBindings R scope chain e s e' s' → G s s'
  | .both hleft hright => hG.trans hleft.relates hright.relates
  | .assignment hvalue => hvalue.relates

end

end Relations

theorem relates_forM {G : State → State → Prop} (hG : Carries (.of resolveAny) G)
    {names : List String} {s s' : State} (h : names.forM resolveAny s = .ok () s') : G s s' := by
  induction names generalizing s with
  | nil =>
    obtain ⟨-, rfl⟩ := pure_eq_ok_iff.1 h
    exact hG.refl s'
  | cons n names ih =>
    obtain ⟨_, s₁, hfirst, hrest⟩ := bind_eq_ok_iff.1 h
    exact hG.trans (hG.asked hfirst) (ih hrest)

end Typing

end Diagram
