import Diagram.Proofs.Typing.Course

/-!
# Analysis of an analyzed program

If all types of a program are declared then what an expression becomes depends on the signatures
only, which stay as they are.  So an expression that was derived, in which no constant is left, is
derived again as it is, and so is an analyzed program.

Main statements: `Derives.repeats`, `resolve_again`, `Program.analyze_again`.
-/

namespace Diagram

open List

theorem Ty.coercesTo_self (t : Ty) : t.coercesTo t := by
  induction t with
  | list item ih =>
    exact ih
  | function n | action n | user n => simp [coercesTo]
  | _ => rfl

mutual

theorem Value.convert_convert (t : Ty) (v : Value) : (v.convert t).convert t = v.convert t := by
  cases v with
  | int i =>
    by_cases ht : t = .real
    · simp [convert, ht]
    · simp [convert, ht]
  | ipoint x y =>
    by_cases ht : t = .point
    · simp [convert, ht]
    · simp [convert, ht]
  | bool b | enum name variant ordinal =>
    simp only [convert, convert.convertNumber, number?]
    cases t <;> simp [convert, convert.convertNumber]
  | list item items =>
    cases t with
    | list item' =>
      by_cases hunknown : item'.isUnknown = true
      · simp [convert, hunknown]
      · simp [convert, hunknown, convertAll_convertAll item' items]
    | _ => simp [convert]
  | _ => simp [convert]

theorem Value.convertAll_convertAll (t : Ty) (vs : List Value) :
    convertAll t (convertAll t vs) = convertAll t vs := by
  cases vs with
  | nil => rfl
  | cons v vs => simp [convertAll, convert_convert t v, convertAll_convertAll t vs]

end

theorem Value.coercesTo_convert {t : Ty} {v : Value} (h : v.ty.coercesTo t) :
    (v.convert t).ty.coercesTo t := by
  cases v with
  | int i | ipoint x y =>
    unfold convert
    split
    · rename_i ht
      rw [ht]
      rfl
    · exact h
  | bool b | enum name variant ordinal =>
    cases t <;> exact h
  | list item items =>
    cases t with
    | list item' =>
      by_cases hunknown : item'.isUnknown = true
      · simpa [convert, hunknown] using h
      · simpa [convert, hunknown, ty] using Ty.coercesTo_self (.list item')
    | _ => simpa [convert] using h
  | _ => simpa [convert] using h

theorem Scope.binds_names (scope : Scope) : scope.Binds scope.locals.names := fun _ =>
  NameMap.mem_names_iff

variable (sigs : Signatures)

def Signatures.Known : Prop :=
  ∀ ⦃n sig⦄, sigs.get? n = some sig → sig.ty.isUnknown = false

def Signatures.NoneConstant (names : List String) : Prop :=
  ∀ n ∈ names, ∀ sig, sigs.get? n = some sig → sig.isConstant = false

section Lifts

/-- Whether the second of two related things is related to itself. -/
def Reflects {α β : Type} (P : α → β → Prop) (Q : β → β → Prop) : Prop :=
  ∀ ⦃a b⦄, P a b → Q b b

variable {α β : Type} {P : α → β → Prop} {Q : β → β → Prop}

theorem reflects_optionRel (h : Reflects P Q) : Reflects (Option.Rel P) (Option.Rel Q) := by
  intro a? b? hP
  cases hP with
  | none => exact .none
  | some hab => exact .some (h hab)

theorem reflects_forall₂ (h : Reflects P Q) : Reflects (Forall₂ P) (Forall₂ Q) := by
  intro as bs hP
  induction hP with
  | nil => exact .nil
  | cons hab _ ih => exact .cons (h hab) ih

variable {D D' : Expr → Expr → Prop}

mutual

theorem reflects_action (hD : Reflects D D') {a a' : Action} : a.Lift D a' → a'.Lift D' a'
  | .block has => .block (reflects_actions hD has)
  | .update h => .update (hD h)
  | .call h => .call (hD h)
  | .conditional harms => .conditional (reflects_arms hD harms)
  | .conditionalElse harms hd =>
    .conditionalElse (reflects_arms hD harms) (reflects_action hD hd)

theorem reflects_actions (hD : Reflects D D') {as as'} :
    Action.LiftAll D as as' → Action.LiftAll D' as' as'
  | .nil => .nil
  | .cons ha has => .cons (reflects_action hD ha) (reflects_actions hD has)

theorem reflects_arms (hD : Reflects D D') {arms arms'} :
    Action.LiftArms D arms arms' → Action.LiftArms D' arms' arms'
  | .nil => .nil
  | .cons hc hbool ha hrest =>
    .cons (hD hc) hbool (reflects_action hD ha) (reflects_arms hD hrest)

end

theorem reflects_both (hD : Reflects D D') : Reflects (Both D) (Both D') := by
  rintro q q' ⟨e, e', rfl, rfl, h⟩
  exact ⟨e', e', rfl, rfl, hD h⟩

theorem reflects_element (hD : Reflects D D') : Reflects (Element.Lift (Both D) (Action.Lift D))
    (Element.Lift (Both D') (Action.Lift D')) := by
  intro e e' h
  exact {
    quantities := reflects_forall₂ (reflects_both hD) h.quantities
    click := reflects_optionRel (fun _ _ ha => reflects_action hD ha) h.click
    refilled := e'.refill_self }

end Lifts

/-- A program whose parts became what they are becomes itself. -/
theorem Program.Lift.reflects {D D' : Scope → Expr → Expr → Prop}
    (hD : ∀ scope, Reflects (D scope) (D' scope)) {p q : Program} (h : p.Lift D q)
    (hsignatures : q.signatures = p.signatures) : q.Lift D' q where
  enums := rfl
  actions := by
    refine reflects_forall₂ ?_ h.actions
    rintro e e' ⟨hname, sig, hsig, ha⟩
    refine ⟨rfl, sig, ?_, reflects_action (hD _) ha⟩
    rw [hsignatures, hname, hsig]
  entries := reflects_optionRel (reflects_forall₂ (hD .top)) h.entries
  ticker := by
    refine reflects_optionRel ?_ h.ticker
    rintro t t' ⟨hinterval, haction⟩
    exact ⟨reflects_optionRel (fun _ _ he => ⟨hD .top he.1, he.2⟩) hinterval,
      reflects_action (hD .ticking) haction⟩
  display := reflects_optionRel (reflects_forall₂ (reflects_element (hD .top))) h.display

namespace Typing

section Derivations

variable {R : Resolution} {outer scope : Scope} {e e' : Expr} {s s' : State} {v : Verdict}
  {area : Area} {op : Operation} {operands : List Expr} {n : String}

theorem eq_constant_of_expr {w : Value} (h : (v.expr area op operands).value? = some w) :
    v.expr area op operands = .constant w area := by
  unfold Verdict.expr at h ⊢
  split at h
  · cases h
    rfl
  · cases h

theorem Finds.eq_constant (h : Finds R scope area n s e' s') {v : Value} (hv : e'.value? = some v) :
    e' = .constant v area := by
  cases h with
  | bound | time | fixed => cases hv
  | value _ _ _ _ =>
    unfold State.reference at hv ⊢
    split at hv
    · cases hv
      rfl
    · cases hv

theorem Derives.eq_constant (h : Derives R outer scope e s e' s') {v : Value}
    (hv : e'.value? = some v) : ∃ area, e' = .constant v area := by
  cases h with
  | literal | variant =>
    cases hv
    exact ⟨_, rfl⟩
  | name hfinds => exact ⟨_, hfinds.eq_constant hv⟩
  | member | builtinCall | operands => exact ⟨_, eq_constant_of_expr hv⟩
  | _ => cases hv

theorem name?_expr (v : Verdict) (area : Area) (op : Operation) (operands : List Expr) :
    (v.expr area op operands).name? = none := by
  unfold Verdict.expr
  split <;> rfl

theorem isOp_of_isOp_expr {op' : Operation} (h : (v.expr area op operands).isOp op') :
    op == op' := by
  unfold Verdict.expr at h
  split at h
  · cases h
  · exact h

theorem Derives.name?_eq (h : Derives R outer scope e s e' s') (hn : e'.name? = some n) :
    e.name? = some n := by
  cases h with
  | name hfinds =>
    cases hfinds with
    | bound | fixed => exact hn
    | time => cases hn
    | value _ _ _ _ =>
      unfold State.reference at hn
      split at hn
      · cases hn
      · exact hn
  | member | builtinCall | operands =>
    rw [name?_expr] at hn
    cases hn
  | _ => cases hn

theorem Derives.isOp_builtIn (h : Derives R outer scope e s e' s')
    (hop : e.isOp .builtIn = false) : e'.isOp .builtIn = false := by
  refine Bool.eq_false_iff.2 fun hop' => ?_
  cases h with
  | name hfinds =>
    cases hfinds with
    | bound | time | fixed => cases hop'
    | value _ _ _ _ =>
      unfold State.reference at hop'
      split at hop' <;> cases hop'
  | builtIn => cases hop
  | member | builtinCall => cases isOp_of_isOp_expr hop'
  | operands => exact Bool.eq_false_iff.1 hop (isOp_of_isOp_expr hop')
  | _ => cases hop'

end Derivations

variable {e : Expr}

theorem accept_again {sig : Signature} (hknown : sig.ty.isUnknown = false) {body : Expr}
    (hbody : ∀ v, body.value? = some v → ∃ area, body = .constant v area)
    (h : accept sig body = .ok e) : accept sig e = .ok e := by
  obtain ⟨hneeds, he⟩ := accept_eq_ok_iff.1 h
  simp only [hknown, Bool.false_eq_true, if_false] at he
  obtain ⟨hcoerces, rfl⟩ := he
  refine accept_eq_ok_iff.2 ⟨fun hkind => ?_, ?_⟩
  · rw [Expr.isLiteral_convertTo]
    exact hneeds hkind
  · simp only [hknown, Bool.false_eq_true, if_false]
    cases hv : body.value? with
    | none =>
      have hsame : body.convertTo sig.ty = body := by simp [Expr.convertTo, hv]
      rw [hsame]
      exact ⟨hcoerces, hsame.symm⟩
    | some v =>
      obtain ⟨area, rfl⟩ := hbody v hv
      exact ⟨Value.coercesTo_convert hcoerces,
        congrArg (Expr.constant · area) (Value.convert_convert sig.ty v).symm⟩

/-- A resolution of variables, from states with given signatures to such states. -/
structure Again (sigs : Signatures) (R : Resolution) (J : State → Prop) : Prop where
  signatures : ∀ ⦃t⦄, J t → t.signatures = sigs
  asked : ∀ ⦃n sig t⦄, sigs.get? n = some sig → sig.declares = .var → J t → ∃ t', R n t t' ∧ J t'

def Repeats (outer scope : Scope) (e : Expr) : Prop :=
  ∀ ⦃R J⦄, Again sigs R J → ∀ ⦃t⦄, J t → ∃ t', Derives R outer scope e t e t' ∧ J t'

def RepeatsAll (scope : Scope) (es : List Expr) : Prop :=
  ∀ ⦃R J⦄, Again sigs R J → ∀ ⦃t⦄, J t → ∃ t', DerivesAll R scope es t es t' ∧ J t'

def RepeatsBindings (scope : Scope) (chain : Bool) (e : Expr) : Prop :=
  ∀ ⦃R J⦄, Again sigs R J → ∀ ⦃t⦄, J t → ∃ t', DerivesBindings R scope chain e t e t' ∧ J t'

/-- A resolution that leaves signatures, all of which have types, as they are. -/
structure Steady (sigs : Signatures) (R : Resolution) : Prop where
  known : sigs.Known
  carries : Carries R fun s s' => s.signatures = sigs → s'.signatures = sigs

section Repetitions

variable {sigs : Signatures} {outer scope : Scope}

theorem repeats_constant (v : Value) (area : Area) : Repeats sigs outer scope (.constant v area) :=
  fun _ _ _ t ht => ⟨t, .literal, ht⟩

variable {v : Verdict} {area : Area} {op : Operation} {operands : List Expr} {e e' : Expr}
  {t t' s s' : State} {n : String} {bound : List String}

/-- An operation becomes itself unless it has a value, which does anyway. -/
theorem repeats_expr (h : v.value = none → Repeats sigs outer scope (v.expr area op operands)) :
    Repeats sigs outer scope (v.expr area op operands) := by
  cases hv : v.value with
  | none => exact h hv
  | some w =>
    have hconstant : v.expr area op operands = .constant w area := by simp [Verdict.expr, hv]
    rw [hconstant]
    exact repeats_constant w area

theorem expr_of_value_eq_none (h : v.value = none) (area : Area) (op : Operation)
    (operands : List Expr) : v.expr area op operands = .operator ⟨v.ty, area⟩ op operands := by
  simp [Verdict.expr, h]

theorem derives_operator {R : Resolution} (hv : v.value = none)
    (h : Derives R outer scope e t (v.expr area op operands) t') :
    Derives R outer scope e t (.operator ⟨v.ty, area⟩ op operands) t' := by
  rw [expr_of_value_eq_none hv] at h
  exact h

theorem derives_unnoted {R : Resolution} {b : Builtin} (hv : v.value = none)
    (h : Derives R outer scope e t e' (t'.noted b v)) : Derives R outer scope e t e' t' := by
  rw [State.noted, hv] at h
  exact h

theorem derivesBindings_both {R : Resolution} {chain : Bool} {ty : Ty} {left right : Expr}
    {t₁ t₂ : State} (hleft : DerivesBindings R scope false left t left t₁)
    (hright : DerivesBindings R scope chain right t₁ right t₂) :
    let e := Expr.operator ⟨if chain then .void else ty, area⟩ .withBinding [left, right]
    DerivesBindings R scope chain e t e t₂ := by
  cases chain with
  | true | false => exact .both hleft hright

theorem mem_references_name {info : Info} (hn : n ∉ bound) (outer : List String) :
    n ∈ (Expr.name info n).references outer bound := by
  simp [Expr.references, hn]

theorem tyOf_eq (h : s.signatures = t.signatures) (n : String) : s.tyOf n = t.tyOf n := by
  unfold State.tyOf
  rw [h]

/-- What a name becomes, unless it is a constant that is left. -/
theorem Finds.repeats (hknown : sigs.Known) {R : Resolution} (h : Finds R scope area n s e' s')
    (hs : s.signatures = sigs) (hs' : s'.signatures = sigs) (hscope : scope.Binds bound)
    {ob : List String} (hnames : sigs.NoneConstant (e'.references ob bound)) :
    Repeats sigs outer scope e' := by
  cases h with
  | bound hbound => exact fun _ _ _ t ht => ⟨t, .name (.bound hbound), ht⟩
  | time => exact fun _ _ _ t ht => ⟨t, .timeStep, ht⟩
  | fixed hfree hsig hfixed =>
    intro R J hJ t ht
    rw [hs, ← hJ.signatures ht] at hsig
    exact ⟨t, .name (.fixed hfree hsig hfixed), ht⟩
  | @value sig _ hfree hsig hfixed hasked =>
    rw [hs] at hsig
    unfold State.reference at hnames ⊢
    split at hnames
    case h_1 v hv => exact repeats_constant v area
    case h_2 hv =>
      have hn : n ∉ bound := fun hn => by simpa [hfree.1] using (hscope n).1 hn
      have hconstant := hnames n (mem_references_name hn ob) sig hsig
      -- Of the names without a fixed type only those of constants ask for their definition.
      have hconst : sig.declares ≠ .const := by
        intro hconst
        simp [Signature.isConstant, hconst] at hconstant
        simp [Signature.fixedTy?, hconst, hconstant] at hfixed
      have hasks : sig.asks = false := by
        simp [Signature.asks, hknown hsig, hconst]
      intro R J hJ t ht
      have hsigt := hsig
      rw [← hJ.signatures ht] at hsigt
      have hty := tyOf_eq ((hJ.signatures ht).trans hs'.symm) n
      have hfinds : Finds R scope area n t (t.reference (sig.declares = .const) area n) t :=
        .value hfree hsigt hfixed (by rw [hasks]; rfl)
      have hreference : t.reference (sig.declares = .const) area n = .name ⟨s'.tyOf n, area⟩ n := by
        simp [State.reference, hconst, hty]
      rw [hreference] at hfinds
      exact ⟨t, .name hfinds, ht⟩

theorem enum?_of_derives {R : Resolution} {subject subject' : Expr}
    (h : Derives R scope scope subject s subject' s') (ht : t.signatures = s.signatures)
    (henum : s.enum? scope subject = none) : t.enum? scope subject' = none := by
  unfold State.enum? at henum ⊢
  cases hn : subject'.name? with
  | none => rfl
  | some n =>
    rw [h.name?_eq hn] at henum
    rw [ht]
    exact henum

variable {R : Resolution} (hR : Steady sigs R)

include hR

mutual

/-- What an expression becomes becomes itself, if no constant is left in it. -/
theorem Derives.repeats {outer scope : Scope} {ob b} (houter : outer.Binds ob) (hscope : scope.Binds b)
    {e e' s s'} :
    Derives R outer scope e s e' s' → s.signatures = sigs →
      sigs.NoneConstant (e'.references ob b) → Repeats sigs outer scope e'
  | .literal, _, _ | .variant _ _, _, _ => repeats_constant _ _
  | .timeStep, _, _ => fun _ _ _ t ht => ⟨t, .timeStep, ht⟩
  | .builtIn hfind, _, _ => fun _ _ _ t ht => ⟨t, .builtIn hfind, ht⟩
  | .name hfinds, hs, hnames =>
    hfinds.repeats hR.known hs (hfinds.relates hR.carries hs) hscope hnames
  | .listMap hsource hlist hbody hty, hs, hnames => by
    obtain ⟨hleft, hright⟩ := forall_mem_append.1 hnames
    have hsource' := hsource.repeats houter houter hs hleft
    have hbody' := hbody.repeats houter (hscope.bind _ _) (hsource.relates hR.carries hs) hright
    intro R J hJ t ht
    obtain ⟨t₁, hd₁, ht₁⟩ := hsource' hJ ht
    obtain ⟨t₂, hd₂, ht₂⟩ := hbody' hJ ht₁
    exact ⟨t₂, .listMap hd₁ hlist hd₂ hty, ht₂⟩
  | .listFilter hlist hfilter hcondition hbool, hs, hnames => by
    obtain ⟨hleft, hright⟩ := forall_mem_append.1 hnames
    have hlist' := hlist.repeats hscope hscope hs hleft
    have hcondition' := hcondition.repeats (hscope.inside _) (hscope.inside _)
      (hlist.relates hR.carries hs) hright
    intro R J hJ t ht
    obtain ⟨t₁, hd₁, ht₁⟩ := hlist' hJ ht
    obtain ⟨t₂, hd₂, ht₂⟩ := hcondition' hJ ht₁
    exact ⟨t₂, .listFilter hd₁ hfilter hd₂ hbool, ht₂⟩
  | .member henum hsubject hty, hs, hnames => by
    refine repeats_expr fun hv => ?_
    rw [expr_of_value_eq_none hv] at hnames ⊢
    have hsubject' := hsubject.repeats hscope hscope hs hnames
    intro R J hJ t ht
    obtain ⟨t₁, hd₁, ht₁⟩ := hsubject' hJ ht
    have henum' := enum?_of_derives hsubject ((hJ.signatures ht).trans hs.symm) henum
    exact ⟨t₁, derives_operator hv (.member henum' hd₁ hty), ht₁⟩
  | .builtinCall hfind harity hargs hverdict, hs, hnames => by
    refine repeats_expr fun hv => ?_
    rw [expr_of_value_eq_none hv] at hnames ⊢
    have hargs' := hargs.repeats hscope hs hnames
    intro R J hJ t ht
    obtain ⟨t₁, hd₁, ht₁⟩ := hargs' hJ ht
    rw [← hargs.length_eq] at harity
    exact ⟨t₁, derives_operator hv (derives_unnoted hv (.builtinCall hfind harity hd₁ hverdict)), ht₁⟩
  | .call hbuiltIn hcallee hty hsig hargs hadmits hasked, hs, hnames => by
    obtain ⟨hleft, hright⟩ := forall_mem_append.1 hnames
    have hs₁ := hcallee.relates hR.carries hs
    have hs₂ := hargs.relates hR.carries hs₁
    have hcallee' := hcallee.repeats hscope hscope hs hleft
    have hargs' := hargs.repeats hscope hs₁ hright
    rw [hs₁] at hsig
    have hs₃ := hasked.relates hR.carries hs₂
    intro R J hJ t ht
    obtain ⟨t₁, hd₁, ht₁⟩ := hcallee' hJ ht
    obtain ⟨t₂, hd₂, ht₂⟩ := hargs' hJ ht₁
    have hbuiltIn' := hcallee.isOp_builtIn hbuiltIn
    have hsig' := hsig
    rw [← hJ.signatures ht₁] at hsig'
    rw [tyOf_eq (hs₃.trans (hJ.signatures ht₂).symm) _]
    exact ⟨t₂, .call hbuiltIn' hd₁ hty hsig' hd₂ hadmits (by rw [hR.known hsig]; rfl), ht₂⟩
  | .actionCall hfree hsig haction hargs hadmits, hs, hnames => by
    have hargs' := hargs.repeats hscope hs (forall_mem_append.1 hnames).2
    rw [hs] at hsig
    intro R J hJ t ht
    obtain ⟨t₁, hd₁, ht₁⟩ := hargs' hJ ht
    rw [← hJ.signatures ht] at hsig
    exact ⟨t₁, .actionCall hfree hsig haction hd₁ hadmits, ht₁⟩
  | .operands hpermits hoperands hverdict, hs, hnames => by
    refine repeats_expr fun hv => ?_
    rw [expr_of_value_eq_none hv] at hnames ⊢
    rw [references_of_settles (settle?_eq_some_iff.1 hverdict)] at hnames
    have hoperands' := hoperands.repeats hscope hs hnames
    rw [← hoperands.length_eq] at hpermits
    intro R J hJ t ht
    obtain ⟨t₁, hd₁, ht₁⟩ := hoperands' hJ ht
    exact ⟨t₁, derives_operator hv (.operands hpermits hd₁ hverdict), ht₁⟩
  | .update hfree hsig hvar hasked hvalue hcoerces, hs, hnames => by
    have hs₁ := hR.carries.asked hasked hs
    have hvalue' := hvalue.repeats hscope hscope hs₁ hnames
    rw [hs] at hsig
    intro R J hJ t ht
    obtain ⟨t₁, hagain, ht₁⟩ := hJ.asked hsig hvar ht
    obtain ⟨t₂, hd₁, ht₂⟩ := hvalue' hJ ht₁
    have hty := tyOf_eq (hs₁.trans (hJ.signatures ht₁).symm)
    rw [← hJ.signatures ht] at hsig
    rw [hty] at hcoerces ⊢
    exact ⟨t₂, .update hfree hsig hvar hagain hd₁ hcoerces, ht₂⟩
  | .withBinding hbindings hbody, hs, hnames => by
    obtain ⟨hleft, hright⟩ := forall_mem_append.1 hnames
    have hbindings' := hbindings.repeats hscope hs hleft
    have hbody' := hbody.repeats (hscope.withBindings _) (hscope.withBindings _)
      (hbindings.relates hR.carries hs) hright
    intro R J hJ t ht
    obtain ⟨t₁, hd₁, ht₁⟩ := hbindings' hJ ht
    obtain ⟨t₂, hd₂, ht₂⟩ := hbody' hJ ht₁
    exact ⟨t₂, .withBinding hd₁ hd₂, ht₂⟩

theorem DerivesAll.repeats {scope : Scope} {b} (hscope : scope.Binds b) {es es' s s'} :
    DerivesAll R scope es s es' s' → s.signatures = sigs →
      sigs.NoneConstant (Expr.referencesOf b es') → RepeatsAll sigs scope es'
  | .nil, _, _ => fun _ _ _ t ht => ⟨t, .nil, ht⟩
  | .cons hhead htail, hs, hnames => by
    obtain ⟨hleft, hright⟩ := forall_mem_append.1 hnames
    have hhead' := hhead.repeats hscope hscope hs hleft
    have htail' := htail.repeats hscope (hhead.relates hR.carries hs) hright
    intro R J hJ t ht
    obtain ⟨t₁, hd₁, ht₁⟩ := hhead' hJ ht
    obtain ⟨t₂, hd₂, ht₂⟩ := htail' hJ ht₁
    exact ⟨t₂, .cons hd₁ hd₂, ht₂⟩

theorem DerivesBindings.repeats {scope : Scope} {b} (hscope : scope.Binds b) {chain e e' s s'} :
    DerivesBindings R scope chain e s e' s' → s.signatures = sigs →
      sigs.NoneConstant (e'.bindingReferences b) → RepeatsBindings sigs scope chain e'
  | .both hleft hright, hs, hnames => by
    obtain ⟨hnames₁, hnames₂⟩ := forall_mem_append.1 hnames
    have hleft' := hleft.repeats hscope hs hnames₁
    have hright' := hright.repeats hscope (hleft.relates hR.carries hs) hnames₂
    intro R J hJ t ht
    obtain ⟨t₁, hd₁, ht₁⟩ := hleft' hJ ht
    obtain ⟨t₂, hd₂, ht₂⟩ := hright' hJ ht₁
    exact ⟨t₂, derivesBindings_both hd₁ hd₂, ht₂⟩
  | .assignment hvalue, hs, hnames => by
    have hvalue' := hvalue.repeats hscope hscope hs hnames
    intro R J hJ t ht
    obtain ⟨t₁, hd₁, ht₁⟩ := hvalue' hJ ht
    exact ⟨t₁, .assignment hd₁, ht₁⟩

end

end Repetitions

/-- A definition that is analyzed again as it is, if no constant is left in it. -/
def Redefines (sig : Signature) (e : Expr) : Prop :=
  sigs.NoneConstant (e.references sig.paramNames sig.paramNames) →
    Repeats sigs (bodyScope sig) (bodyScope sig) e ∧ accept sig e = .ok e

/-- Where all types are declared the signatures stay as they are. -/
theorem signatures_of_resolve {n : String} {k : Nat} {s s' : State}
    (h : resolve n k s = .ok () s') (hknown : s.signatures.Known) :
    s'.signatures = s.signatures := by
  obtain ⟨hgrows, -⟩ := grows_of_resolve h
  refine NameMap.eq_of_get?_eq fun m => ?_
  cases hm : s.signatures.get? m with
  | some sig => exact hgrows.known m sig hm (hknown hm)
  | none =>
    have hstatic := hgrows.progress.static m
    rw [hm, Option.map_none, Option.map_eq_none_iff] at hstatic
    exact hstatic

theorem signatures_of_course_of_known {s s' : State} (h : Course s s')
    (hknown : s.signatures.Known) : s'.signatures = s.signatures :=
  signatures_of_course (I := (· = s.signatures))
    (fun h hs => (signatures_of_resolve h (hs ▸ hknown)).trans hs) h rfl

theorem steady_resolve {R : Resolution} {sigs : Signatures} (hknown : sigs.Known)
    (hR : ∀ {n s s'}, R n s s' → ∃ k, resolve n k s = .ok () s') : Steady sigs R where
  known := hknown
  carries :=
    { refl := fun _ h => h
      trans := fun h h' hs => h' (h hs)
      notes := fun _ _ h => h
      asked := fun h hs => by
        obtain ⟨k, hresolve⟩ := hR h
        exact (signatures_of_resolve hresolve (hs ▸ hknown)).trans hs }

/-- What was analyzed can be analyzed again. -/
theorem Analyzed.redefines {s : State} {n : String} (h : Analyzed s n e)
    (hknown : s.signatures.Known) :
    ∃ sig, s.signatures.get? n = some sig ∧ Redefines s.signatures sig e := by
  obtain ⟨t, k, sig, body, body', t', hcourse, hsig, -, -, hderives, haccept⟩ := h
  have ht := signatures_of_course_of_known hcourse hknown
  refine ⟨sig, hsig, fun hnames => ⟨?_, ?_⟩⟩
  · obtain ⟨-, he⟩ := accept_eq_ok_iff.1 haccept
    rw [hknown hsig] at he
    cases hv : body'.value? with
    | some v =>
      have hconstant : e = .constant (v.convert sig.ty) body'.area := by
        rw [he.2, Expr.convertTo, hv]
      rw [hconstant]
      exact repeats_constant _ _
    | none =>
      have hsame : e = body' := by rw [he.2, Expr.convertTo, hv]
      rw [hsame] at hnames ⊢
      have hscope := binds_bodyScope sig
      exact hderives.repeats (steady_resolve hknown fun h => ⟨k, h⟩) hscope hscope ht hnames
  · exact accept_again (hknown hsig) (fun v hv => hderives.eq_constant hv) haccept

section Again

variable {p q : Program}

/-- A program whose definitions can be analyzed again as they are. -/
structure Repeatable (q : Program) : Prop where
  known : q.signatures.Known
  definitions : ∀ n e, q.identifiers.get? n = some e → ∃ sig, q.signatures.get? n = some sig ∧
    Repeats q.signatures (bodyScope sig) (bodyScope sig) e ∧ accept sig e = .ok e
  vars : ∀ n sig, q.signatures.get? n = some sig → sig.declares = .var → q.Defines n

/-- A state of the analysis of such a program, with room to begin some definitions. -/
structure Restarted (q : Program) (k : Nat) (t : State) : Prop where
  signatures : t.signatures = q.signatures
  identifiers : t.identifiers = q.identifiers
  pending : pendingCount q t ≤ k

variable {t : State} {k : Nat} {n : String}

theorem record_again (ht : Restarted q k t) {sig : Signature} (hknown : sig.ty.isUnknown = false)
    (he : q.identifiers.get? n = some e) : record t n sig e = t := by
  rw [← ht.identifiers] at he
  unfold record
  rw [hknown, NameMap.insert_of_get? he]
  rfl

theorem resolve_again (hq : Repeatable q) (hn : q.Defines n) (ht : Restarted q k t) :
    ∃ t', resolve n k t = .ok () t' ∧ Restarted q k t' := by
  induction k generalizing n t with
  | zero =>
    have hbegun := begun_of_pendingCount_eq_zero hn (Nat.le_zero.1 ht.pending)
    exact ⟨t, resolve_zero_eq_ok_iff.2 ⟨hbegun, rfl⟩, ht⟩
  | succ k ih =>
    cases hbegun : t.hasBegun n with
    | true => exact ⟨t, resolve_of_begun hbegun _, ht⟩
    | false =>
      obtain ⟨e, he⟩ := NameMap.contains_eq_true_iff.1 hn
      obtain ⟨sig, hsig, hrepeats, haccept⟩ := hq.definitions n e he
      have hroom : Restarted q k (begin t n) := by
        have hless := pendingCount_begin hn hbegun
        have hpending := ht.pending
        exact ⟨ht.signatures, ht.identifiers, by omega⟩
      have hagain : Again q.signatures (.of (resolve · k)) (Restarted q k) :=
        ⟨fun t ht => ht.signatures, fun m sig' t hm hvar ht =>
          ih (hq.vars m sig' hm hvar) ht⟩
      obtain ⟨t₁, hderives, ht₁⟩ := hrepeats hagain hroom
      refine ⟨t₁, resolve_succ_eq_ok_iff.2 (.inr ⟨hbegun, sig, e, e, e, t₁, ?_, ?_, hderives,
        haccept, (record_again ht₁ (hq.known hsig) he).symm⟩), ht₁.signatures, ht₁.identifiers,
        Nat.le_succ_of_le ht₁.pending⟩
      · rw [ht.signatures, hsig]
      · rw [ht.identifiers, he]

theorem again_resolveAny (hq : Repeatable q) :
    Again q.signatures (.of resolveAny) (Restarted q q.identifiers.size) where
  signatures _ ht := ht.signatures
  asked n sig t hsig hvar ht := by
    obtain ⟨t', hrun, ht'⟩ := resolve_again hq (hq.vars n sig hsig hvar) ht
    rw [← ht.identifiers] at hrun
    exact ⟨t', hrun, ht'⟩

theorem runs_resolveAny (hq : Repeatable q) (hn : q.Defines n) :
    Runs (Restarted q q.identifiers.size) (resolveAny n) () := by
  intro t ht
  obtain ⟨t', hrun, ht'⟩ := resolve_again hq hn ht
  rw [← ht.identifiers] at hrun
  exact ⟨t', hrun, ht'⟩

theorem restarted_start (q : Program) : Restarted q q.identifiers.size (start q) where
  signatures := rfl
  identifiers := rfl
  pending := Nat.le_trans (length_filter_le _ _) (Nat.le_of_eq (length_map _))

/-- A program whose definitions can be analyzed again and whose other parts became what they are
is analyzed as it is. -/
theorem analyze_of_repeatable (hq : Repeatable q)
    (hlift : q.Lift (fun scope _ e' => Repeats q.signatures scope scope e') q) :
    q.analyze.outcome = .ok q := by
  have hnames : Runs (Restarted q q.identifiers.size) (q.identifiers.names.forM resolveAny) () :=
    runs_forM fun n hn => runs_resolveAny hq (NameMap.mem_names_iff.1 hn)
  obtain ⟨s₁, hrun, hs₁⟩ := hnames (restarted_start q)
  refine analyze_eq_ok_iff.2 (inferProgram_of_lift (fun s notes hs => { hs with }) ?_ ?_ hrun hs₁ ?_)
  · exact fun s hs n => by rw [hs.signatures]
  · exact fun s hs => ⟨hs.signatures, hs.identifiers⟩
  · refine hlift.reflects (fun scope e e' he => ?_) rfl
    exact fun t ht => he (again_resolveAny hq) ht

end Again

section Annotated

variable {p q : Program}

variable {s : State}

theorem noneConstant_of_scoped {outer bound : List String}
    (h : e.Scoped (fun n => ∃ sig, p.signatures.get? n = some sig ∧ sig.isConstant = false)
      outer bound) : p.signatures.NoneConstant (e.references outer bound) := by
  intro n hn sig hsig
  obtain ⟨sig', hsig', hconstant⟩ := h.references n hn
  cases hsig.symm.trans hsig'
  exact hconstant

theorem Ended.signatures_eq (h : Ended p s) (hknown : p.signatures.Known) :
    s.signatures = p.signatures :=
  signatures_of_course_of_known h.history.course hknown

/-- The definitions of an analyzed program with declared types can be analyzed again. -/
theorem repeatable_of_ended (hknown : p.signatures.Known)
    (hvars : ∀ n sig, p.signatures.get? n = some sig → sig.declares = .var → p.Defines n)
    (hs : Ended p s) (hsignatures : q.signatures = s.signatures)
    (hidentifiers : q.identifiers = s.identifiers) : Repeatable q := by
  have hsame : q.signatures = p.signatures := hsignatures.trans (hs.signatures_eq hknown)
  refine ⟨hsame ▸ hknown, fun n e he => ?_, fun n sig hsig hvar => ?_⟩
  · rw [hidentifiers] at he
    obtain ⟨sig, hsig, hfinished⟩ := hs.completed.finished he
    obtain ⟨sig', hsig', hredefines⟩ := (hs.analyzed he).redefines hknown
    cases hsig.symm.trans hsig'
    have hscoped := hfinished.closed _ fun _ => Reached.not_constant (.refl (start p))
    rw [hsame]
    exact ⟨sig, hsig, hredefines (noneConstant_of_scoped hscoped)⟩
  · rw [hsame] at hsig
    have hnames : s.identifiers.names = p.identifiers.names := hs.completed.reached.names
    have hdefined := NameMap.mem_names_iff.2 (hvars n sig hsig hvar)
    rw [← hnames, ← hidentifiers] at hdefined
    exact NameMap.mem_names_iff.1 hdefined

end Annotated

end Typing

/-- The analysis of an analyzed program, all of whose types were declared, changes nothing. -/
theorem Program.analyze_again {tokens : List Token} {p q : Program}
    (hparse : Program.parse tokens = .ok p)
    (hdeclared : ∀ n sig, p.signatures.get? n = some sig → sig.declares.isValue = true →
      sig.ty ≠ .unknown)
    (h : p.analyze.outcome = .ok q) : q.analyze.outcome = .ok q := by
  have hmade := Program.wellMade_of_parse hparse
  have hknown : p.signatures.Known := by
    intro n sig hsig
    cases hvalue : sig.declares.isValue with
    | false => exact (hmade.written n sig hsig).known hvalue
    | true =>
      have hne := hdeclared n sig hsig hvalue
      cases hty : sig.ty <;> first | rfl | exact absurd hty hne
  obtain ⟨s, hs, hsignatures, hidentifiers, hlift⟩ := Typing.exists_ended h
  have hvars : ∀ n sig, p.signatures.get? n = some sig → sig.declares = .var → p.Defines n := by
    intro n sig hsig hvar
    exact ((shaped_of_parse hparse).signatures n sig hsig).defined (by simp [hvar]) (by simp [hvar])
  have hsame : q.signatures = p.signatures := hsignatures.trans (hs.signatures_eq hknown)
  refine Typing.analyze_of_repeatable
    (Typing.repeatable_of_ended hknown hvars hs hsignatures hidentifiers) ?_
  refine hlift.reflects (fun scope e e' he => ?_) hsame
  obtain ⟨t, t', ht, -, hderives⟩ := he
  have hscope := scope.binds_names
  have hscoped := hderives.scoped Typing.resolves_of_resolve hscope hscope
    fun _ => ht.completed.reached.not_constant
  rw [hsame]
  have hsteady : Typing.Steady p.signatures (.of Typing.resolveAny) :=
    Typing.steady_resolve hknown fun h => ⟨_, h⟩
  exact hderives.repeats hsteady hscope hscope (ht.signatures_eq hknown)
    (Typing.noneConstant_of_scoped hscoped)

/-- The words `const c: int = 2; let f(x: int): int = x + c; public { f(c); }` on one line. -/
theorem Program.analyze_again_call :
    let word (l : Lexeme) (start stop : Nat) : Token :=
      ⟨l, ⟨start, 1, start + 1⟩, ⟨stop, 1, stop + 1⟩⟩
    let tokens := [word (.keyword .constDecl) 0 5, word (.name "c") 6 7, word (.symbol .colon) 7 8,
      word (.name "int") 9 12, word (.symbol .equal) 13 14, word (.int 2) 15 16,
      word (.symbol .semicolon) 16 17, word (.keyword .letDecl) 18 21, word (.name "f") 22 23,
      word (.symbol .parenLeft) 23 24, word (.name "x") 24 25, word (.symbol .colon) 25 26,
      word (.name "int") 27 30, word (.symbol .parenRight) 30 31, word (.symbol .colon) 31 32,
      word (.name "int") 33 36, word (.symbol .equal) 37 38, word (.name "x") 39 40,
      word (.symbol .plus) 41 42, word (.name "c") 43 44, word (.symbol .semicolon) 44 45,
      word (.keyword .publicBlock) 46 52, word (.symbol .curlyLeft) 53 54, word (.name "f") 55 56,
      word (.symbol .parenLeft) 56 57, word (.name "c") 57 58, word (.symbol .parenRight) 58 59,
      word (.symbol .semicolon) 59 60, word (.symbol .curlyRight) 61 62]
    ∃ p q, Program.parse tokens = .ok p ∧ p.analyze.outcome = .ok q ∧
      q.references = ["f"] ∧ q.analyze.outcome = .ok q := by
  intro word tokens
  obtain ⟨p, hp, q, hq, hall, hreferences⟩ : ∃ p, Program.parse tokens = .ok p ∧
      ∃ q, p.analyze.outcome = .ok q ∧
        (∀ e ∈ p.signatures.entries, e.2.ty.isUnknown = false) ∧ q.references = ["f"] := by
    decide +kernel
  refine ⟨p, q, hp, hq, hreferences, Program.analyze_again hp (fun n sig hsig _ hty => ?_) hq⟩
  have hknown := hall (n, sig) (NameMap.get?_eq_some_iff.1 hsig)
  rw [hty] at hknown
  cases hknown

end Diagram
