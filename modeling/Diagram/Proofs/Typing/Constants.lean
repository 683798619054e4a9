import Diagram.Proofs.Program.Scoped
import Diagram.Proofs.Typing.Resolution
import Diagram.Proofs.Typing.Settled

/-!
# References to constants while a program is analyzed

A reference to a constant is left as a name only while the definition of the constant is being
analyzed, and then that definition is refused in the end, since what it becomes is no constant.
So a definition that is finished refers to no constant except to those that are still open around
it, and nothing is open once the analysis is over.

Main statements: `Derives.literals`, `Derives.scoped`, `resolves_of_resolve`.
-/

namespace Diagram

open Option Signature

variable (sig : Signature)

/-- What the analysis of a definition does not change in its signature. -/
def Signature.bare : Signature :=
  { sig with ty := .unknown }

def Signature.paramNames : List String :=
  sig.paramList.map (·.name)

namespace Signature

variable (sig : Signature)

theorem declares_bare : sig.bare.declares = sig.declares := rfl

theorem isConstant_bare : sig.bare.isConstant = sig.isConstant := rfl

theorem paramNames_bare : sig.bare.paramNames = sig.paramNames := rfl

theorem isConstant_of_fixedTy? {n : String} {t : Ty} (h : sig.fixedTy? n = some t) :
    sig.isConstant = false := by
  unfold fixedTy? at h
  unfold isConstant
  split at h
  · simp_all
  · simp_all
  · split at h
    · simp_all
    · cases h

end Signature

namespace Typing

/-- Whether a name may be left in an expression: it is declared, and if it is a constant, then its
definition has begun and is not finished. -/
def State.Leaves (s : State) (n : String) : Prop :=
  ∃ sig, s.signatures.get? n = some sig ∧
    (sig.isConstant = true → s.hasBegun n = true ∧ s.valueOf? n = none)

/-- A finished definition: constants and variables are literals, and the names in others are bound
or may be left. -/
structure Finished (s : State) (sig : Signature) (e : Expr) : Prop where
  literal : sig.isConstant = true ∨ sig.declares = .var → e.isLiteral = true
  closed : ∀ D, (∀ n, s.Leaves n → D n) → e.Scoped D sig.paramNames sig.paramNames

/-- What a part of an analysis does to the state: it begins definitions and finishes those that
it begins. -/
structure Progress (s s' : State) : Prop where
  static : ∀ n, (s'.signatures.get? n).map bare = (s.signatures.get? n).map bare
  names : s'.identifiers.names = s.identifiers.names
  begun : ∀ n, s.hasBegun n = true → s'.hasBegun n = true
  frozen : ∀ n, s.hasBegun n = true → s'.identifiers.get? n = s.identifiers.get? n
  finished : ∀ n, s.hasBegun n = false → s'.hasBegun n = true →
    ∃ sig e, s.signatures.get? n = some sig ∧ s'.identifiers.get? n = some e ∧ Finished s sig e

/-- Whether all definitions that a part of an analysis begins become constants. -/
def Literals (s s' : State) : Prop :=
  ∀ n, s.hasBegun n = false → s'.hasBegun n = true → (s'.valueOf? n).isSome = true

namespace Progress

variable {s s₁ s₂ : State}

theorem refl (s : State) : Progress s s where
  static _ := rfl
  names := rfl
  begun _ h := h
  frozen _ _ := rfl
  finished n h h' := by simp [h] at h'

variable {n : String} {sig₁ : Signature}

variable (h : Progress s s₁)

include h

theorem bare_of_get? (hsig : s₁.signatures.get? n = some sig₁) :
    ∃ sig, s.signatures.get? n = some sig ∧ sig.bare = sig₁.bare := by
  have hstatic := h.static n
  rw [hsig] at hstatic
  exact map_eq_some_iff.1 hstatic.symm

/-- What may be left after a part of an analysis was left before it. -/
theorem leaves (hn : s₁.Leaves n) : s.Leaves n := by
  obtain ⟨sig₁, hsig₁, hopen⟩ := hn
  obtain ⟨sig, hsig, hbare⟩ := h.bare_of_get? hsig₁
  refine ⟨sig, hsig, fun hconstant => ?_⟩
  rw [← sig₁.isConstant_bare, ← hbare] at hopen
  obtain ⟨hbegun, hvalue⟩ := hopen hconstant
  cases hold : s.hasBegun n with
  | true =>
    refine ⟨rfl, ?_⟩
    unfold State.valueOf? at hvalue ⊢
    rw [← h.frozen n hold]
    exact hvalue
  | false =>
    -- A constant that was begun since is a literal by now.
    obtain ⟨sig', e, hsig', he, hfinished⟩ := h.finished n hold hbegun
    cases hsig.symm.trans hsig'
    have hliteral := hfinished.literal (.inl hconstant)
    simp only [State.valueOf?, he, bind_some] at hvalue
    simp [Expr.isLiteral, hvalue] at hliteral

theorem finished_of_finished {sig : Signature} (hbare : sig.bare = sig₁.bare)
    {e : Expr} (he : Finished s₁ sig₁ e) : Finished s sig e where
  literal hsig := by
    rw [← sig.isConstant_bare, ← sig.declares_bare, hbare] at hsig
    exact he.literal hsig
  closed D hD := by
    rw [← sig.paramNames_bare, hbare]
    exact he.closed D fun n hn => hD n (h.leaves hn)

theorem trans (h₁ : Progress s₁ s₂) : Progress s s₂ where
  static n := (h₁.static n).trans (h.static n)
  names := h₁.names.trans h.names
  begun n hn := h₁.begun n (h.begun n hn)
  frozen n hn := (h₁.frozen n (h.begun n hn)).trans (h.frozen n hn)
  finished n hn hn₂ := by
    cases hn₁ : s₁.hasBegun n with
    | true =>
      -- What the first part has finished, the second leaves alone.
      obtain ⟨sig, e, hsig, he, hfinished⟩ := h.finished n hn hn₁
      exact ⟨sig, e, hsig, (h₁.frozen n hn₁).trans he, hfinished⟩
    | false =>
      obtain ⟨sig₁, e, hsig₁, he, hfinished⟩ := h₁.finished n hn₁ hn₂
      obtain ⟨sig, hsig, hbare⟩ := h.bare_of_get? hsig₁
      exact ⟨sig, e, hsig, he, h.finished_of_finished hbare hfinished⟩

end Progress

namespace Literals

variable {s s₁ s₂ : State}

theorem refl (s : State) : Literals s s := fun n h h' => by simp [h] at h'

theorem trans (h : Literals s s₁) (h₁ : Literals s₁ s₂) (hprogress : Progress s₁ s₂) :
    Literals s s₂ := by
  intro n hn hn₂
  cases hn₁ : s₁.hasBegun n with
  | true =>
    unfold State.valueOf?
    rw [hprogress.frozen n hn₁]
    exact h n hn hn₁
  | false => exact h₁ n hn₁ hn₂

end Literals

/-- What the resolution of a name does.  If the name is a constant then, all that was begun for it
is. -/
structure Resolves (n : String) (s s' : State) : Prop where
  progress : Progress s s'
  begun : s'.hasBegun n = true
  literals : (s'.valueOf? n).isSome = true → Literals s s'

section Scopes

variable {D : String → Prop} {v : Verdict} {op : Operation} {operands : List Expr}

theorem Verdict.scoped_expr {area : Area} {outer bound : List String}
    (h : (Expr.operator ⟨v.ty, area⟩ op operands).Scoped D outer bound) :
    (v.expr area op operands).Scoped D outer bound := by
  unfold Verdict.expr
  split
  · exact .literal
  · exact h

theorem scoped_convertTo {e : Expr} {t : Ty} {outer bound : List String}
    (h : e.Scoped D outer bound) : (e.convertTo t).Scoped D outer bound := by
  unfold Expr.convertTo
  split
  · exact .literal
  · exact h

theorem readsInPlace_of_settles (h : Settles op operands v) : op.readsInPlace := by
  have hop := h.isSettled
  cases op <;> first | rfl | cases hop

theorem references_of_settles {info : Info} (h : Settles op operands v)
    (outer bound : List String) :
    (Expr.operator info op operands).references outer bound = Expr.referencesOf bound operands := by
  have hop := h.isSettled
  cases op <;> first | rfl | cases hop

theorem leaves_of_not_constant {s : State} {n : String} {sig : Signature}
    (hsig : s.signatures.get? n = some sig) (h : sig.isConstant = false) : s.Leaves n :=
  ⟨sig, hsig, fun hconstant => by simp [h] at hconstant⟩

end Scopes

theorem value_of_isLiteral_expr {v : Verdict} {area : Area} {op : Operation}
    {operands : List Expr} (h : (v.expr area op operands).isLiteral) :
    ∃ w, v.value = some w := by
  unfold Verdict.expr at h
  split at h
  · rename_i w hw
    exact ⟨w, hw⟩
  · cases h

section Derivations

variable {R : Resolution} (hR : ∀ {n s s'}, R n s s' → Resolves n s s')

include hR

theorem carries_progress : Carries R Progress where
  refl := .refl
  trans := .trans
  notes s _ := { Progress.refl s with }
  asked h := (hR h).progress

theorem Finds.literals {scope : Scope} {area : Area} {n : String} {s s' : State} {e' : Expr}
    (h : Finds R scope area n s e' s') (he' : e'.isLiteral) : Literals s s' := by
  cases h with
  | bound | time | fixed => cases he'
  | @value sig s' hfree hsig hfixed hasked =>
    -- Only a constant is looked up as a literal.
    unfold State.reference at he'
    split at he'
    · rename_i v hv
      by_cases hconst : sig.declares = .const
      · simp only [hconst, decide_true, if_true] at hv
        have hasks : sig.asks = true := by simp [asks, hconst]
        rw [hasks] at hasked
        exact (hR hasked).literals (by simp [hv])
      · simp [hconst] at hv
    · cases he'

mutual

/-- A derivation of a constant begins only definitions of constants. -/
theorem Derives.literals {outer scope e e' s s'} :
    Derives R outer scope e s e' s' → e'.isLiteral → Literals s s'
  | .literal, _ | .variant _ _, _ => .refl _
  | .name hfinds, he' => hfinds.literals hR he'
  | .member _ hsubject _, he' => hsubject.literals (by
      obtain ⟨v, hv⟩ := value_of_isLiteral_expr he'
      obtain ⟨w, hw, -⟩ := bind_eq_some_iff.1 hv
      exact isLiteral_of_value? hw)
  | .builtinCall _ _ hargs hverdict, he' => by
    obtain ⟨v, hv⟩ := value_of_isLiteral_expr he'
    have hliterals := hargs.literals (isLiteral_of_callVerdict? hverdict hv)
    unfold State.noted
    split
    · exact hliterals
    · exact hliterals
  | .operands _ hoperands hverdict, he' => by
    obtain ⟨v, hv⟩ := value_of_isLiteral_expr he'
    exact hoperands.literals (isLiteral_of_settle? hverdict hv)
  | .timeStep, he' => nomatch he'
  | .listMap _ _ _ _, he' => nomatch he'
  | .listFilter _ _ _ _, he' => nomatch he'
  | .builtIn _, he' => nomatch he'
  | .call _ _ _ _ _ _ _, he' => nomatch he'
  | .actionCall _ _ _ _ _, he' => nomatch he'
  | .update _ _ _ _ _ _, he' => nomatch he'
  | .withBinding _ _, he' => nomatch he'

/-- A derivation of constants begins only definitions of constants. -/
theorem DerivesAll.literals {scope es es' s s'} :
    DerivesAll R scope es s es' s' → (∀ e ∈ es', e.isLiteral) → Literals s s'
  | .nil, _ => .refl _
  | .cons hhead htail, hes' =>
    (hhead.literals (hes' _ (by simp))).trans (htail.literals fun e he => hes' e (by simp [he]))
      (htail.relates (carries_progress hR))

end

section Scopes

variable {D : String → Prop}

theorem Finds.scoped {scope : Scope} {bound : List String} (hscope : scope.Binds bound)
    {area : Area} {n : String} {s s' : State} {e' : Expr} (h : Finds R scope area n s e' s')
    (hs : ∀ n, s.Leaves n → D n) (outer : List String) : e'.Scoped D outer bound := by
  cases h with
  | bound hbound => exact .name (.inl ((hscope n).2 (by simp [hbound])))
  | time => exact .timeStep
  | @fixed sig t hfree hsig hfixed =>
    exact .name (.inr (hs n (leaves_of_not_constant hsig (sig.isConstant_of_fixedTy? hfixed))))
  | @value sig s' hfree hsig hfixed hasked =>
    unfold State.reference
    split
    · exact .literal
    · rename_i hvalue
      refine .name (.inr (hs n ?_))
      cases hconstant : sig.isConstant with
      | false => exact leaves_of_not_constant hsig hconstant
      | true =>
        have hconst : sig.declares = .const := by
          simp only [isConstant, Bool.and_eq_true, decide_eq_true_eq] at hconstant
          exact hconstant.1
        have hasks : sig.asks = true := by simp [asks, hconst]
        rw [hasks] at hasked
        have hresolves := hR hasked
        simp only [hconst, decide_true, if_true] at hvalue
        have hstatic := hresolves.progress.static n
        rw [hsig, map_some, map_eq_some_iff] at hstatic
        obtain ⟨sig', hsig', -⟩ := hstatic
        exact hresolves.progress.leaves ⟨sig', hsig', fun _ => ⟨hresolves.begun, hvalue⟩⟩

mutual

/-- The names of what is derived are bound or may be left. -/
theorem Derives.scoped {outer scope : Scope} {ob b} (houter : outer.Binds ob) (hscope : scope.Binds b)
    {e e' s s'} : Derives R outer scope e s e' s' → (∀ n, s.Leaves n → D n) → e'.Scoped D ob b
  | .literal, _ | .variant _ _, _ => .literal
  | .timeStep, _ => .timeStep
  | .name hfinds, hs => hfinds.scoped hR hscope hs ob
  | .listMap hsource _ hbody _, hs => by
    have hprogress := hsource.relates (carries_progress hR)
    exact .listMap (hsource.scoped houter houter hs)
      (hbody.scoped houter (hscope.bind _ _) fun n hn => hs n (hprogress.leaves hn))
  | .listFilter hlist _ hcondition _, hs => by
    have hprogress := hlist.relates (carries_progress hR)
    have hinside := hscope.inside
    exact .listFilter (hlist.scoped hscope hscope hs)
      (hcondition.scoped (hinside _) (hinside _) fun n hn => hs n (hprogress.leaves hn))
  | .member _ hsubject _, hs => Verdict.scoped_expr (.memberAccess (hsubject.scoped hscope hscope hs))
  | .builtIn _, _ => .builtIn
  | .builtinCall _ _ hargs _, hs =>
    Verdict.scoped_expr (.inPlace rfl (List.forall_mem_cons.2 ⟨.builtIn, hargs.scoped hscope hs⟩))
  | .call _ hcallee _ _ hargs _ _, hs => by
    have hprogress := hcallee.relates (carries_progress hR)
    exact .inPlace rfl (List.forall_mem_cons.2 ⟨hcallee.scoped hscope hscope hs,
      hargs.scoped hscope fun n hn => hs n (hprogress.leaves hn)⟩)
  | .actionCall _ hsig haction hargs _, hs => by
    refine .actionCall (.inr (hs _ (leaves_of_not_constant hsig ?_))) (hargs.scoped hscope hs)
    simp [isConstant, haction]
  | .operands _ hoperands hverdict, hs =>
    Verdict.scoped_expr (.inPlace (readsInPlace_of_settles (settle?_eq_some_iff.1 hverdict))
      (hoperands.scoped hscope hs))
  | .update _ hsig hvar hasked hvalue _, hs => by
    have hname := hs _ (leaves_of_not_constant hsig (by simp [isConstant, hvar]))
    refine .inPlace rfl ?_
    simpa using ⟨.name (.inr hname),
      hvalue.scoped hscope hscope fun n hn => hs n ((hR hasked).progress.leaves hn)⟩
  | .withBinding hbindings hbody, hs => by
    have hprogress := hbindings.relates (carries_progress hR)
    have hinside := hscope.withBindings
    exact .withBinding (hbindings.scoped hscope hs)
      (hbody.scoped (hinside _) (hinside _) fun n hn => hs n (hprogress.leaves hn))

theorem DerivesAll.scoped {scope : Scope} {b} (hscope : scope.Binds b) {es es' s s'} :
    DerivesAll R scope es s es' s' → (∀ n, s.Leaves n → D n) → ∀ e ∈ es', e.Scoped D b b
  | .nil, _ => nofun
  | .cons hhead htail, hs => by
    have hprogress := hhead.relates (carries_progress hR)
    exact List.forall_mem_cons.2 ⟨hhead.scoped hscope hscope hs,
      htail.scoped hscope fun n hn => hs n (hprogress.leaves hn)⟩

theorem DerivesBindings.scoped {scope : Scope} {b} (hscope : scope.Binds b) {chain e e' s s'} :
    DerivesBindings R scope chain e s e' s' → (∀ n, s.Leaves n → D n) → e'.BindsScoped D b
  | .both hleft hright, hs => by
    have hprogress := hleft.relates (carries_progress hR)
    exact .both (hleft.scoped hscope hs)
      (hright.scoped hscope fun n hn => hs n (hprogress.leaves hn))
  | .assignment hvalue, hs => .assignment (hvalue.scoped hscope hscope hs)

end

end Scopes

end Derivations

theorem binds_bodyScope : (bodyScope sig).Binds sig.paramNames := by
  have hparams := Scope.binds_top.withParams sig.paramList
  rw [List.append_nil] at hparams
  exact hparams

section Definitions

variable {n : String} {s s₁ : State} {sig : Signature} {e : Expr}

theorem get?_signatures_record (m : String) :
    ((record s₁ n sig e).signatures.get? m).map bare =
      if m = n ∧ sig.ty.isUnknown = true then some sig.bare
      else (s₁.signatures.get? m).map bare := by
  unfold record
  by_cases hunknown : sig.ty.isUnknown = true
  · simp only [hunknown, if_true, NameMap.get?_insert, and_true]
    split <;> rfl
  · simp [hunknown]

theorem get?_identifiers_record (m : String) :
    (record s₁ n sig e).identifiers.get? m = if m = n then some e else s₁.identifiers.get? m :=
  NameMap.get?_insert s₁.identifiers n m e

theorem leaves_of_begin (hsig : s.signatures.get? n = some sig) (hconstant : sig.isConstant = false)
    {m : String} (hm : (begin s n).Leaves m) : s.Leaves m := by
  obtain ⟨sig', hsig', hopen⟩ := hm
  refine ⟨sig', hsig', fun hisConstant => ?_⟩
  obtain ⟨hbegun, hvalue⟩ := hopen hisConstant
  refine ⟨?_, hvalue⟩
  rw [contains_begin, Bool.or_eq_true, decide_eq_true_eq] at hbegun
  refine hbegun.resolve_left ?_
  rintro rfl
  cases hsig.symm.trans hsig'
  simp [hconstant] at hisConstant

theorem finished_of_begin (hsig : s.signatures.get? n = some sig)
    (hliterals : sig.isConstant → e.isLiteral) {sig' : Signature}
    (he : Finished (begin s n) sig' e) : Finished s sig' e where
  literal := he.literal
  closed D hD := by
    cases hconstant : sig.isConstant with
    | true =>
      -- A constant refers to nothing.
      have hliteral := hliterals hconstant
      cases e with
      | literal => exact .literal
      | _ => cases hliteral
    | false => exact he.closed D fun m hm => hD m (leaves_of_begin hsig hconstant hm)

variable {R : Resolution} (hR : ∀ {n s s'}, R n s s' → Resolves n s s')

include hR

theorem resolves_record {body body' : Expr} (hbegun : s.hasBegun n = false)
    (hsig : s.signatures.get? n = some sig) (hbody : s.identifiers.get? n = some body)
    (hderives : Derives R (bodyScope sig) (bodyScope sig) body (begin s n) body' s₁)
    (haccept : accept sig body' = .ok e) : Resolves n s (record s₁ n sig e) := by
  have hprogress : Progress (begin s n) s₁ := hderives.relates (carries_progress hR)
  obtain ⟨hneeds, he⟩ := accept_eq_ok_iff.1 haccept
  have hliteral : e.isLiteral = body'.isLiteral := by
    split at he
    · rw [he]
    · rw [he.2, Expr.isLiteral_convertTo]
  have hbegun₁ : s₁.hasBegun n = true := hprogress.begun n (by simp [contains_begin])
  have hscope := binds_bodyScope sig
  -- What the definition becomes is finished.
  have hfinished : Finished (begin s n) sig e := by
    refine ⟨fun h => hliteral.trans (hneeds h), fun D hD => ?_⟩
    have hscoped := hderives.scoped hR hscope hscope hD
    split at he
    · rw [he]
      exact hscoped
    · rw [he.2]
      exact scoped_convertTo hscoped
  have hlits : e.isLiteral = true → Literals (begin s n) s₁ := fun h =>
    hderives.literals hR (hliteral.symm.trans h)
  refine ⟨⟨fun m => ?_, ?_, fun m hm => ?_, fun m hm => ?_, fun m hm hm' => ?_⟩, hbegun₁,
    fun hvalue => ?_⟩
  · rw [get?_signatures_record]
    split
    case isTrue h => rw [h.1, hsig, map_some]
    case isFalse h => exact hprogress.static m
  · have hmem : n ∈ s₁.identifiers.names := by
      rw [hprogress.names]
      exact NameMap.mem_names_iff.2 (NameMap.contains_eq_true_iff.2 ⟨body, hbody⟩)
    exact (NameMap.names_insert (NameMap.mem_names_iff.1 hmem) e).trans hprogress.names
  · exact hprogress.begun m (by simp [contains_begin, hm])
  · have hne : m ≠ n := by
      rintro rfl
      simp [hbegun] at hm
    rw [get?_identifiers_record, if_neg hne]
    exact hprogress.frozen m (by simp [contains_begin, hm])
  · rw [get?_identifiers_record]
    have hconstant : sig.isConstant = true → e.isLiteral = true := fun h =>
      hfinished.literal (.inl h)
    by_cases hmn : m = n
    · subst hmn
      exact ⟨sig, e, hsig, if_pos rfl, finished_of_begin hsig hconstant hfinished⟩
    · rw [if_neg hmn]
      have hnew : (begin s n).hasBegun m = false := by simp [contains_begin, hm, hmn]
      obtain ⟨sig', e', hsig', he', hfinished'⟩ := hprogress.finished m hnew hm'
      refine ⟨sig', e', hsig', he', finished_of_begin hsig (fun h => ?_) hfinished'⟩
      have hvalue := hlits (hconstant h) m hnew hm'
      simpa [State.valueOf?, he', Expr.isLiteral] using hvalue
  · intro m hm hm'
    have he' : e.isLiteral = true := by
      simpa [State.valueOf?, get?_identifiers_record, Expr.isLiteral] using hvalue
    unfold State.valueOf?
    rw [get?_identifiers_record]
    by_cases hmn : m = n
    · rw [if_pos hmn]
      exact he'
    · rw [if_neg hmn]
      exact hlits he' m (by simp [contains_begin, hm, hmn]) hm'

omit hR in
/-- What the analysis of a name does that is asked for. -/
theorem resolves_of_resolve {k : Nat} {s' : State} (h : resolve n k s = .ok () s') :
    Resolves n s s' := by
  refine resolve_induction (P := Resolves) (fun n s hn => ?_) ?_ h
  · exact ⟨.refl s, hn, fun _ => .refl s⟩
  · intro R n s sig body body' e s₁ hR hn hsig hbody hderives haccept
    exact resolves_record (hR _ _ _) hn hsig hbody hderives haccept

end Definitions

end Typing

end Diagram
