import Diagram.Proofs.Typing.Alike
import Diagram.Proofs.Typing.Bound
import Diagram.Proofs.Typing.Grows

/-!
# Simulation of derivations

One resolution simulates another if it answers every name that is asked for in the same way, up to
the spelling of names, from states that are related.  Inference does the same with alike
expressions then, whichever of the two answers.

Main statement: `Derives.alike`.
-/

namespace Diagram

open Option Signature

/-- Whether two signatures are the same but for new names and for their types. -/
structure Signature.Respelled (r : Renaming) (sig sig' : Signature) : Prop where
  declares : sig'.declares = sig.declares
  name : sig'.name = r.name sig.name
  params : sig'.params = sig.params.map (List.map (Param.rename r))
  variants : sig'.variants = sig.variants

namespace Signature.Respelled

variable {c : Respelling} {sig sig' : Signature}

theorem fixedTy? (h : sig.Respelled c sig') {n : String}
    (hn : sig.declares = .enum → c.type n = c.name n) :
    sig'.fixedTy? (c.name n) = (sig.fixedTy? n).map (Ty.rename c) := by
  have hparams : sig'.hasParams = sig.hasParams := by simp [hasParams, h.params]
  unfold Signature.fixedTy?
  rw [hparams, h.declares]
  cases hdeclares : sig.declares with
  | enum => exact congrArg (fun m => some (Ty.user m)) (hn hdeclares).symm
  | action => rfl
  | _ =>
    dsimp only
    split <;> rfl

theorem variant? (h : sig.Respelled c sig')
    (hn : c.type sig.name = c.name sig.name) (m : String) :
    Typing.variant? sig' m = (Typing.variant? sig m).map (Value.rename c) := by
  unfold Typing.variant?
  rw [map_map, h.variants]
  refine congrArg (Option.map · _) (funext fun i => ?_)
  exact congrArg (Value.enum · m (Int64.ofNat i)) (h.name.trans hn.symm)

end Signature.Respelled

namespace Typing

/-- Whether the definition of a name may be asked for. -/
def State.Wants (s : State) (n : String) : Prop :=
  ∃ sig, s.signatures.get? n = some sig ∧ sig.isWanted = true

/-- A simulation of the resolution `R` by `R'`, where only names that satisfy `D` are looked up and
only names that satisfy `W` are asked for.  A name need not be asked for if its type is known, and
it is asked for by `R'` alone only if it satisfies `U`. -/
structure Simulation (c : Respelling) (D W U : String → Prop) (Sim : State → State → Prop)
    (R R' : Resolution) : Prop where
  static : ∀ {s s'}, Sim s s' → ∀ n, Option.Rel (Signature.Respelled c)
    (s.signatures.get? n) (s'.signatures.get? (c.name n))
  enums : ∀ {s s'}, Sim s s' → ∀ n, c.enum n = true ↔
    ∃ sig, s.signatures.get? n = some sig ∧ sig.declares = .enum
  types : ∀ {s s'}, Sim s s' → ∀ n sig, s.signatures.get? n = some sig → sig.declares = .enum →
    c.type n = c.name n ∧ c.type sig.name = c.name sig.name
  noted : ∀ {s s'}, Sim s s' → ∀ b v, Sim (s.noted b v) (s'.noted b (v.rename c))
  wanted : ∀ {s s'}, Sim s s' → ∀ n, s.Wants n ∨ s'.Wants (c.name n) → W n
  inferred : ∀ {s s'}, Sim s s' → ∀ n sig', s'.signatures.get? (c.name n) = some sig' →
    sig'.ty.isUnknown = true → U n
  within : ∀ {s s'}, Sim s s' → ∀ n, D n → (s.tyOf n).Within D
  keeps : Carries R Keeps
  keeps' : Carries R' Keeps
  asked : ∀ {s s' s₁ n b d}, Sim s s' → D n → (b = true ∨ d = true → W n) →
    (b = false → d = true → U n) → (b = false → (s.tyOf n).isUnknown = false) →
    (d = false → (s'.tyOf (c.name n)).isUnknown = false) → Asked R b n s s₁ →
    ∃ s₁', Asked R' d (c.name n) s' s₁' ∧ Sim s₁ s₁' ∧
      s₁'.tyOf (c.name n) = (s₁.tyOf n).rename c ∧
      (b = true → d = true →
        s₁'.valueOf? (c.name n) = (s₁.valueOf? n).map (Value.rename c) ∧
          ∀ v, s₁.valueOf? n = some v → v.ty.Within D)

section Signatures

variable {c : Respelling} {sig : Signature} {s : State} {n : String}

/-- The arguments of a call are admitted under new names. -/
theorem Admits.alike {D : String → Prop} {sig' : Signature} {es es' : List Expr}
    (h : Admits sig.paramList es) (hsig : sig.Respelled c sig')
    (hes : List.Forall₂ (Matches c D) es es') : Admits sig'.paramList es' := by
  have hparams : sig'.paramList = sig.paramList.map (Param.rename c) := by
    cases hsome : sig.params <;> simp [paramList, hsig.params, hsome]
  rw [hparams]
  exact admits_respelled c.injective (forall₂_respelled hes) h

theorem tyOf_of_get? (h : s.signatures.get? n = some sig) : s.tyOf n = sig.ty := by
  simp [State.tyOf, h]

/-- A name that is not asked for has a known type. -/
theorem isUnknown_of_asks (hsig : s.signatures.get? n = some sig) (hasks : sig.asks = false) :
    (s.tyOf n).isUnknown = false := by
  rw [tyOf_of_get? hsig]
  exact (Bool.or_eq_false_iff.1 hasks).1

theorem isWanted_of_asks (hfixed : sig.fixedTy? n = none) (hasks : sig.asks) : sig.isWanted := by
  unfold isWanted
  rcases Bool.or_eq_true_iff.1 hasks with hunknown | hconst
  · simp [hunknown]
  · -- A constant without a fixed type has no parameters.
    have hconst' := of_decide_eq_true hconst
    have hparams : sig.hasParams = false := by
      cases hparams : sig.hasParams with
      | false => rfl
      | true => simp [fixedTy?, hconst', hparams] at hfixed
    simp [hconst', hparams]

theorem Keeps.isUnknown_tyOf {s' : State} (h : Keeps s s') (hn : (s.tyOf n).isUnknown = false) :
    (s'.tyOf n).isUnknown = false := by
  cases hsig : s.signatures.get? n with
  | none => simp [State.tyOf, hsig, Ty.isUnknown] at hn
  | some sig =>
    rw [tyOf_of_get? hsig] at hn
    rw [tyOf_of_get? (h n sig hsig hn)]
    exact hn

end Signatures

section Simulations

variable {c : Respelling} {D W U : String → Prop} {Sim : State → State → Prop} {R R' : Resolution}
  (hsim : Simulation c D W U Sim R R') {time : Bool} {bound : List String} {scope scope' : Scope}
  {s s' s₁ : State}

include hsim

variable {α β : Type} {P : α → β → Prop} {b? : Option β} {n : String} {sig : Signature} {i : Info}

omit hsim in
theorem exists_of_optionRel_some {a : α} (h : Option.Rel P (some a) b?) :
    ∃ b, b? = some b ∧ P a b := by
  cases h with
  | some hab => exact ⟨_, rfl, hab⟩

omit hsim in
theorem eq_none_of_optionRel_none (h : Option.Rel P none b?) : b? = none := by
  cases h
  rfl

theorem Simulation.get?_of_some (hs : Sim s s') (hsig : s.signatures.get? n = some sig) :
    ∃ sig', s'.signatures.get? (c.name n) = some sig' ∧ sig.Respelled c sig' := by
  have hstatic := hsim.static hs n
  rw [hsig] at hstatic
  exact exists_of_optionRel_some hstatic

theorem Simulation.reference {n : String} (hn : D n) {s₁' : State} (hs₁ : Sim s₁ s₁')
    (hty : s₁'.tyOf (c.name n) = (s₁.tyOf n).rename c) {isConst : Bool}
    (hvalue : isConst →
      s₁'.valueOf? (c.name n) = (s₁.valueOf? n).map (Value.rename c) ∧
        ∀ v, s₁.valueOf? n = some v → v.ty.Within D) (area area' : Area) :
    Matches c D (s₁.reference isConst area n) (s₁'.reference isConst area' (c.name n)) := by
  have hsame : (if isConst then s₁'.valueOf? (c.name n) else none) =
      (if isConst then s₁.valueOf? n else none).map (Value.rename c) := by
    cases isConst with
    | true => exact (hvalue rfl).1
    | false => rfl
  unfold State.reference
  rw [hsame, hty]
  cases hv : (if isConst then s₁.valueOf? n else none) with
  | some v =>
    have hwithin : v.ty.Within D := by
      cases isConst with
      | true => exact (hvalue rfl).2 v hv
      | false => cases hv
    exact matches_constant hwithin area area'
  | none => exact matches_name (hsim.within hs₁ n hn) n _ area area'

/-- A name becomes the same under its new name. -/
theorem Finds.alike (hscope : Paired c D time bound scope scope') {area area' : Area}
    {n n' : String} {e₁ : Expr} (h : Finds R scope area n s e₁ s₁) (hn : c.Sees time bound n n')
    (hD : n ∉ bound → D n) (hs : Sim s s') :
    ∃ e₁' s₁', Finds R' scope' area' n' s' e₁' s₁' ∧ Matches c D e₁ e₁' ∧ Sim s₁ s₁' := by
  cases h with
  | @bound t hbound =>
    have hmem : n ∈ bound := (hscope.binds n).2 (by simp [hbound])
    obtain rfl : n' = n := by
      rcases hn with ⟨h, -⟩ | ⟨-, h⟩
      · exact h
      · exact absurd hmem (h n (by simp)).1
    have hbound' : scope'.get? n' = some (t.rename c) := by
      rw [hscope.alike.locals, hbound]
      rfl
    exact ⟨_, s', .bound hbound',
      matches_name (hscope.alike.within n' t hbound) n' n' area area', hs⟩
  | time hfree htime hname =>
    have htimely : time = true ∧ n = Expr.timeStepName := ⟨hscope.time ▸ htime, hname⟩
    obtain rfl : n' = n := by
      rcases hn with ⟨h, -⟩ | ⟨-, h⟩
      · exact h
      · exact absurd htimely (h n (by simp)).2
    have htime' : scope'.allowTime = true := by
      rw [hscope.alike.time]
      exact htime
    exact ⟨_, s', .time (hscope.get?_eq_none (hscope.not_mem hfree)).2 htime' hname,
      matches_timeStep area area', hs⟩
  | @fixed sig t hfree hsig hfixed =>
    obtain ⟨rfl, hfree'⟩ := hscope.free hfree hn
    obtain ⟨sig', hsig', hrespelled⟩ := hsim.get?_of_some hs hsig
    have hfixed' := hrespelled.fixedTy? fun henum => (hsim.types hs n sig hsig henum).1
    rw [hfixed] at hfixed'
    have ht : t.Within D := by
      unfold fixedTy? at hfixed
      split at hfixed
      · cases hfixed
        exact Ty.within_action D n
      · cases hfixed
        exact Ty.within_user D n
      · obtain ⟨-, ht⟩ := ite_none_right_eq_some.1 hfixed
        cases ht
        exact Ty.within_function_iff.2 (hD (hscope.not_mem hfree.1))
    exact ⟨_, s', .fixed hfree' hsig' hfixed', matches_name ht n _ area area', hs⟩
  | @value sig _ hfree hsig hfixed hasked =>
    obtain ⟨rfl, hfree'⟩ := hscope.free hfree hn
    obtain ⟨sig', hsig', hrespelled⟩ := hsim.get?_of_some hs hsig
    have hfixed' := hrespelled.fixedTy? fun henum => (hsim.types hs n sig hsig henum).1
    rw [hfixed] at hfixed'
    have hdeclares := hrespelled.declares
    have hn := hD (hscope.not_mem hfree.1)
    have hwanted : sig.asks = true ∨ sig'.asks = true → W n := fun h => hsim.wanted hs n
      (h.imp (fun h => ⟨sig, hsig, isWanted_of_asks hfixed h⟩)
        fun h => ⟨sig', hsig', isWanted_of_asks hfixed' h⟩)
    have hinferred : sig.asks = false → sig'.asks = true → U n := by
      intro h h'
      simp only [asks, hdeclares] at h h'
      rw [(Bool.or_eq_false_iff.1 h).2, Bool.or_false] at h'
      exact hsim.inferred hs n sig' hsig' h'
    obtain ⟨s₁', hasked', hs₁, hty, hvalue⟩ := hsim.asked hs hn hwanted hinferred
      (isUnknown_of_asks hsig) (isUnknown_of_asks hsig') hasked
    refine ⟨_, s₁', .value hfree' hsig' hfixed' hasked', ?_, hs₁⟩
    rw [hdeclares]
    -- A constant is asked for in both states, so its values correspond.
    refine hsim.reference hn hs₁ hty (fun hconst => ?_) area area'
    have hconst' := of_decide_eq_true hconst
    exact hvalue (by simp [asks, hconst']) (by simp [asks, hdeclares, hconst'])

omit hsim in
theorem enum?_of_bound (h : (scope.get? n).isSome) : s.enum? scope (.name i n) = none := by
  simp [State.enum?, Expr.name?, h]

omit hsim in
theorem enum?_of_free (h : scope.get? n = none) :
    s.enum? scope (.name i n) = (s.signatures.get? n).filter (·.declares = .enum) := by
  simp [State.enum?, Expr.name?, h]

omit hsim in
theorem enum?_eq_some {subject : Expr} (h : s.enum? scope subject = some sig) :
    ∃ n, s.signatures.get? n = some sig ∧ sig.declares = .enum := by
  unfold State.enum? at h
  split at h
  · cases h
  · rename_i n _
    split at h
    · cases h
    · obtain ⟨hget, hdeclares⟩ := filter_eq_some_iff.1 h
      exact ⟨n, hget, by simpa using hdeclares⟩

theorem Simulation.filter_enum (hs : Sim s s') (n : String) :
    Option.Rel (Signature.Respelled c)
      ((s.signatures.get? n).filter (·.declares = .enum))
      ((s'.signatures.get? (c.name n)).filter (·.declares = .enum)) := by
  have hstatic := hsim.static hs n
  generalize s.signatures.get? n = sig? at hstatic
  generalize s'.signatures.get? (c.name n) = sig?' at hstatic
  cases hstatic with
  | none => exact .none
  | @some sig sig' hrespelled =>
    rw [filter_some, filter_some, hrespelled.declares]
    split
    · exact .some hrespelled
    · exact .none

theorem Simulation.filter_enum_eq_none (hs : Sim s s') (hn : c.enum n = false) :
    (s.signatures.get? n).filter (·.declares = .enum) = none := by
  rw [filter_eq_none_iff]
  intro sig hsig henum
  have htrue := (hsim.enums hs n).2 ⟨sig, hsig, by simpa using henum⟩
  simp [hn] at htrue

/-- A subject that stands for an enumeration does so under its new name. -/
theorem Simulation.enum? (hs : Sim s s') (hscope : Paired c D time bound scope scope')
    {subject subject' : Expr} (h : Alike c D time bound bound subject subject')
    (htime : c.Timely time bound subject) (htime' : c.symm.Timely time bound subject') :
    Option.Rel (Signature.Respelled c) (s.enum? scope subject) (s'.enum? scope' subject') := by
  cases h with
  | @name _ _ i i' n n' hn =>
    rcases hn with ⟨rfl, hsees⟩ | ⟨rfl, hfree⟩
    · by_cases hmem : n' ∈ bound
      · have hbound := (hscope.binds n').1 hmem
        have hbound' : (scope'.get? n').isSome = true := by
          rw [hscope.alike.locals, isSome_map]
          exact hbound
        rw [enum?_of_bound hbound, enum?_of_bound hbound']
        exact .none
      · -- The time step hides every top-level name but that of an enumeration.
        obtain ⟨htimely, rfl⟩ := hsees.resolve_left hmem
        obtain ⟨hget, hget'⟩ := hscope.get?_eq_none hmem
        have hold := hsim.filter_enum_eq_none hs (htime htimely hmem rfl)
        have hnew : ((s.signatures.get? (c.name.symm Expr.timeStepName)).filter
            (·.declares = .enum)) = none :=
          hsim.filter_enum_eq_none hs (htime' htimely hmem rfl)
        have hfilter := hsim.filter_enum hs (c.name.symm Expr.timeStepName)
        rw [c.name.apply_symm_apply, hnew] at hfilter
        rw [enum?_of_free hget, enum?_of_free hget', hold]
        exact hfilter
    · obtain ⟨hget, -⟩ := hscope.get?_eq_none (hfree n (by simp)).1
      obtain ⟨-, hget'⟩ := hscope.get?_eq_none (hfree (c.name n) (by simp)).1
      rw [enum?_of_free hget, enum?_of_free hget']
      exact hsim.filter_enum hs n
  | stuck hstuck hstuck' =>
    have hname : ∀ e : Expr, Stuck e → e.name? = none := by
      intro e he
      cases e with
      | name i n => exact absurd he (not_stuck_name i n)
      | _ => rfl
    simp only [State.enum?, hname _ hstuck, hname _ hstuck']
    exact .none
  | _ => exact .none

theorem Simulation.subject (hs : Sim s s') (hscope : Paired c D time bound scope scope')
    {ob : List String} {info k : Info} {subject e' : Expr} {m : String}
    (h : Alike c D time ob bound (.operator info .memberAccess [subject, .name k m]) e')
    (hstuck : ¬Stuck (.operator info .memberAccess [subject, .name k m])) :
    ∃ info' subject' k', e' = .operator info' .memberAccess [subject', .name k' m] ∧
      Option.Rel (Signature.Respelled c) (s.enum? scope subject)
        (s'.enum? scope' subject') ∧
      (s.enum? scope subject = none → Alike c D time bound bound subject subject') := by
  cases h with
  | @variant _ _ _ _ _ _ n n' _ _ _ hn hfree henum =>
    subst hn
    obtain ⟨hget, -⟩ := hscope.get?_eq_none hfree.1
    obtain ⟨-, hget'⟩ := hscope.get?_eq_none hfree.2
    refine ⟨_, _, _, rfl, ?_, fun hnone => ?_⟩
    · rw [enum?_of_free hget, enum?_of_free hget']
      exact hsim.filter_enum hs n
    · obtain ⟨sig, hsig, hdeclares⟩ := (hsim.enums hs n).1 henum
      simp [enum?_of_free hget, hsig, hdeclares] at hnone
  | member hsubject htime htime' =>
    exact ⟨_, _, _, rfl, hsim.enum? hs hscope hsubject htime htime', fun _ => hsubject⟩
  | operator hop => cases hop
  | stuck h => exact absurd h hstuck

end Simulations

section Scopes

variable {c : Respelling} {D : String → Prop} {R : Resolution} {time : Bool}
  {bound : List String} {scope scope' : Scope} {e e₁ e₁' : Expr} {s s₁ : State}

theorem Matches.paired (h : Matches c D e₁ e₁') (hscope : Paired c D time bound scope scope')
    {outer : Scope} (hderives : Derives R outer scope e s e₁ s₁) :
    Paired c D time (e.namesInside bound) (scopeInside scope e₁) (scopeInside scope' e₁') :=
  ⟨hderives.binds_inside hscope.binds, (allowTime_scopeInside scope e₁).trans hscope.time,
    h.inside hscope.alike⟩

theorem Paired.withBindings (h : Paired c D time bound scope scope') {chain : Bool}
    (hderives : DerivesBindings R scope chain e s e₁ s₁)
    (halike : ScopeAlike c D (scopeWithBindings scope e₁) (scopeWithBindings scope' e₁')) :
    Paired c D time (e.namesWithBindings bound) (scopeWithBindings scope e₁)
      (scopeWithBindings scope' e₁') :=
  ⟨hderives.binds_withBindings h.binds, (allowTime_scopeWithBindings scope e₁).trans h.time, halike⟩

end Scopes

section Derivations

variable {c : Respelling} {D W U : String → Prop} {Sim : State → State → Prop} {R R' : Resolution}
  {time : Bool}

mutual

theorem Derives.alike (hsim : Simulation c D W U Sim R R') {outer scope outer' scope' ob b}
    (houter : Paired c D time ob outer outer') (hscope : Paired c D time b scope scope')
    {e e' e₁ s s' s₁} :
    Derives R outer scope e s e₁ s₁ → Alike c D time ob b e e' → Sim s s' →
      ∃ e₁' s₁', Derives R' outer' scope' e' s' e₁' s₁' ∧ Matches c D e₁ e₁' ∧ Sim s₁ s₁'
  | .literal, halike, hs => by
    cases halike with
    | literal hv hwithin =>
      subst hv
      exact ⟨_, s', .literal, matches_constant hwithin _ _, hs⟩
    | stuck h => exact absurd .literal (h R outer scope s _ s)
  | .name hfinds, halike, hs => by
    cases halike with
    | name hn hfree =>
      obtain ⟨e₁', s₁', hfinds', he, hs₁⟩ := hfinds.alike hsim hscope hn hfree hs
      exact ⟨e₁', s₁', .name hfinds', he, hs₁⟩
    | stuck h => exact absurd h (not_stuck_name _ _)
  | .timeStep, halike, hs => by
    cases halike with
    | timeStep => exact ⟨_, s', .timeStep, matches_timeStep _ _, hs⟩
    | stuck h => exact absurd .timeStep (h R outer scope s _ s)
  | .listMap (n := n) hsource hlist hbody hty, halike, hs => by
    cases halike with
    | listMap hsource' hbody' =>
      obtain ⟨source₁, s₁', hd₁, hm₁, hs₁⟩ := hsource.alike hsim houter houter hsource' hs
      have hitem := (congrArg itemTy hm₁.respelled.ty).trans (itemTy_rename _)
      have hwithin := over_itemTy hm₁.within.ty
      obtain ⟨body₁, s₂', hd₂, hm₂, hs₂⟩ :=
        hbody.alike hsim houter (hscope.bind _ hwithin) hbody' hs₁
      rw [← hitem] at hd₂
      have hlist₁ : (isList source₁.ty || source₁.ty.isUnknown) = true := by
        rw [hm₁.respelled.ty, isList_rename, Ty.isUnknown_rename]
        exact hlist
      have hty₁ := comprehensionTy_respelled hm₂.respelled hm₂.isMap hty
      refine ⟨_, s₂', .listMap hd₁ hlist₁ hd₂ hty₁, ⟨⟨rfl, rfl⟩,
        Expr.over_operator (over_comprehensionTy hm₂.within hty) _ _ _, rfl,
        fun {inner inner'} hinner => ?_⟩, hs₂⟩
      have hbind := hinner.bind n hwithin
      rw [← hitem] at hbind
      exact hm₂.inside hbind
    | operator hop => cases hop
    | stuck h => exact absurd (.listMap hsource hlist hbody hty) (h R outer scope s _ _)
  | .listFilter hlist hfilter hcondition hbool, halike, hs => by
    cases halike with
    | listFilter hlist' hnames hcondition' =>
      obtain ⟨list₁, s₁', hd₁, hm₁, hs₁⟩ := hlist.alike hsim hscope hscope hlist' hs
      have hinside := hm₁.paired hscope hlist
      obtain ⟨condition₁, s₂', hd₂, hm₂, hs₂⟩ :=
        hcondition.alike hsim hinside hinside hcondition' hs₁
      have hfilter₁ : (list₁.isOp .listMap || (isList list₁.ty || list₁.ty.isUnknown)) = true := by
        rw [hm₁.isMap, hm₁.respelled.ty, isList_rename, Ty.isUnknown_rename]
        exact hfilter
      have hbool₁ : (itemTy condition₁.ty).coercesTo .bool = true := by
        rw [hm₂.respelled.ty, itemTy_rename, Ty.coercesTo_rename_left c.injective _ rfl]
        exact hbool
      refine ⟨_, s₂', .listFilter hd₁ hfilter₁ hd₂ hbool₁, ?_, hs₂⟩
      rw [hm₁.respelled.ty]
      exact matches_operator (by simp) hm₁.within.ty _ _ _ _
    | operator hop => cases hop
    | stuck h =>
      exact absurd (.listFilter hlist hfilter hcondition hbool) (h R outer scope s _ _)
  | .variant (m := m) henum hvariant, halike, hs => by
    obtain ⟨i, subject', k, rfl, henum', -⟩ := hsim.subject hs hscope halike
      (fun h => h R outer scope s _ _ (.variant henum hvariant))
    rw [henum] at henum'
    obtain ⟨sig', hsome, hrespelled⟩ := exists_of_optionRel_some henum'
    obtain ⟨n, hsig, hdeclares⟩ := enum?_eq_some henum
    have hvariant' := hrespelled.variant? (hsim.types hs n _ hsig hdeclares).2 m
    rw [hvariant] at hvariant'
    exact ⟨_, s', .variant hsome hvariant', matches_constant (over_variant? nofun hvariant) _ _, hs⟩
  | .member henum hsubject hty, halike, hs => by
    obtain ⟨i, subject', k, rfl, henum', hsubject'⟩ := hsim.subject hs hscope halike
      (fun h => h R outer scope s _ _ (.member henum hsubject hty))
    rw [henum] at henum'
    have hnone := eq_none_of_optionRel_none henum'
    obtain ⟨subject₁, s₁', hd₁, hm₁, hs₁⟩ := hsubject.alike hsim hscope hscope (hsubject' henum) hs
    have hty' := (memberTy_respelled hm₁.respelled hty).1
    exact ⟨_, s₁', .member hnone hd₁ hty', matches_member hm₁.respelled hty _ _ _ _, hs₁⟩
  | .builtIn hfind, halike, hs => by
    obtain ⟨i, j, rfl⟩ := halike.builtIn_eq hfind
    exact ⟨_, s', .builtIn hfind, matches_builtinExpr hfind _ _ _ _, hs⟩
  | .builtinCall hfind harity hargs hverdict, halike, hs => by
    obtain ⟨i, es', rfl, hall⟩ := halike.operands rfl
      (fun h => h R outer scope s _ _ (.builtinCall hfind harity hargs hverdict))
    cases hall with
    | cons hcallee hargs' =>
      obtain ⟨j, k, rfl⟩ := hcallee.builtIn_eq hfind
      obtain ⟨args₁, s₁', hd₁, hm₁, hs₁⟩ := hargs.alike hsim hscope hargs' hs
      rw [← hargs'.length_eq] at harity
      have hverdict' := callVerdict?_respelled hfind (forall₂_respelled hm₁) hverdict
      exact ⟨_, _, .builtinCall hfind harity hd₁ hverdict',
        matches_expr (over_callVerdict? hfind hverdict) (by simp) _ _ _ _,
        hsim.noted hs₁ _ _⟩
  | .call (n := n) hbuiltIn hcallee hty hsig hargs hadmits hasked, halike, hs => by
    obtain ⟨i, es', rfl, hall⟩ := halike.operands rfl
      (fun h => h R outer scope s _ _ (.call hbuiltIn hcallee hty hsig hargs hadmits hasked))
    cases hall with
    | cons hcallee' hargs' =>
      have hbuiltIn' := (hcallee'.isOp_eq (fun h => h _ _ _ _ _ _ hcallee) .builtIn).trans hbuiltIn
      obtain ⟨callee₁, s₁', hd₁, hm₁, hs₁⟩ := hcallee.alike hsim hscope hscope hcallee' hs
      obtain ⟨args₁, s₂', hd₂, hm₂, hs₂⟩ := hargs.alike hsim hscope hargs' hs₁
      obtain ⟨sig', hsig', hrespelled⟩ := hsim.get?_of_some hs₁ hsig
      have hwithin := hm₁.within.ty
      have hty' := hm₁.respelled.ty
      rw [hty] at hwithin hty'
      have hn := Ty.within_function_iff.1 hwithin
      -- Whether the function is asked for was decided before its arguments were analyzed.
      have hwanted := hsim.wanted hs₁ n
      obtain ⟨s₃', hasked', hs₃, htyOf, -⟩ := hsim.asked (d := sig'.ty.isUnknown) hs₂ hn
        (fun h => hwanted (h.imp (fun h => ⟨_, hsig, by simp [isWanted, h]⟩)
          fun h => ⟨sig', hsig', by simp [isWanted, h]⟩))
        (fun _ => hsim.inferred hs₁ n sig' hsig')
        (fun h => (hargs.relates hsim.keeps).isUnknown_tyOf (by rw [tyOf_of_get? hsig, h]))
        (fun h => (hd₂.relates hsim.keeps').isUnknown_tyOf (by rw [tyOf_of_get? hsig', h]))
        hasked
      refine ⟨_, s₃', .call hbuiltIn' hd₁ hty' hsig' hd₂ (hadmits.alike hrespelled hm₂) hasked', ?_,
        hs₃⟩
      change Matches c D _ (.operator ⟨s₃'.tyOf (c.name _), _⟩ _ _)
      rw [htyOf]
      exact matches_operator (by simp) (hsim.within hs₃ _ hn) _ _ _ _
  | .actionCall hfree hsig haction hargs hadmits, halike, hs => by
    cases halike with
    | actionCall hn hargs' =>
      obtain ⟨rfl, hfree'⟩ := hscope.unbound hfree hn
      obtain ⟨args₁, s₁', hd₁, hm₁, hs₁⟩ := hargs.alike hsim hscope hargs' hs
      obtain ⟨sig', hsig', hrespelled⟩ := hsim.get?_of_some hs hsig
      have haction' := hrespelled.declares.trans haction
      refine ⟨_, s₁', .actionCall hfree' hsig' haction' hd₁ (hadmits.alike hrespelled hm₁), ?_, hs₁⟩
      rw [hrespelled.name]
      exact matches_operator (by simp) (Ty.within_action D _) _ _ _ _
    | operator hop => cases hop
    | stuck h =>
      exact absurd (.actionCall hfree hsig haction hargs hadmits) (h R outer scope s _ _)
  | .operands hpermits hoperands hverdict, halike, hs => by
    have hsettles := settle?_eq_some_iff.1 hverdict
    obtain ⟨i, es', rfl, hall⟩ := halike.operands hsettles.isUniform
      (fun h => h R outer scope s _ _ (.operands hpermits hoperands hverdict))
    obtain ⟨es₁, s₁', hd₁, hm₁, hs₁⟩ := hoperands.alike hsim hscope hall hs
    have hpermits' := hscope.permits hpermits
    rw [← hall.length_eq] at hpermits'
    have hsettles' := hsettles.respelled c.injective (forall₂_respelled hm₁)
    exact ⟨_, s₁', .operands hpermits' hd₁ (settle?_eq_some_iff.2 hsettles'),
      matches_expr (hsettles.over (forall₂_within hm₁)) hsettles.ne_listMap _ _ _ _, hs₁⟩
  | .update hfree hsig hvar hasked hvalue hcoerces, halike, hs => by
    cases halike with
    | update hn hmem hvalue' =>
      obtain ⟨rfl, hfree'⟩ := hscope.unbound hfree hn
      obtain ⟨sig', hsig', hrespelled⟩ := hsim.get?_of_some hs hsig
      have hvar' := hrespelled.declares.trans hvar
      have hwanted := hsim.wanted hs _ (.inl ⟨_, hsig, by simp [isWanted, hvar]⟩)
      obtain ⟨s₁', hasked', hs₁, htyOf, -⟩ := hsim.asked (b := true) (d := true) hs
        (hmem (hscope.not_mem hfree)) (fun _ => hwanted) nofun nofun nofun hasked
      obtain ⟨value₁, s₂', hd₂, hm₂, hs₂⟩ := hvalue.alike hsim hscope hscope hvalue' hs₁
      refine ⟨_, s₂', .update hfree' hsig' hvar' hasked' hd₂ ?_,
        matches_operator (t := .void) (by simp) trivial _ _ _ _, hs₂⟩
      rw [hm₂.respelled.ty, htyOf, Ty.coercesTo_rename c.injective]
      exact hcoerces
    | operator hop => cases hop
    | stuck h =>
      exact absurd (.update hfree hsig hvar hasked hvalue hcoerces) (h R outer scope s _ _)
  | .withBinding hbindings hbody, halike, hs => by
    cases halike with
    | withBinding hbindings' hnames hbody' =>
      obtain ⟨bindings₁, s₁', hd₁, hm₁, hs₁⟩ := hbindings.alike hsim hscope hbindings' hs
      have hinner := hscope.withBindings hbindings (hm₁ hscope.alike)
      obtain ⟨body₁, s₂', hd₂, hm₂, hs₂⟩ := hbody.alike hsim hinner hinner hbody' hs₁
      refine ⟨_, s₂', .withBinding hd₁ hd₂, ?_, hs₂⟩
      rw [hm₂.respelled.ty]
      exact matches_operator (by simp) hm₂.within.ty _ _ _ _
    | operator hop => cases hop
    | stuck h => exact absurd (.withBinding hbindings hbody) (h R outer scope s _ _)

theorem DerivesAll.alike (hsim : Simulation c D W U Sim R R') {scope scope' b}
    (hscope : Paired c D time b scope scope') {es es' es₁ s s' s₁} :
    DerivesAll R scope es s es₁ s₁ → AlikeAll c D time b es es' → Sim s s' →
      ∃ es₁' s₁', DerivesAll R' scope' es' s' es₁' s₁' ∧ List.Forall₂ (Matches c D) es₁ es₁' ∧
        Sim s₁ s₁'
  | .nil, .nil, hs => ⟨[], s', .nil, .nil, hs⟩
  | .cons hhead htail, .cons hhead' htail', hs => by
    obtain ⟨e₁', s₁', hd₁, hm₁, hs₁⟩ := hhead.alike hsim hscope hscope hhead' hs
    obtain ⟨es₁', s₂', hd₂, hm₂, hs₂⟩ := htail.alike hsim hscope htail' hs₁
    exact ⟨_, s₂', .cons hd₁ hd₂, .cons hm₁ hm₂, hs₂⟩

theorem DerivesBindings.alike (hsim : Simulation c D W U Sim R R') {scope scope' b}
    (hscope : Paired c D time b scope scope') {chain e e' e₁ s s' s₁} :
    DerivesBindings R scope chain e s e₁ s₁ → AlikeBindings c D time b e e' → Sim s s' →
      ∃ e₁' s₁', DerivesBindings R' scope' chain e' s' e₁' s₁' ∧
        (∀ {inner inner'}, ScopeAlike c D inner inner' →
          ScopeAlike c D (scopeWithBindings inner e₁) (scopeWithBindings inner' e₁')) ∧
        Sim s₁ s₁'
  | .both hleft hright, halike, hs => by
    cases halike with
    | both hleft' hright' =>
      obtain ⟨left₁, s₁', hd₁, hm₁, hs₁⟩ := hleft.alike hsim hscope hleft' hs
      obtain ⟨right₁, s₂', hd₂, hm₂, hs₂⟩ := hright.alike hsim hscope hright' hs₁
      exact ⟨_, s₂', .both hd₁ hd₂, fun hinner => hm₂ (hm₁ hinner), hs₂⟩
    | stuck h => exact absurd (.both hleft hright) (h R scope chain s _ _)
  | .assignment (n := n) hvalue, halike, hs => by
    cases halike with
    | assignment hvalue' =>
      obtain ⟨value₁, s₁', hd₁, hm₁, hs₁⟩ := hvalue.alike hsim hscope hscope hvalue' hs
      refine ⟨_, s₁', .assignment hd₁, fun {inner inner'} hinner => ?_, hs₁⟩
      have hbind := hinner.bind n hm₁.within.ty
      rw [← hm₁.respelled.ty] at hbind
      exact hbind
    | stuck h => exact absurd (.assignment hvalue) (h R scope chain s _ _)

end

end Derivations

end Typing

end Diagram
