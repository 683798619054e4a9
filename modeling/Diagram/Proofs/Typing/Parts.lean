import Diagram.Proofs.Typing.Resolution

/-!
# Analysis of the parts of a program

What the analysis makes of the actions and elements of a program, given what it makes of their
expressions.  A relation between expressions before and after the analysis is lifted to the parts
that are made of them.

Main statements: `ensures_inferAction`, `runs_inferAction`, `ensures_inferElement`,
`runs_inferElement`.
-/

namespace Diagram

open List

def Expr.updating (target value : Expr) : Expr :=
  .operator ⟨.void, .nowhere⟩ .update [target, value]

def Expr.acting (callee : Expr) (args : List Expr) : Expr :=
  .operator ⟨callee.ty, .nowhere⟩ .actionCall (callee :: args)

mutual

/-- The relation of actions whose updates, calls and conditions are related, and whose second
conditions are truth values. -/
inductive Action.Lift (D : Expr → Expr → Prop) : Action → Action → Prop
  | block {as as'} (has : Action.LiftAll D as as') : Action.Lift D (.block as) (.block as')
  | update {t v t' v'} (h : D (.updating t v) (.updating t' v')) :
      Action.Lift D (.update t v) (.update t' v')
  | call {c args c' args'} (h : D (.acting c args) (.acting c' args')) :
      Action.Lift D (.call c args) (.call c' args')
  | conditional {arms arms'} (harms : Action.LiftArms D arms arms') :
      Action.Lift D (.conditional arms .hole) (.conditional arms' .hole)
  | conditionalElse {arms arms' d d'} (harms : Action.LiftArms D arms arms')
      (hd : Action.Lift D d d') : Action.Lift D (.conditional arms d) (.conditional arms' d')

/-- The relation of lists of actions. -/
inductive Action.LiftAll (D : Expr → Expr → Prop) : List Action → List Action → Prop
  | nil : Action.LiftAll D [] []
  | cons {a as a' as'} (ha : Action.Lift D a a') (has : Action.LiftAll D as as') :
      Action.LiftAll D (a :: as) (a' :: as')

/-- The relation of the branches of conditional actions. -/
inductive Action.LiftArms (D : Expr → Expr → Prop) :
    List (Expr × Action) → List (Expr × Action) → Prop
  | nil : Action.LiftArms D [] []
  | cons {c a rest c' a' rest'} (hc : D c c') (hbool : c'.ty.coercesTo .bool = true)
      (ha : Action.Lift D a a') (hrest : Action.LiftArms D rest rest') :
      Action.LiftArms D ((c, a) :: rest) ((c', a') :: rest')

end

/-- The relation of quantities that are both there and related. -/
def Both (D : Expr → Expr → Prop) (q q' : Option Expr) : Prop :=
  ∃ e e', q = some e ∧ q' = some e' ∧ D e e'

/-- The relation of elements whose quantities and click actions are related and whose attributes
are otherwise the same. -/
structure Element.Lift (Q : Option Expr → Option Expr → Prop) (A : Action → Action → Prop)
    (e e' : Element) : Prop where
  quantities : Forall₂ Q e.quantities e'.quantities
  click : Option.Rel A e.click e'.click
  refilled : e.refill e'.quantities e'.click = e'

/-- The scope of the action of a ticker, which sees the time step. -/
def Scope.ticking : Scope :=
  { Scope.top with allowTime := true }

/-- The relation of tickers whose intervals and actions are related. -/
def Ticker.Lift (D : Scope → Expr → Expr → Prop) (t t' : Ticker) : Prop :=
  Option.Rel (fun e e' => D .top e e' ∧ e'.ty.coercesTo .real = true) t.interval t'.interval ∧
    t.action.Lift (D .ticking) t'.action

/-- The relation of programs whose parts outside of the definitions are related, scope by scope. -/
structure Program.Lift (D : Scope → Expr → Expr → Prop) (p q : Program) : Prop where
  enums : q.enums = p.enums
  actions : p.actions.Rel (fun n a a' => ∃ sig, p.signatures.get? n = some sig ∧
    a.Lift (D (Typing.bodyScope sig)) a') q.actions
  entries : Option.Rel (Forall₂ (D .top)) p.entries q.entries
  ticker : Option.Rel (Ticker.Lift D) p.ticker q.ticker
  display : Option.Rel (Forall₂ (Element.Lift (Both (D .top)) (Action.Lift (D .top))))
    p.display q.display

variable {α β : Type} {P : α → β → Prop} {a? : Option α} {b? : Option β} {b : β}

theorem optionRel_mono {Q : α → β → Prop} (h : ∀ a b, P a b → Q a b) (hP : Option.Rel P a? b?) :
    Option.Rel Q a? b? := by
  cases hP with
  | none => exact .none
  | some hab => exact .some (h _ _ hab)

theorem exists_of_optionRel (h : Option.Rel P a? b?) (hb : b? = some b) :
    ∃ a, a? = some a ∧ P a b := by
  cases h with
  | none => cases hb
  | some hab =>
    cases hb
    exact ⟨_, rfl, hab⟩

theorem exists_of_forall₂ {as : List α} {bs : List β} (h : Forall₂ P as bs) (hb : b ∈ bs) :
    ∃ a ∈ as, P a b := by
  induction h with
  | nil => cases hb
  | cons hab _ ih =>
    rcases mem_cons.1 hb with rfl | hb
    · exact ⟨_, mem_cons_self, hab⟩
    · obtain ⟨a, ha, hab⟩ := ih hb
      exact ⟨a, mem_cons_of_mem _ ha, hab⟩

variable {Q : Option Expr → Option Expr → Prop} {A : Action → Action → Prop}

theorem Element.lift_refill {e : Element} {qs : List (Option Expr)} {click : Option Action}
    (hqs : Forall₂ Q e.quantities qs) (hclick : Option.Rel A e.click click) :
    e.Lift Q A (e.refill qs click) := by
  have h : (e.refill qs click).quantities = qs := quantities_refill hqs.length_eq.symm
  constructor
  · rw [h]
    exact hqs
  · exact hclick
  · rw [h]
    rfl

namespace Typing

section Triples

variable {α β : Type} {I : State → Prop}

/-- Whatever a step gives from a state that satisfies `I` satisfies `Q`, and `I` is kept. -/
def Ensures (I : State → Prop) (m : Check α) (Q : α → Prop) : Prop :=
  ∀ ⦃s a s'⦄, I s → m s = .ok a s' → I s' ∧ Q a

/-- A step gives a result from every state that satisfies `I`, which is kept. -/
def Runs (I : State → Prop) (m : Check α) (a : α) : Prop :=
  ∀ ⦃s⦄, I s → ∃ s', m s = .ok a s' ∧ I s'

variable {a : α} {Q : α → Prop} {m : Check α} {f : α → Check β} {r : Ruling α} {as : List α}
  {a? : Option α}

protected theorem Ensures.pure (h : Q a) : Ensures I (pure a) Q := by
  intro s b s' hs hrun
  obtain ⟨rfl, rfl⟩ := pure_eq_ok_iff.1 hrun
  exact ⟨hs, h⟩

protected theorem Ensures.bind {P : α → Prop} {Q : β → Prop} (hm : Ensures I m P)
    (hf : ∀ a, P a → Ensures I (f a) Q) : Ensures I (m >>= f) Q := by
  intro s b s' hs hrun
  obtain ⟨a, s₁, hfirst, hsecond⟩ := bind_eq_ok_iff.1 hrun
  obtain ⟨hs₁, ha⟩ := hm hs hfirst
  exact hf a ha hs₁ hsecond

protected theorem Ensures.follow (h : ∀ a, r = .ok a → Q a) : Ensures I (follow r) Q := by
  intro s a s' hs hrun
  cases r with
  | ok b =>
    obtain ⟨rfl, rfl⟩ := pure_eq_ok_iff.1 hrun
    exact ⟨hs, h a rfl⟩
  | error e => cases hrun

theorem ensures_defect {d : Defect} : Ensures I (defect d) Q :=
  fun _ _ _ _ hrun => absurd hrun defect_ne_ok

theorem ensures_mapM {Q : α → β → Prop} (h : ∀ a ∈ as, Ensures I (f a) (Q a)) :
    Ensures I (as.mapM f) (Forall₂ Q as) := by
  induction as with
  | nil => exact .pure .nil
  | cons a as ih =>
    obtain ⟨ha, has⟩ := forall_mem_cons.1 h
    rw [mapM_cons]
    refine .bind ha fun b hb => .bind (ih has) fun bs hbs => ?_
    exact .pure (.cons hb hbs)

theorem ensures_optionMapM {Q : α → β → Prop} (h : ∀ a, a? = some a → Ensures I (f a) (Q a)) :
    Ensures I (a?.mapM f) (Option.Rel Q a?) := by
  cases a? with
  | none => exact .pure .none
  | some a => exact .bind (h a rfl) fun b hb => .pure (.some hb)

protected theorem Runs.pure (a : α) : Runs I (pure a) a := fun s hs => ⟨s, rfl, hs⟩

protected theorem Runs.bind {b : β} (hm : Runs I m a) (hf : Runs I (f a) b) :
    Runs I (m >>= f) b := by
  intro s hs
  obtain ⟨s₁, hfirst, hs₁⟩ := hm hs
  obtain ⟨s₂, hsecond, hs₂⟩ := hf hs₁
  exact ⟨s₂, bind_eq_ok_iff.2 ⟨a, s₁, hfirst, hsecond⟩, hs₂⟩

protected theorem Runs.follow (h : r = .ok a) : Runs I (follow r) a := by
  rw [h]
  exact .pure a

theorem runs_forM {f : α → Check Unit} (h : ∀ a ∈ as, Runs I (f a) ()) : Runs I (as.forM f) () := by
  induction as with
  | nil => exact .pure ()
  | cons a as ih =>
    obtain ⟨ha, has⟩ := forall_mem_cons.1 h
    exact .bind ha (ih has)

theorem runs_mapM {bs : List β} (h : Forall₂ (fun a b => Runs I (f a) b) as bs) :
    Runs I (as.mapM f) bs := by
  induction h with
  | nil => exact .pure []
  | cons ha _ ih =>
    rw [mapM_cons]
    exact .bind ha (.bind ih (.pure _))

theorem runs_optionMapM {b? : Option β} (h : Option.Rel (fun a b => Runs I (f a) b) a? b?) :
    Runs I (a?.mapM f) b? := by
  cases h with
  | none => exact .pure none
  | some ha => exact .bind ha (.pure _)

theorem ensures_nameMapM {f : String → α → Check β} {m : NameMap α} {Q : String → α → β → Prop}
    (h : ∀ n a, m.get? n = some a → Ensures I (f n a) (Q n a)) :
    Ensures I (m.mapM f) (m.Rel Q) := by
  have hentry : ∀ e ∈ m.entries, Ensures I (do return (e.1, ← f e.1 e.2))
      fun e' : String × β => e'.1 = e.1 ∧ Q e.1 e.2 e'.2 := fun e he =>
    .bind (h e.1 e.2 (NameMap.get?_eq_some_iff.2 he)) fun b hb => .pure ⟨rfl, hb⟩
  refine .bind (ensures_mapM hentry) fun entries hentries => .pure ?_
  have hsorted := NameMap.sorted_of_forall₂ m.sorted (hentries.imp fun _ _ h => h.1)
  unfold NameMap.Rel
  rw [NameMap.entries_ofList hsorted]
  exact hentries

theorem runs_nameMapM {f : String → α → Check β} {m : NameMap α} {m' : NameMap β}
    (h : m.Rel (fun n a b => Runs I (f n a) b) m') : Runs I (m.mapM f) m' := by
  have hentries : Forall₂ (fun e e' => Runs I (do return (e.1, ← f e.1 e.2)) e')
      m.entries m'.entries := h.imp fun e e' he => by
    have hpair : e' = (e.1, e'.2) := Prod.ext he.1 rfl
    rw [hpair]
    exact .bind he.2 (.pure _)
  have hmap : m' = NameMap.ofList m'.entries :=
    NameMap.eq_of_entries_eq (NameMap.entries_ofList m'.sorted).symm
  have hpure : Runs I (pure (NameMap.ofList m'.entries)) m' := by
    rw [← hmap]
    exact .pure m'
  exact .bind (runs_mapM hentries) hpure

end Triples

def Derived (I : State → Prop) (R : Resolution) (scope : Scope) (e e' : Expr) : Prop :=
  ∃ s s', I s ∧ I s' ∧ Derives R scope scope e s e' s'

def Rederived (I : State → Prop) (R : Resolution) (scope : Scope) (e e' : Expr) : Prop :=
  ∀ ⦃s⦄, I s → ∃ s', Derives R scope scope e s e' s' ∧ I s'

section Expressions

variable {scope : Scope} {s s' : State}

theorem inferIn_eq_ok_iff {e e' : Expr} :
    inferIn scope e s = .ok e' s' ↔ Derives (.of resolveAny) scope scope e s e' s' :=
  infer_eq_ok_iff

variable {a' : Action}

theorem inferAction_update_eq_ok_iff {target value : Expr} :
    inferAction scope (.update target value) s = .ok a' s' ↔
      ∃ target' value', a' = .update target' value' ∧
        Derives (.of resolveAny) scope scope (.updating target value) s
          (.updating target' value') s' := by
  unfold inferAction
  rw [bind_eq_ok_iff]
  constructor
  · rintro ⟨target', s₁, htarget, h⟩
    obtain ⟨info, n, sig, rfl, hfree, hsig, hvar, hasked, rfl⟩ := updateTarget_eq_ok_iff.1 htarget
    obtain ⟨value', s₂, hvalue, h⟩ := bind_eq_ok_iff.1 h
    obtain ⟨_, hcoerces, h⟩ := follow_bind_eq_ok_iff.1 h
    obtain ⟨rfl, rfl⟩ := pure_eq_ok_iff.1 h
    exact ⟨_, value', rfl, .update hfree hsig hvar hasked (inferIn_eq_ok_iff.1 hvalue)
      (requireCoercion_eq_ok_iff.1 hcoerces)⟩
  · rintro ⟨target', value', rfl, hderives⟩
    generalize hupdating : Expr.updating target' value' = e' at hderives
    cases hderives with
    | operands _ _ hverdict => cases hverdict
    | update hfree hsig hvar hasked hvalue hcoerces =>
      cases hupdating
      refine ⟨_, _, updateTarget_eq_ok_iff.2 ⟨_, _, _, rfl, hfree, hsig, hvar, hasked, rfl⟩, ?_⟩
      refine bind_eq_ok_iff.2 ⟨_, _, inferIn_eq_ok_iff.2 hvalue, ?_⟩
      exact follow_bind_eq_ok_iff.2 ⟨(), requireCoercion_eq_ok_iff.2 hcoerces, rfl⟩

theorem inferAction_call_eq_ok_iff {callee : Expr} {args : List Expr} :
    inferAction scope (.call callee args) s = .ok a' s' ↔
      ∃ callee' args', a' = .call callee' args' ∧
        Derives (.of resolveAny) scope scope (.acting callee args) s
          (.acting callee' args') s' := by
  have hexact : ∀ e ∈ args, Exact resolveAny e := fun e _ => (exact_of_expr resolveAny e).1
  unfold inferAction
  rw [bind_eq_ok_iff]
  constructor
  · rintro ⟨sig, s₁, hcallee, h⟩
    obtain ⟨⟨info, n, rfl, hfree, hsig, haction, hcount⟩, rfl⟩ :=
      actionSignature_eq_ok_iff.1 hcallee
    obtain ⟨args', s₂, hargs, h⟩ := bind_eq_ok_iff.1 h
    obtain ⟨rfl, rfl⟩ := pure_eq_ok_iff.1 h
    obtain ⟨hderives, hadmits⟩ := (inferArgs_eq_ok_iff hexact hcount).1 hargs
    exact ⟨_, args', rfl, .actionCall hfree hsig haction hderives hadmits⟩
  · rintro ⟨callee', args', rfl, hderives⟩
    generalize hacting : Expr.acting callee' args' = e' at hderives
    cases hderives with
    | operands _ _ hverdict => cases hverdict
    | actionCall hfree hsig haction hargs hadmits =>
      injection hacting with _ _ hoperands
      cases hoperands
      have hcount := hargs.length_eq.symm.trans hadmits.length_eq
      refine ⟨_, s, actionSignature_eq_ok_iff.2
        ⟨⟨_, _, rfl, hfree, hsig, haction, hcount⟩, rfl⟩, ?_⟩
      exact bind_eq_ok_iff.2 ⟨_, _, (inferArgs_eq_ok_iff hexact hcount).2 ⟨hargs, hadmits⟩, rfl⟩

end Expressions

section Actions

variable {I : State → Prop} {scope : Scope}

theorem inferAction_conditional (arms : List (Expr × Action)) (d : Action) :
    inferAction scope (.conditional arms d) = (do
      let arms ← inferArms scope arms
      if d.isHole then return .conditional arms .hole
      else return .conditional arms (← inferAction scope d)) := by
  cases d <;> rfl

/-- Whether all that an analysis does keeps a property of the state. -/
def Kept (I : State → Prop) : Prop :=
  Carries (.of resolveAny) fun s s' => I s → I s'

theorem ensures_inferIn (hI : Kept I) (e : Expr) :
    Ensures I (inferIn scope e) (Derived I (.of resolveAny) scope e) := by
  intro s e' s' hs hrun
  have hderives := inferIn_eq_ok_iff.1 hrun
  have hs' := hderives.relates hI hs
  exact ⟨hs', s, s', hs, hs', hderives⟩

mutual

theorem ensures_inferAction (hI : Kept I) :
    (a : Action) → Ensures I (inferAction scope a) (a.Lift (Derived I (.of resolveAny) scope))
  | .hole => ensures_defect
  | .block as => by
    exact .bind (ensures_inferActions hI as) fun as' has => .pure (.block has)
  | .update target value => by
    intro s a' s' hs hrun
    obtain ⟨target', value', rfl, hderives⟩ := inferAction_update_eq_ok_iff.1 hrun
    have hs' := hderives.relates hI hs
    exact ⟨hs', .update ⟨s, s', hs, hs', hderives⟩⟩
  | .call callee args => by
    intro s a' s' hs hrun
    obtain ⟨callee', args', rfl, hderives⟩ := inferAction_call_eq_ok_iff.1 hrun
    have hs' := hderives.relates hI hs
    exact ⟨hs', .call ⟨s, s', hs, hs', hderives⟩⟩
  | .conditional arms d => by
    have hd := ensures_inferAction hI d
    rw [inferAction_conditional]
    refine .bind (ensures_inferArms hI arms) fun arms' harms => ?_
    cases d with
    | hole => exact .pure (.conditional harms)
    | _ => exact .bind hd fun d' hd' => .pure (.conditionalElse harms hd')

theorem ensures_inferActions (hI : Kept I) : (as : List Action) →
    Ensures I (inferActions scope as) (Action.LiftAll (Derived I (.of resolveAny) scope) as)
  | [] => by
    exact .pure .nil
  | a :: as => by
    refine .bind (ensures_inferAction hI a) fun a' ha => ?_
    exact .bind (ensures_inferActions hI as) fun as' has => .pure (.cons ha has)

theorem ensures_inferArms (hI : Kept I) : (arms : List (Expr × Action)) →
    Ensures I (inferArms scope arms) (Action.LiftArms (Derived I (.of resolveAny) scope) arms)
  | [] => by
    exact .pure .nil
  | (condition, body) :: rest => by
    refine .bind (ensures_inferIn hI condition) fun condition' hcondition => ?_
    refine .bind (.follow fun _ h => requireCoercion_eq_ok_iff.1 h) fun _ hbool => ?_
    refine .bind (ensures_inferAction hI body) fun body' hbody => ?_
    refine .bind (ensures_inferArms hI rest) fun rest' hrest => ?_
    exact .pure (.cons hcondition hbool hbody hrest)

end

theorem runs_inferIn {e e' : Expr} (h : Rederived I (.of resolveAny) scope e e') :
    Runs I (inferIn scope e) e' := by
  intro s hs
  obtain ⟨s', hderives, hs'⟩ := h hs
  exact ⟨s', inferIn_eq_ok_iff.2 hderives, hs'⟩

mutual

/-- An action whose expressions can be derived is analyzed. -/
theorem runs_inferAction {a a' : Action} :
    a.Lift (Rederived I (.of resolveAny) scope) a' → Runs I (inferAction scope a) a'
  | .block has => by
    exact .bind (runs_inferActions has) (.pure _)
  | .update h => fun s hs => by
    obtain ⟨s', hderives, hs'⟩ := h hs
    exact ⟨s', inferAction_update_eq_ok_iff.2 ⟨_, _, rfl, hderives⟩, hs'⟩
  | .call h => fun s hs => by
    obtain ⟨s', hderives, hs'⟩ := h hs
    exact ⟨s', inferAction_call_eq_ok_iff.2 ⟨_, _, rfl, hderives⟩, hs'⟩
  | .conditional harms => by
    exact .bind (runs_inferArms harms) (.pure _)
  | .conditionalElse (d := d) harms hd => by
    rw [inferAction_conditional]
    refine .bind (runs_inferArms harms) ?_
    have hrun := runs_inferAction hd
    cases d with
    | hole => cases hd
    | _ => exact .bind hrun (.pure _)

theorem runs_inferActions {as as'} :
    Action.LiftAll (Rederived I (.of resolveAny) scope) as as' → Runs I (inferActions scope as) as'
  | .nil => by
    exact .pure _
  | .cons ha has => by
    exact .bind (runs_inferAction ha) (.bind (runs_inferActions has) (.pure _))

theorem runs_inferArms {arms arms'} :
    Action.LiftArms (Rederived I (.of resolveAny) scope) arms arms' →
      Runs I (inferArms scope arms) arms'
  | .nil => by
    exact .pure _
  | .cons hc hbool ha hrest => by
    have hrule := requireCoercion_eq_ok_iff (u := ()).2 hbool
    refine .bind (runs_inferIn hc) (.bind (.follow hrule) ?_)
    exact .bind (runs_inferAction ha) (.bind (runs_inferArms hrest) (.pure _))

end

end Actions

section Elements

variable {I : State → Prop} {quantity : Option Expr → Check (Option Expr)}
  {action : Action → Check Action}

theorem ensures_traverse (hquantity : ∀ q, Ensures I (quantity q) (Q q))
    (haction : ∀ a, Ensures I (action a) (A a)) (e : Element) :
    Ensures I (e.traverse quantity action) (e.Lift Q A) := by
  rw [Element.traverse_eq]
  refine .bind (ensures_mapM fun q _ => hquantity q) fun qs hqs => ?_
  refine .bind (ensures_optionMapM fun a _ => haction a) fun click hclick => ?_
  exact .pure (Element.lift_refill hqs hclick)

variable {e e' : Element}

theorem ensures_inferElement (hI : Kept I) (e : Element) :
    Ensures I (inferElement e) (e.Lift (Both (Derived I (.of resolveAny) .top))
      (Action.Lift (Derived I (.of resolveAny) .top))) := by
  refine ensures_traverse (fun q => ?_) (ensures_inferAction hI) e
  cases q with
  | none => exact ensures_defect
  | some x =>
    exact .bind (ensures_inferIn hI x) fun x' hx => .pure ⟨x, x', rfl, rfl, hx⟩

/-- An element whose quantities can be derived is analyzed. -/
theorem runs_inferElement (h : e.Lift (Both (Rederived I (.of resolveAny) .top))
      (Action.Lift (Rederived I (.of resolveAny) .top)) e') : Runs I (inferElement e) e' := by
  have hquantities : Forall₂ (fun q q' => Runs I (inferQuantity q) q') e.quantities
      e'.quantities := by
    refine h.quantities.imp ?_
    rintro q q' ⟨x, x', rfl, rfl, hx⟩
    exact .bind (runs_inferIn hx) (.pure _)
  have hclick := optionRel_mono (fun _ _ => runs_inferAction) h.click
  have hpure : Runs I (pure (e.refill e'.quantities e'.click)) e' := by
    rw [h.refilled]
    exact .pure e'
  unfold inferElement
  rw [Element.traverse_eq]
  exact .bind (runs_mapM hquantities) (.bind (runs_optionMapM hclick) hpure)

end Elements

section Programs

variable {I : State → Prop} {p q : Program}

def State.ScopedBy (s : State) (p : Program) : Prop :=
  ∀ n, (s.signatures.get? n).map bodyScope = (p.signatures.get? n).map bodyScope

theorem ensures_inferNamedAction (hI : Kept I) (hscoped : ∀ ⦃s⦄, I s → s.ScopedBy p) (n : String)
    (a : Action) : Ensures I (inferNamedAction n a) fun a' => ∃ sig,
      p.signatures.get? n = some sig ∧ a.Lift (Derived I (.of resolveAny) (bodyScope sig)) a' := by
  intro s a' s' hs hrun
  unfold inferNamedAction at hrun
  rw [signature?_bind] at hrun
  have hn := hscoped hs n
  cases hsig : s.signatures.get? n with
  | none =>
    rw [hsig] at hrun
    exact absurd hrun defect_ne_ok
  | some sig =>
    rw [hsig] at hrun hn
    obtain ⟨sig', hsig', hscope⟩ := Option.map_eq_some_iff.1 hn.symm
    obtain ⟨hs', hlift⟩ := ensures_inferAction hI a hs hrun
    refine ⟨hs', sig', hsig', ?_⟩
    rw [hscope]
    exact hlift

theorem runs_inferNamedAction (hscoped : ∀ ⦃s⦄, I s → s.ScopedBy p) {n : String} {a a' : Action}
    (h : ∃ sig, p.signatures.get? n = some sig ∧
      a.Lift (Rederived I (.of resolveAny) (bodyScope sig)) a') :
    Runs I (inferNamedAction n a) a' := by
  obtain ⟨sig, hsig, hlift⟩ := h
  intro s hs
  have hn := hscoped hs n
  rw [hsig] at hn
  obtain ⟨sig', hsig', hscope⟩ := Option.map_eq_some_iff.1 hn
  rw [← hscope] at hlift
  unfold inferNamedAction
  rw [signature?_bind, hsig']
  exact runs_inferAction hlift hs

theorem ensures_inferTicker (hI : Kept I) (t : Ticker) :
    Ensures I (inferTicker t) (t.Lift (Derived I (.of resolveAny))) := by
  have hinterval : ∀ e, Ensures I (do
      let e ← inferIn .top e
      follow (requireCoercion e .real)
      return e) fun e' => Derived I (.of resolveAny) .top e e' ∧ e'.ty.coercesTo .real = true :=
    fun e => .bind (ensures_inferIn hI e) fun e' he' =>
      .bind (.follow fun _ h => requireCoercion_eq_ok_iff.1 h) fun _ hreal =>
        .pure ⟨he', hreal⟩
  unfold inferTicker
  refine .bind (ensures_optionMapM fun e _ => hinterval e) fun interval hinterval => ?_
  exact .bind (ensures_inferAction hI t.action) fun action haction =>
    .pure ⟨hinterval, haction⟩

theorem runs_inferTicker {t t' : Ticker} (h : t.Lift (Rederived I (.of resolveAny)) t') :
    Runs I (inferTicker t) t' := by
  obtain ⟨hinterval, haction⟩ := h
  have hinterval' : Option.Rel (fun e e' => Runs I (do
      let e ← inferIn .top e
      follow (requireCoercion e .real)
      return e) e') t.interval t'.interval := by
    refine optionRel_mono (fun e e' h => ?_) hinterval
    have hrule := requireCoercion_eq_ok_iff (u := ()).2 h.2
    exact .bind (runs_inferIn h.1) (.bind (.follow hrule) (.pure _))
  refine .bind (runs_optionMapM hinterval') (.bind (runs_inferAction haction) ?_)
  exact .pure _

theorem ensures_tell (hI : Kept I) (note : Note) : Ensures I (tell note) fun _ => True := by
  intro s u s' hs hrun
  cases hrun
  exact ⟨hI.notes s _ hs, trivial⟩

theorem runs_tell (hnotes : ∀ s notes, I s → I { s with notes := notes }) (note : Note) :
    Runs I (tell note) () :=
  fun s hs => ⟨_, rfl, hnotes s _ hs⟩

variable {s : State}

theorem lift_of_inferProgram (hI : Kept I) (hscoped : ∀ ⦃s⦄, I s → s.ScopedBy p) {s' : State}
    (hrun : inferProgram p s = .ok q s') :
    ∃ s₁, p.identifiers.names.forM resolveAny s = .ok () s₁ ∧
      (I s₁ → I s' ∧ q.signatures = s'.signatures ∧ q.identifiers = s'.identifiers ∧
        p.Lift (Derived I (.of resolveAny)) q) := by
  obtain ⟨_, s₁, hnames, hrun⟩ := bind_eq_ok_iff.1 hrun
  refine ⟨s₁, hnames, fun hs₁ => ?_⟩
  obtain ⟨_, s₂, htell, hrun⟩ := bind_eq_ok_iff.1 hrun
  obtain ⟨hs₂, -⟩ := ensures_tell hI _ hs₁ htell
  obtain ⟨actions, s₃, hactions, hrun⟩ := bind_eq_ok_iff.1 hrun
  obtain ⟨hs₃, hactions⟩ := ensures_nameMapM
    (fun n a _ => ensures_inferNamedAction hI hscoped n a) hs₂ hactions
  obtain ⟨_, s₄, htell, hrun⟩ := bind_eq_ok_iff.1 hrun
  obtain ⟨hs₄, -⟩ := ensures_tell hI _ hs₃ htell
  obtain ⟨entries, s₅, hentries, hrun⟩ := bind_eq_ok_iff.1 hrun
  obtain ⟨hs₅, hentries⟩ := ensures_optionMapM
    (fun es _ => ensures_mapM fun e _ => ensures_inferIn hI e) hs₄ hentries
  obtain ⟨ticker, s₆, hticker, hrun⟩ := bind_eq_ok_iff.1 hrun
  obtain ⟨hs₆, hticker⟩ := ensures_optionMapM (fun t _ => ensures_inferTicker hI t) hs₅ hticker
  obtain ⟨display, s₇, hdisplay, hrun⟩ := bind_eq_ok_iff.1 hrun
  obtain ⟨hs₇, hdisplay⟩ := ensures_optionMapM
    (fun es _ => ensures_mapM fun e _ => ensures_inferElement hI e) hs₆ hdisplay
  obtain ⟨_, s₈, htell, hrun⟩ := bind_eq_ok_iff.1 hrun
  obtain ⟨hs₈, -⟩ := ensures_tell hI _ hs₇ htell
  cases hrun
  exact ⟨hs₈, rfl, rfl, rfl, hactions, hentries, hticker, hdisplay⟩

/-- A program is analyzed whose definitions are resolved and whose other parts can be derived. -/
theorem inferProgram_of_lift (hnotes : ∀ s notes, I s → I { s with notes := notes })
    (hscoped : ∀ ⦃s⦄, I s → s.ScopedBy p)
    (hend : ∀ ⦃s⦄, I s → s.signatures = q.signatures ∧ s.identifiers = q.identifiers) {s₁ : State}
    (hnames : p.identifiers.names.forM resolveAny s = .ok () s₁) (hs₁ : I s₁)
    (hlift : p.Lift (Rederived I (.of resolveAny)) q) : ∃ s', inferProgram p s = .ok q s' := by
  have hactions := runs_nameMapM (f := inferNamedAction) (hlift.actions.imp fun e e' h =>
    ⟨h.1, runs_inferNamedAction hscoped h.2⟩)
  have hentries := runs_optionMapM (f := List.mapM (inferIn .top))
    (optionRel_mono (fun es es' h => runs_mapM (h.imp fun e e' he => runs_inferIn he))
      hlift.entries)
  have hticker := runs_optionMapM (f := inferTicker)
    (optionRel_mono (fun t t' h => runs_inferTicker h) hlift.ticker)
  have hdisplay := runs_optionMapM (f := List.mapM inferElement)
    (optionRel_mono (fun es es' h => runs_mapM (h.imp fun e e' he => runs_inferElement he))
      hlift.display)
  have hparts : Runs I (do
      tell (.identifiers p.identifiers.size)
      let actions ← p.actions.mapM inferNamedAction
      tell (.actions p.actions.size)
      let entries ← p.entries.mapM (·.mapM (inferIn .top))
      let ticker ← p.ticker.mapM inferTicker
      let display ← p.display.mapM (·.mapM inferElement)
      tell (.blocks ((p.entries.getD []).length) ((p.display.getD []).length))
      let s ← get
      return { p with
        signatures := s.signatures, identifiers := s.identifiers, actions, entries, ticker,
        display }) q := by
    refine .bind (runs_tell hnotes _) (.bind hactions (.bind (runs_tell hnotes _) ?_))
    refine .bind hentries (.bind hticker (.bind hdisplay ?_))
    refine .bind (runs_tell hnotes _) fun s hs => ⟨s, ?_, hs⟩
    obtain ⟨hsignatures, hidentifiers⟩ := hend hs
    have henums := hlift.enums
    change EStateM.Result.ok _ s = EStateM.Result.ok q s
    rw [hsignatures, hidentifiers, ← henums]
  obtain ⟨s', hrun, -⟩ := hparts hs₁
  exact ⟨s', bind_eq_ok_iff.2 ⟨(), s₁, hnames, hrun⟩⟩

theorem analyze_eq_ok_iff :
    p.analyze.outcome = .ok q ↔ ∃ s', inferProgram p (start p) = .ok q s' := by
  unfold Program.analyze
  cases hrun : inferProgram p (start p) with
  | ok r s | error e s => simp

end Programs

end Typing

end Diagram
