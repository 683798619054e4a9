import Diagram.Proofs.Typing.Eliminated
import Diagram.Proofs.Typing.Replay

/-!
# Analyses of alike programs

Two programs are alike if their definitions and their other parts differ in top-level names only.
The definitions of the second one are analyzed by replaying what was done for those of the first.
Nothing is left to be asked for then, so its other parts become what those of the first one became,
up to the names.

* `AlikeParts.exists_lift` — the parts outside of the definitions, given their expressions.
* `exists_finished` — the definitions.
* `analyze_of_alike` — the whole analysis.
-/

namespace Diagram

open List Option Signature NameMap

/-- Whether the second of two things in the relation `A` has something in the relation `P'` if the
first one has something in the relation `P`. -/
def Transports {α β : Type} (A : α → α → Prop) (P P' : α → β → Prop) : Prop :=
  ∀ ⦃a a' b⦄, A a a' → P a b → ∃ b', P' a' b'

section Combinators

variable {α β : Type} {A : α → α → Prop} {P P' : α → β → Prop}

theorem transports_optionRel (h : Transports A P P') :
    Transports (Option.Rel A) (Option.Rel P) (Option.Rel P') := by
  intro a? a?' b? hA hP
  cases hA with
  | none => exact ⟨none, .none⟩
  | some haa' =>
    cases hP with
    | some hab =>
      obtain ⟨b', hb'⟩ := h haa' hab
      exact ⟨some b', .some hb'⟩

theorem transports_forall₂ (h : Transports A P P') :
    Transports (Forall₂ A) (Forall₂ P) (Forall₂ P') := by
  intro as as' bs hA hP
  induction hA generalizing bs with
  | nil => exact ⟨[], .nil⟩
  | cons haa' _ ih =>
    cases hP with
    | cons hab hrest =>
      obtain ⟨b', hb'⟩ := h haa' hab
      obtain ⟨bs', hbs'⟩ := ih hrest
      exact ⟨b' :: bs', .cons hb' hbs'⟩

theorem exists_forall₂ {Q : α → β → Prop} {as : List α} (h : ∀ a ∈ as, ∃ b, Q a b) :
    ∃ bs, Forall₂ Q as bs := by
  induction as with
  | nil => exact ⟨[], .nil⟩
  | cons a as ih =>
    obtain ⟨⟨b, hb⟩, has⟩ := forall_mem_cons.1 h
    obtain ⟨bs, hbs⟩ := ih has
    exact ⟨b :: bs, .cons hb hbs⟩

theorem NameMap.exists_rel {m : NameMap α} {Q : String → α → β → Prop}
    (h : ∀ n a, m.get? n = some a → ∃ b, Q n a b) : ∃ m', m.Rel Q m' := by
  have hentry : ∀ e ∈ m.entries, ∃ e' : String × β, e'.1 = e.1 ∧ Q e.1 e.2 e'.2 := by
    intro e he
    obtain ⟨b, hb⟩ := h e.1 e.2 (get?_eq_some_iff.2 he)
    exact ⟨(e.1, b), rfl, hb⟩
  obtain ⟨entries, hentries⟩ := exists_forall₂ hentry
  exact ⟨⟨entries, sorted_of_forall₂ m.sorted (hentries.imp fun _ _ h => h.1)⟩, hentries⟩

end Combinators

namespace Typing

/-! ### Alike parts -/

mutual

/-- The relation of actions that differ in top-level names only. -/
inductive AlikeAction (c : Respelling) (time : Bool) (b : List String) : Action → Action → Prop
  | hole : AlikeAction c time b .hole .hole
  | block {as as'} (has : AlikeActions c time b as as') : AlikeAction c time b (.block as) (.block as')
  | update {t v t' v'} (h : Alike c Any time b b (.updating t v) (.updating t' v')) :
      AlikeAction c time b (.update t v) (.update t' v')
  | call {f args f' args'} (h : Alike c Any time b b (.acting f args) (.acting f' args')) :
      AlikeAction c time b (.call f args) (.call f' args')
  | conditional {arms arms' d d'} (harms : AlikeArms c time b arms arms')
      (hd : AlikeAction c time b d d') :
      AlikeAction c time b (.conditional arms d) (.conditional arms' d')

/-- The relation of lists of actions that differ in top-level names only. -/
inductive AlikeActions (c : Respelling) (time : Bool) (b : List String) :
    List Action → List Action → Prop
  | nil : AlikeActions c time b [] []
  | cons {a as a' as'} (ha : AlikeAction c time b a a') (has : AlikeActions c time b as as') :
      AlikeActions c time b (a :: as) (a' :: as')

/-- The relation of branches that differ in top-level names only. -/
inductive AlikeArms (c : Respelling) (time : Bool) (b : List String) :
    List (Expr × Action) → List (Expr × Action) → Prop
  | nil : AlikeArms c time b [] []
  | cons {e a rest e' a' rest'} (he : Alike c Any time b b e e') (ha : AlikeAction c time b a a')
      (hrest : AlikeArms c time b rest rest') :
      AlikeArms c time b ((e, a) :: rest) ((e', a') :: rest')

end

/-- The relation of expressions of the top level that differ in top-level names only. -/
abbrev AlikeTop (c : Respelling) : Expr → Expr → Prop :=
  Alike c Any false [] []

/-- The relation of tickers that differ in top-level names only. -/
structure AlikeTicker (c : Respelling) (t t' : Ticker) : Prop where
  interval : Option.Rel (AlikeTop c) t.interval t'.interval
  action : AlikeAction c true [] t.action t'.action

/-- The relation of programs whose parts outside of the definitions differ in top-level names
only. -/
structure AlikeParts (c : Respelling) (p p' : Program) : Prop where
  actions : ∀ n, Option.Rel (AlikeAction c false (p.paramNames n)) (p.actions.get? n)
    (p'.actions.get? (c.name n))
  entries : Option.Rel (Forall₂ (AlikeTop c)) p.entries p'.entries
  ticker : Option.Rel (AlikeTicker c) p.ticker p'.ticker
  display : Option.Rel (Forall₂ (Element.Lift (Option.Rel (AlikeTop c))
    (AlikeAction c false []))) p.display p'.display

section Lifts

variable {c : Respelling} {time : Bool} {b : List String}

/-- What becomes of expressions, in a relation `D` for the first and `D'` for the second of alike
ones: types that differ in names only, and an update or a call of an action for one. -/
structure Carried (c : Respelling) (A D D' : Expr → Expr → Prop) : Prop where
  expr : ∀ ⦃e e' e₁⦄, A e e' → D e e₁ → ∃ e₁', D' e' e₁' ∧ e₁'.ty = e₁.ty.rename c
  update : ∀ ⦃t v e₁⦄, D' (.updating t v) e₁ → ∃ t₁ v₁, e₁ = .updating t₁ v₁
  call : ∀ ⦃f args e₁⦄, D' (.acting f args) e₁ → ∃ f₁ args₁, e₁ = .acting f₁ args₁

variable {D D' : Expr → Expr → Prop} {A : Expr → Expr → Prop}

theorem Carried.transports (h : Carried c A D D') : Transports A D D' := by
  intro e e' e₁ hA hD
  obtain ⟨e₁', he₁', -⟩ := h.expr hA hD
  exact ⟨e₁', he₁'⟩

mutual

theorem transports_action (hD : Carried c (Alike c Any time b b) D D') {a a' a₁ : Action} :
    AlikeAction c time b a a' → a.Lift D a₁ → ∃ a₁', a'.Lift D' a₁'
  | .block has, .block h => by
    obtain ⟨as', hlift⟩ := transports_actions hD has h
    exact ⟨.block as', .block hlift⟩
  | .update halike, .update h => by
    obtain ⟨e₁, he₁, -⟩ := hD.expr halike h
    obtain ⟨t₁, v₁, rfl⟩ := hD.update he₁
    exact ⟨.update t₁ v₁, .update he₁⟩
  | .call halike, .call h => by
    obtain ⟨e₁, he₁, -⟩ := hD.expr halike h
    obtain ⟨f₁, args₁, rfl⟩ := hD.call he₁
    exact ⟨.call f₁ args₁, .call he₁⟩
  | .conditional harms hd, .conditional h => by
    obtain ⟨arms', hlift⟩ := transports_arms hD harms h
    cases hd
    exact ⟨.conditional arms' .hole, .conditional hlift⟩
  | .conditional harms hd, .conditionalElse h hdefault => by
    obtain ⟨arms', hlift⟩ := transports_arms hD harms h
    obtain ⟨d', hd'⟩ := transports_action hD hd hdefault
    exact ⟨.conditional arms' d', .conditionalElse hlift hd'⟩

theorem transports_actions (hD : Carried c (Alike c Any time b b) D D') {as as' as₁} :
    AlikeActions c time b as as' → Action.LiftAll D as as₁ → ∃ as₁', Action.LiftAll D' as' as₁'
  | .nil, .nil => ⟨[], .nil⟩
  | .cons ha has, .cons h hrest => by
    obtain ⟨a₁, ha₁⟩ := transports_action hD ha h
    obtain ⟨as₁, has₁⟩ := transports_actions hD has hrest
    exact ⟨a₁ :: as₁, .cons ha₁ has₁⟩

theorem transports_arms (hD : Carried c (Alike c Any time b b) D D') {arms arms' arms₁} :
    AlikeArms c time b arms arms' → Action.LiftArms D arms arms₁ →
      ∃ arms₁', Action.LiftArms D' arms' arms₁'
  | .nil, .nil => ⟨[], .nil⟩
  | .cons he ha hrest, .cons h hbool haction hlift => by
    obtain ⟨e₁, he₁, hty⟩ := hD.expr he h
    obtain ⟨a₁, ha₁⟩ := transports_action hD ha haction
    obtain ⟨rest₁, hrest₁⟩ := transports_arms hD hrest hlift
    have hbool₁ : e₁.ty.coercesTo .bool = true := by
      rw [hty, Ty.coercesTo_rename_left c.injective _ rfl]
      exact hbool
    exact ⟨(e₁, a₁) :: rest₁, .cons he₁ hbool₁ ha₁ hrest₁⟩

end

theorem transports_both (hD : Carried c A D D') : Transports (Option.Rel A) (Both D) (Both D') := by
  rintro q q' q₁ hA ⟨e, e₁, rfl, rfl, h⟩
  obtain ⟨e', rfl, hee'⟩ := exists_of_optionRel_some hA
  obtain ⟨e₁', he₁', -⟩ := hD.expr hee' h
  exact ⟨some e₁', e', e₁', rfl, rfl, he₁'⟩

theorem transports_element (hD : Carried c (AlikeTop c) D D') :
    Transports (Element.Lift (Option.Rel (AlikeTop c)) (AlikeAction c false []))
      (Element.Lift (Both D) (Action.Lift D)) (Element.Lift (Both D') (Action.Lift D')) := by
  intro e e' e₁ halike h
  have hclick : Transports (AlikeAction c false []) (Action.Lift D) (Action.Lift D') :=
    fun a a' a₁ => transports_action hD
  obtain ⟨qs, hqs⟩ := transports_forall₂ (transports_both hD) halike.quantities h.quantities
  obtain ⟨click, hclick⟩ := transports_optionRel hclick halike.click h.click
  exact ⟨e'.refill qs click, Element.lift_refill hqs hclick⟩

end Lifts

section Programs

variable {c : Respelling} {p p' q : Program} {D D' : Scope → Expr → Expr → Prop}

theorem transports_ticker (htop : Carried c (AlikeTop c) (D .top) (D' .top))
    (hticking : Carried c (Alike c Any true [] []) (D .ticking) (D' .ticking)) :
    Transports (AlikeTicker c) (Ticker.Lift D) (Ticker.Lift D') := by
  rintro t t' t₁ ⟨hinterval, haction⟩ ⟨hinterval₁, haction₁⟩
  have hreal : Transports (AlikeTop c) (fun e e₁ => D .top e e₁ ∧ e₁.ty.coercesTo .real = true)
      (fun e e₁ => D' .top e e₁ ∧ e₁.ty.coercesTo .real = true) := by
    intro e e' e₁ halike h
    obtain ⟨e₁', he₁', hty⟩ := htop.expr halike h.1
    refine ⟨e₁', he₁', ?_⟩
    rw [hty, Ty.coercesTo_rename_left c.injective _ rfl]
    exact h.2
  obtain ⟨interval, hinterval'⟩ := transports_optionRel hreal hinterval hinterval₁
  obtain ⟨action, haction'⟩ := transports_action hticking haction haction₁
  exact ⟨⟨interval, action⟩, hinterval', haction'⟩

/-- The parts of a program become something if those of a program do that is alike. -/
theorem AlikeParts.exists_lift (h : AlikeParts c p p') (hp : p.Grounded)
    (hsignatures : ∀ n, p'.signatures.get? (c.name n) = (p.signatures.get? n).map (rename c))
    (hD : ∀ {time b scope scope'}, Paired c Any time b scope scope' →
      Carried c (Alike c Any time b b) (D scope) (D' scope'))
    (hlift : p.Lift D q) (signatures : Signatures) (identifiers : NameMap Expr) :
    ∃ q', q'.signatures = signatures ∧ q'.identifiers = identifiers ∧ p'.Lift D' q' := by
  have htop : Carried c (AlikeTop c) (D .top) (D' .top) := hD ⟨Scope.binds_top, rfl, scopeAlike_top⟩
  have hticking : Carried c (Alike c Any true [] []) (D .ticking) (D' .ticking) :=
    hD ⟨Scope.binds_top, rfl, fun _ => rfl, Scope.over_top, rfl, rfl⟩
  have hactions : ∀ n' a', p'.actions.get? n' = some a' → ∃ a₁', ∃ sig',
      p'.signatures.get? n' = some sig' ∧ a'.Lift (D' (bodyScope sig')) a₁' := by
    intro n' a' ha'
    obtain ⟨n, rfl⟩ := c.name.surjective n'
    obtain ⟨a, ha, halike⟩ := exists_of_optionRel (h.actions n) ha'
    obtain ⟨⟨_, a₁⟩, -, rfl, sig, hsig, hlift⟩ :=
      exists_of_forall₂ hlift.actions.flip (get?_eq_some_iff.1 ha)
    obtain ⟨a₁', hlift'⟩ := transports_action (hD (paired_bodyScope hp hsig Any)) halike hlift
    refine ⟨a₁', sig.rename c, ?_, hlift'⟩
    rw [hsignatures, hsig]
    rfl
  obtain ⟨actions, hactions⟩ := exists_rel hactions
  obtain ⟨entries, hentries⟩ :=
    transports_optionRel (transports_forall₂ htop.transports) h.entries hlift.entries
  obtain ⟨ticker, hticker⟩ :=
    transports_optionRel (transports_ticker htop hticking) h.ticker hlift.ticker
  obtain ⟨display, hdisplay⟩ := transports_optionRel
    (transports_forall₂ (transports_element htop)) h.display hlift.display
  exact ⟨⟨signatures, identifiers, actions, p'.enums, entries, ticker, display⟩, rfl, rfl, rfl,
    hactions, hentries, hticker, hdisplay⟩

end Programs

/-! ### Finished analyses of the definitions -/

section Completed

variable {p q : Program} {s s' u last : State}

theorem Unnoted.completed (h : Unnoted s u) (hs : Completed p s) : Completed p u := by
  obtain ⟨notes, rfl⟩ := h
  exact (kept_completed p).notes s notes hs

theorem unnoted_noted (s : State) (b : Builtin) (v : Verdict) : Unnoted s (s.noted b v) := by
  unfold State.noted
  split
  · exact ⟨_, rfl⟩
  · exact .refl s

/-- Once all definitions have begun nothing is left to be resolved. -/
theorem Completed.eq_of_resolve (hs : Completed p s) {n : String} {k : Nat}
    (h : resolve n k s = .ok () s') : s' = s := by
  cases k with
  | zero => exact (resolve_zero_eq_ok_iff.1 h).2
  | succ k =>
    rcases resolve_succ_eq_ok_iff.1 h with ⟨-, rfl⟩ | ⟨hn, sig, body, -, -, -, -, hbody, -⟩
    · rfl
    · rw [hs.begun_of_get? hbody] at hn
      cases hn

theorem kept_unnoted (hlast : Completed p last) : Kept (Unnoted last) where
  refl _ h := h
  trans h h' hs := h' (h hs)
  notes _ notes hs := hs.trans ⟨notes, rfl⟩
  asked h hs := (hs.completed hlast).eq_of_resolve h ▸ hs

/-- The analysis of a program resolves all definitions, and the state is not changed any more but
for its notes. -/
theorem exists_last (h : p.analyze.outcome = .ok q) :
    ∃ last, p.identifiers.names.forM resolveAny (start p) = .ok () last ∧ Completed p last ∧
      q.signatures = last.signatures ∧ p.Lift (Derived (Unnoted last) (.of resolveAny)) q := by
  obtain ⟨s', hrun⟩ := analyze_eq_ok_iff.1 h
  obtain ⟨last, hlast, -⟩ :=
    lift_of_inferProgram (kept_completed p) (fun s hs => hs.reached.scopedBy) hrun
  obtain ⟨hreached, hbegun⟩ := progress_of_forM hlast
  have hcompleted : Completed p last := ⟨hreached, hbegun⟩
  obtain ⟨last', hlast', hrest⟩ := lift_of_inferProgram (kept_unnoted hcompleted)
    (fun s hs => (hs.completed hcompleted).reached.scopedBy) hrun
  cases hlast.symm.trans hlast'
  obtain ⟨⟨notes, rfl⟩, hsignatures, -, hlift⟩ := hrest (.refl last)
  exact ⟨last, hlast, hcompleted, hsignatures, hlift⟩

end Completed

section Definitions

variable {c : Respelling} {lt : String → String → Prop} {p p' q : Program} {last last' : State}

theorem AlikeDefinitions.defines_iff (halike : AlikeDefinitions c lt p p') (n : String) :
    p'.Defines (c.name n) ↔ p.Defines n := by
  have hbodies := halike.identifiers n
  unfold Program.Defines NameMap.contains
  generalize p.identifiers.get? n = body? at hbodies ⊢
  generalize p'.identifiers.get? (c.name n) = body?' at hbodies ⊢
  cases hbodies <;> rfl

/-- A signature under new names is known by its type and by what the declaration says but for the
type. -/
theorem eq_rename_of_bare {r : Renaming} {sig sig' sig₀ : Signature} (h : sig.bare = sig₀.bare)
    (h' : sig'.bare = (sig₀.rename r).bare) (hty : sig'.ty = sig.ty.rename r) :
    sig' = sig.rename r := by
  have hbare : sig'.bare = (sig.rename r).bare := by
    have hrename : (sig.rename r).bare = (sig.bare.rename r).bare := rfl
    have hrename₀ : (sig₀.rename r).bare = (sig₀.bare.rename r).bare := rfl
    rw [h', hrename, hrename₀, h]
  have hself : ∀ t : Signature, t = { t.bare with ty := t.ty } := fun _ => rfl
  rw [hself sig', hbare, hty]
  rfl

/-- What is known once both analyses have resolved all definitions. -/
structure BothFinished (c : Respelling) (lt : String → String → Prop) (p p' : Program)
    (last last' : State) : Prop where
  completed : Completed p last
  completed' : Completed p' last'
  keeps : Keeps (start p) last
  original : Original p [] last
  explained : ∀ k, last.hasBegun k = true → Explained c lt p p' last k
  follows : Follows c p' last [] p'.identifiers.size last'

theorem exists_finished [IsStrictOrder String lt] (hp : p.Grounded)
    (halike : AlikeDefinitions c lt p p')
    (h : p.identifiers.names.forM resolveAny (start p) = .ok () last) :
    ∃ last', p'.identifiers.names.forM resolveAny (start p') = .ok () last' ∧
      BothFinished c lt p p' last last' := by
  obtain ⟨hreached, hbegun⟩ := progress_of_forM h
  obtain ⟨horiginal, hexplained⟩ := explained_of_forM hp halike h
  have hstep : ∀ n' ∈ p'.identifiers.names, Runs
      (fun u => Follows c p' last [] p'.identifiers.size u ∧ Reached p' u) (resolveAny n') () := by
    intro n' hn' u ⟨hfollows, hu⟩
    obtain ⟨n, rfl⟩ := c.name.surjective n'
    have hdefined := (halike.defines_iff n).1 (mem_names_iff.1 hn')
    have hn := hbegun n (mem_names_iff.2 hdefined)
    obtain ⟨v, hrun, hv, -⟩ := (hexplained n hn).replays [] (forall_mem_nil _) _ u hfollows
    have hsize : u.identifiers.size = p'.identifiers.size := by
      have hnames := congrArg List.length hu.names
      rw [names, names, length_map, length_map] at hnames
      exact hnames
    refine ⟨v, ?_, hv, hu.trans (resolves_of_resolve hrun).progress⟩
    change resolve (c.name n) u.identifiers.size u = .ok () v
    rw [hsize, hrun]
  obtain ⟨last', hrun, hfollows, -⟩ :=
    runs_forM hstep ⟨follows_start c p' last, Progress.refl (start p')⟩
  obtain ⟨hreached', hbegun'⟩ := progress_of_forM hrun
  exact ⟨last', hrun, ⟨hreached, hbegun⟩, ⟨hreached', hbegun'⟩, (grows_of_forM h).known, horiginal,
    hexplained, hfollows⟩

namespace BothFinished

variable (hboth : BothFinished c lt p p' last last') {t u : State}

include hboth

theorem beside (ht : Unnoted last t) (hu : Unnoted last' u) :
    Beside c lt p p' last [] [] p'.identifiers.size t u := by
  obtain ⟨notes, rfl⟩ := ht
  obtain ⟨notes', rfl⟩ := hu
  exact ⟨{ hboth.original with }, fun _ _ _ => ⟨rfl, rfl⟩, fun k hk _ => hboth.explained k hk,
    { hboth.follows with original := { hboth.follows.original with } }⟩

theorem begun_iff (halike : AlikeDefinitions c lt p p') (n : String) :
    last'.hasBegun (c.name n) ↔ last.hasBegun n := by
  have hdefines : ∀ {r : Program} {s : State}, Completed r s → ∀ m,
      s.hasBegun m = true ↔ r.Defines m := by
    intro r s hs m
    constructor
    · intro hm
      obtain ⟨-, e, -, he, -⟩ := hs.reached.finished m rfl hm
      have hnames : s.identifiers.names = r.identifiers.names := hs.reached.names
      refine mem_names_iff.1 ?_
      rw [← hnames]
      exact mem_names_iff.2 (contains_eq_true_iff.2 ⟨e, he⟩)
    · exact fun hm => hs.begun m (mem_names_iff.2 hm)
  rw [hdefines hboth.completed' _, hdefines hboth.completed n, halike.defines_iff]

/-- The signatures of the second program are those of the first one under new names. -/
theorem get?_signatures (halike : AlikeDefinitions c lt p p') (n : String) :
    last'.signatures.get? (c.name n) = (last.signatures.get? n).map (rename c) := by
  cases hbegun : last'.hasBegun (c.name n) with
  | false =>
    have hbegun' : last.hasBegun n = false := by
      rw [← Bool.not_eq_true, ← hboth.begun_iff halike n, hbegun]
      exact Bool.false_ne_true
    rw [hboth.follows.original.signatures _ (.inl hbegun),
      hboth.original.signatures n (.inl hbegun'), halike.signatures]
  | true =>
    have hty := (hboth.follows.answers n hbegun not_mem_nil).1
    have hfirst := hboth.original.static n
    have hsecond := hboth.follows.original.static (c.name n)
    rw [halike.signatures] at hsecond
    cases hsig₀ : p.signatures.get? n with
    | none =>
      rw [hsig₀] at hfirst hsecond
      rw [map_eq_none_iff.1 hfirst, map_eq_none_iff.1 hsecond, map_none]
    | some sig₀ =>
      rw [hsig₀] at hfirst hsecond
      obtain ⟨sig, hsig, hbare⟩ := map_eq_some_iff.1 hfirst
      obtain ⟨sig', hsig', hbare'⟩ := map_eq_some_iff.1 hsecond
      rw [tyOf_of_get? hsig, tyOf_of_get? hsig'] at hty
      rw [hsig, hsig', map_some, eq_rename_of_bare hbare hbare' hty]

theorem simulation (hp : p.Grounded) (halike : AlikeDefinitions c lt p p') :
    Simulation c Any p.Wanted Any (fun t u => Unnoted last t ∧ Unnoted last' u) (.of resolveAny)
      (.of resolveAny) where
  static h := (hboth.beside h.1 h.2).static halike
  enums h := (hboth.beside h.1 h.2).enum_iff halike
  types h _ _ := (hboth.beside h.1 h.2).types halike hp
  noted h b v := ⟨h.1.trans (unnoted_noted _ b v), h.2.trans (unnoted_noted _ b _)⟩
  wanted h _ := (hboth.beside h.1 h.2).wanted halike hboth.keeps
  inferred _ _ _ _ _ := trivial
  within _ _ _ := Ty.over_of_forall (fun _ _ _ => trivial) _
  keeps := { carries_keeps 0 with asked := fun h => (grows_of_resolve h).1.known }
  keeps' := { carries_keeps 0 with asked := fun h => (grows_of_resolve h).1.known }
  asked := by
    intro t u t₁ n b d ⟨ht, hu⟩ _ hwanted _ _ hd hasked
    have hfollows := (hboth.beside ht hu).follows
    have hsame : t₁ = t := by
      cases b with
      | true => exact (ht.completed hboth.completed).eq_of_resolve hasked
      | false => exact hasked
    rw [hsame, ht.tyOf_eq n]
    cases d with
    | false => exact ⟨u, rfl, ⟨ht, hu⟩, hfollows.tyOf_eq halike hboth.keeps (hd rfl), nofun⟩
    | true =>
      have hdefined := (halike.defines_iff n).2 (hp.defined n (hwanted (.inr rfl)))
      have hbegun := (hu.completed hboth.completed').begun _ (mem_names_iff.2 hdefined)
      obtain ⟨hty, hvalue⟩ := hfollows.answers n hbegun not_mem_nil
      refine ⟨u, resolve_of_begun hbegun _, ⟨ht, hu⟩, hty, fun _ _ => ⟨?_, fun _ _ => ?_⟩⟩
      · obtain ⟨notes, rfl⟩ := ht
        exact hvalue
      · exact Ty.over_of_forall (fun _ _ _ => trivial) _

end BothFinished

variable {R : Resolution} {outer scope : Scope} {e : Expr} {s s' : State}

theorem Derives.exists_updating {t v : Expr} (h : Derives R outer scope (.updating t v) s e s') :
    ∃ t₁ v₁, e = .updating t₁ v₁ := by
  cases h with
  | update => exact ⟨_, _, rfl⟩
  | operands _ _ hverdict => cases hverdict

theorem Derives.exists_acting {f : Expr} {args : List Expr}
    (h : Derives R outer scope (.acting f args) s e s') : ∃ f₁ args₁, e = .acting f₁ args₁ := by
  cases h with
  | actionCall => exact ⟨.name ⟨.action _, _⟩ _, _, rfl⟩
  | operands _ _ hverdict => cases hverdict

/-- Where all definitions have begun, a derivation can be repeated with other notes. -/
theorem transfer_unnoted (hlast : Completed p last) (final : State) :
    Transfer (.of resolveAny) (.of resolveAny) (fun s u => Unnoted last s ∧ Unnoted last u)
      (fun _ _ => True) final where
  carries := ⟨fun _ => trivial, fun _ _ => trivial, fun _ _ => trivial, fun _ => trivial⟩
  same h := h.1.symm.trans h.2
  noted h b v := ⟨h.1.trans (unnoted_noted _ b v), h.2.trans (unnoted_noted _ b v)⟩
  asked := by
    intro n t t' u hrun _ ⟨ht, hu⟩
    have hbegun := (grows_of_resolve hrun).2
    have hsame := (ht.completed hlast).eq_of_resolve hrun
    rw [hsame] at hbegun ⊢
    have hbegun' : u.hasBegun n = true := by
      obtain ⟨notes, rfl⟩ := ht.symm.trans hu
      exact hbegun
    exact ⟨u, resolve_of_begun hbegun' _, ht, hu⟩

/-- With all definitions resolved an expression of the second program becomes what an expression of
the first one became that is alike. -/
theorem BothFinished.carried (hboth : BothFinished c lt p p' last last') (hp : p.Grounded)
    (halike : AlikeDefinitions c lt p p') {time : Bool} {b : List String} {scope' : Scope}
    (hscope : Paired c Any time b scope scope') :
    Carried c (Alike c Any time b b) (Derived (Unnoted last) (.of resolveAny) scope)
      (Rederived (Unnoted last') (.of resolveAny) scope') where
  expr := by
    rintro e e' e₁ he ⟨t, t₁, ht, -, hderives⟩
    obtain ⟨e₁', u₁, hderives', hmatches, -⟩ :=
      hderives.alike (hboth.simulation hp halike) hscope hscope he ⟨ht, .refl last'⟩
    refine ⟨e₁', fun u hu => ?_, hmatches.respelled.ty⟩
    obtain ⟨u', hd, -, hu'⟩ :=
      hderives'.transfer (transfer_unnoted hboth.completed' u₁) trivial ⟨.refl last', hu⟩
    exact ⟨u', hd, hu'⟩
  update := by
    intro t v e₁ h
    obtain ⟨_, hderives, -⟩ := h (.refl last')
    exact hderives.exists_updating
  call := by
    intro f args e₁ h
    obtain ⟨_, hderives, -⟩ := h (.refl last')
    exact hderives.exists_acting

/-- A program that is alike to one that is accepted is accepted, and its signatures are the same
but for the names. -/
theorem analyze_of_alike [IsStrictOrder String lt] (hp : p.Grounded)
    (halike : AlikeDefinitions c lt p p') (hparts : AlikeParts c p p')
    (h : p.analyze.outcome = .ok q) :
    ∃ q', p'.analyze.outcome = .ok q' ∧ ∀ n, q'.signatures.get? (c.name n) =
      (q.signatures.get? n).map (rename c) := by
  obtain ⟨last, hlast, -, hsignatures, hlift⟩ := exists_last h
  obtain ⟨last', hlast', hboth⟩ := exists_finished hp halike hlast
  obtain ⟨q', hsignatures', hidentifiers', hlift'⟩ := hparts.exists_lift hp halike.signatures
    (hboth.carried hp halike) hlift last'.signatures last'.identifiers
  refine ⟨q', analyze_eq_ok_iff.2 (inferProgram_of_lift ?_ ?_ ?_ hlast' (.refl last') hlift'),
    fun n => ?_⟩
  · exact fun s notes hs => hs.trans ⟨notes, rfl⟩
  · exact fun s hs => (hs.completed hboth.completed').reached.scopedBy
  · rintro s ⟨notes, rfl⟩
    exact ⟨hsignatures'.symm, hidentifiers'.symm⟩
  · rw [hsignatures, hsignatures', hboth.get?_signatures halike]

end Definitions

/-! ### The way back -/

section Symmetry

variable {c : Respelling} {time : Bool} {b : List String}

theorem optionRel_symm {α β : Type} {P : α → β → Prop} {Q : β → α → Prop}
    (h : ∀ a b, P a b → Q b a) {a? : Option α} {b? : Option β} (hP : Option.Rel P a? b?) :
    Option.Rel Q b? a? := by
  cases hP with
  | none => exact .none
  | some hab => exact .some (h _ _ hab)

theorem AlikeTop.symm {e e' : Expr} (h : AlikeTop c e e') : AlikeTop c.symm e' e :=
  Alike.symm (fun _ _ => trivial) h

mutual

theorem AlikeAction.symm {a a'} : AlikeAction c time b a a' → AlikeAction c.symm time b a' a
  | .hole => .hole
  | .block has => .block has.symm
  | .update h => .update (h.symm fun _ _ => trivial)
  | .call h => .call (h.symm fun _ _ => trivial)
  | .conditional harms hd => .conditional harms.symm hd.symm

theorem AlikeActions.symm {as as'} :
    AlikeActions c time b as as' → AlikeActions c.symm time b as' as
  | .nil => .nil
  | .cons ha has => .cons ha.symm has.symm

theorem AlikeArms.symm {arms arms'} :
    AlikeArms c time b arms arms' → AlikeArms c.symm time b arms' arms
  | .nil => .nil
  | .cons he ha hrest => .cons (he.symm fun _ _ => trivial) ha.symm hrest.symm

end

theorem AlikeTicker.symm {t t' : Ticker} (h : AlikeTicker c t t') : AlikeTicker c.symm t' t :=
  ⟨optionRel_symm (fun _ _ => AlikeTop.symm) h.interval, h.action.symm⟩

theorem alikeElement_symm {e e' : Element}
    (h : e.Lift (Option.Rel (AlikeTop c)) (AlikeAction c false []) e') :
    e'.Lift (Option.Rel (AlikeTop c.symm)) (AlikeAction c.symm false []) e := by
  have hQ : ∀ q' q, Option.Rel (AlikeTop c) q q' → Option.Rel (AlikeTop c.symm) q' q :=
    fun _ _ => optionRel_symm fun _ _ => AlikeTop.symm
  refine ⟨h.quantities.flip.imp hQ, optionRel_symm (fun _ _ => AlikeAction.symm) h.click, ?_⟩
  rw [← h.refilled, Element.refill_refill, Element.refill_self]

theorem rename_rename_symm (c : Respelling) (sig : Signature) :
    (sig.rename c).rename c.symm = sig := by
  have hname : c.symm.toRenaming.name (c.toRenaming.name sig.name) = sig.name :=
    c.name.symm_apply_apply _
  have hparam : Param.rename c.symm ∘ Param.rename c = id := by
    funext q
    exact congrArg (fun t => { q with ty := t }) (Ty.rename_symm c q.ty)
  simp [rename, hname, hparam, Ty.rename_symm]

theorem isWanted_rename (r : Renaming) (sig : Signature) :
    (sig.rename r).isWanted = sig.isWanted := by
  unfold isWanted
  rw [hasParams_rename]
  have hty : (sig.rename r).ty = sig.ty.rename r := rfl
  rw [hty, Ty.isUnknown_rename]
  rfl

variable {lt : String → String → Prop} {p p' : Program}

namespace AlikeDefinitions

variable (h : AlikeDefinitions c lt p p')

include h

theorem paramNames_eq (n : String) : p'.paramNames (c.name n) = p.paramNames n := by
  unfold Program.paramNames
  rw [h.signatures, Option.map_map]
  refine congrArg (Option.getD · []) (congrArg (Option.map · _) (funext fun sig => ?_))
  rw [Function.comp_apply, paramList_rename, List.map_map]
  rfl

theorem wanted_iff (n : String) : p'.Wanted (c.name n) ↔ p.Wanted n := by
  unfold Program.Wanted
  rw [h.signatures]
  simp [map_eq_some_iff, isWanted_rename]

/-- The first of two alike programs is alike to the second one, in the same order of the names. -/
theorem symm : AlikeDefinitions c.symm (fun n m => lt (c.name.symm n) (c.name.symm m)) p' p where
  signatures n' := by
    obtain ⟨n, rfl⟩ := c.name.surjective n'
    have hback : c.symm.name (c.name n) = n := c.name.symm_apply_apply n
    rw [hback, h.signatures, Option.map_map]
    have hid : rename c.symm ∘ rename c = id := funext (rename_rename_symm c)
    rw [hid, map_id_apply]
  identifiers n' := by
    obtain ⟨n, rfl⟩ := c.name.surjective n'
    have hback : c.symm.name (c.name n) = n := c.name.symm_apply_apply n
    have hbefore : (fun m' => p.Before lt n (c.name.symm m')) =
        p'.Before (fun n m => lt (c.name.symm n) (c.name.symm m)) (c.name n) := by
      funext m'
      obtain ⟨m, rfl⟩ := c.name.surjective m'
      simp only [Program.Before, c.name.symm_apply_apply, h.wanted_iff, c.name.injective.eq_iff]
    rw [hback, h.paramNames_eq, ← hbefore]
    exact optionRel_symm (fun _ _ hbody => hbody.symm (by simp)) (h.identifiers n)
  enum n' := by
    obtain ⟨n, rfl⟩ := c.name.surjective n'
    have hback : c.symm.enum (c.name n) = c.enum n := congrArg c.enum (c.name.symm_apply_apply n)
    rw [hback, h.enum, h.signatures]
    simp [map_eq_some_iff, rename]
  type n' hn' := by
    obtain ⟨n, rfl⟩ := c.name.surjective n'
    have hback : c.symm.enum (c.name n) = c.enum n := congrArg c.enum (c.name.symm_apply_apply n)
    have htype := h.type n (hback ▸ hn')
    change c.type.symm (c.name n) = c.name.symm (c.name n)
    rw [← htype, c.type.symm_apply_apply, htype, c.name.symm_apply_apply]

theorem grounded (hp : p.Grounded) : p'.Grounded := by
  have hsig : ∀ n' sig', p'.signatures.get? n' = some sig' → ∃ n sig, n' = c.name n ∧
      p.signatures.get? n = some sig ∧ sig' = sig.rename c := by
    intro n' sig' hsig'
    obtain ⟨n, rfl⟩ := c.name.surjective n'
    rw [h.signatures] at hsig'
    obtain ⟨sig, hsig, rfl⟩ := map_eq_some_iff.1 hsig'
    exact ⟨n, sig, rfl, hsig, rfl⟩
  refine ⟨fun n' sig' hget => ?_, fun n' sig' hget => ?_, fun n' sig' hget q' hq' => ?_,
    fun n' hn' => ?_⟩
  · obtain ⟨n, sig, rfl, hold, rfl⟩ := hsig n' sig' hget
    exact congrArg c.name (hp.keyed n sig hold)
  · obtain ⟨n, sig, rfl, hold, rfl⟩ := hsig n' sig' hget
    exact within_rename_symm (hp.ty n sig hold)
  · obtain ⟨n, sig, rfl, hold, rfl⟩ := hsig n' sig' hget
    rw [paramList_rename] at hq'
    obtain ⟨q, hq, rfl⟩ := List.mem_map.1 hq'
    exact within_rename_symm (hp.params n sig hold q hq)
  · obtain ⟨n, rfl⟩ := c.name.surjective n'
    exact (h.defines_iff n).2 (hp.defined n ((h.wanted_iff n).1 hn'))

theorem symm_parts (hparts : AlikeParts c p p') : AlikeParts c.symm p' p where
  actions n' := by
    obtain ⟨n, rfl⟩ := c.name.surjective n'
    have hback : c.symm.name (c.name n) = n := c.name.symm_apply_apply n
    rw [hback, h.paramNames_eq]
    exact optionRel_symm (fun _ _ => AlikeAction.symm) (hparts.actions n)
  entries := optionRel_symm (fun _ _ hes => hes.flip.imp fun _ _ => AlikeTop.symm) hparts.entries
  ticker := optionRel_symm (fun _ _ => AlikeTicker.symm) hparts.ticker
  display := optionRel_symm
    (fun _ _ hes => hes.flip.imp fun _ _ => alikeElement_symm) hparts.display

end AlikeDefinitions

end Symmetry

end Typing

end Diagram
