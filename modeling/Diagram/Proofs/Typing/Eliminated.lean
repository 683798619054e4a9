import Diagram.Proofs.Program.Judged
import Diagram.Proofs.Typing.Constants
import Diagram.Proofs.Typing.Parts

/-!
# Constants of an analyzed program

In an analyzed program every constant and every variable is defined as a literal.  Every name that
is left is bound where it stands, or it is declared and is no constant.

Main statements: `scoped_of_analyze`, `Program.constants_eliminated`.
-/

namespace Diagram

open List Option

namespace Typing

variable {p q : Program}

def Reached (p : Program) (s : State) : Prop :=
  Progress (start p) s

theorem kept_reached (p : Program) : Kept (Reached p) where
  refl _ h := h
  trans h h' hs := h' (h hs)
  notes s _ h := h.trans { Progress.refl s with }
  asked h hs := hs.trans (resolves_of_resolve h).progress

variable {names : List String} {s s' : State} {n : String}

theorem progress_of_forM (h : names.forM resolveAny s = .ok () s') :
    Progress s s' ∧ ∀ n ∈ names, s'.hasBegun n := by
  induction names generalizing s with
  | nil =>
    obtain ⟨-, rfl⟩ := pure_eq_ok_iff.1 h
    exact ⟨.refl s', by simp⟩
  | cons n names ih =>
    obtain ⟨_, s₁, hfirst, hrest⟩ := bind_eq_ok_iff.1 h
    have hresolves : Resolves n s s₁ := resolves_of_resolve hfirst
    obtain ⟨hprogress, hbegun⟩ := ih hrest
    refine ⟨hresolves.progress.trans hprogress, forall_mem_cons.2 ⟨?_, hbegun⟩⟩
    exact hprogress.begun n hresolves.begun

/-- What all that an analysis does keeps, the analysis of some definitions keeps. -/
theorem Kept.forM {I : State → Prop} (hI : Kept I) (hs : I s)
    (h : names.forM resolveAny s = .ok () s') : I s' := by
  induction names generalizing s with
  | nil =>
    obtain ⟨-, rfl⟩ := pure_eq_ok_iff.1 h
    exact hs
  | cons n names ih =>
    obtain ⟨_, s₁, hfirst, hrest⟩ := bind_eq_ok_iff.1 h
    exact ih (hI.asked hfirst hs) hrest

/-- A name that may be left while a program is analyzed is declared and is no constant. -/
theorem Reached.not_constant (h : Reached p s) (hn : s.Leaves n) :
    ∃ sig, p.signatures.get? n = some sig ∧ sig.isConstant = false := by
  obtain ⟨sig, hsig, hopen⟩ := h.leaves hn
  exact ⟨sig, hsig, Bool.eq_false_iff.2 fun hconstant => nomatch (hopen hconstant).1⟩

section Parts

variable {D : String → Prop} {bound : List String} {E : Expr → Expr → Prop}

/-- The second of two related expressions is scoped. -/
def Scoping (D : String → Prop) (bound : List String) (E : Expr → Expr → Prop) : Prop :=
  ∀ ⦃e e'⦄, E e e' → e'.Scoped D bound bound

mutual

theorem scoped_of_lift (hE : Scoping D bound E) {a a' : Action} : a.Lift E a' → a'.Scoped D bound
  | .block has => .block (scoped_of_liftAll hE has)
  | .update h => by
    have hboth := Expr.scoped_of_inPlace rfl (hE h)
    exact .update (hboth _ (by simp)) (hboth _ (by simp))
  | .call h => by
    cases hE h with
    | actionCall hn hargs => exact .call hn hargs
    | inPlace hop => cases hop
  | .conditional harms =>
    .conditional (scoped_of_liftArms hE harms).1 (scoped_of_liftArms hE harms).2
  | .conditionalElse harms hd =>
    .conditionalElse (scoped_of_liftArms hE harms).1 (scoped_of_liftArms hE harms).2
      (scoped_of_lift hE hd)

theorem scoped_of_liftAll (hE : Scoping D bound E) {as as'} :
    Action.LiftAll E as as' → ∀ a ∈ as', a.Scoped D bound
  | .nil => nofun
  | .cons ha has => forall_mem_cons.2 ⟨scoped_of_lift hE ha, scoped_of_liftAll hE has⟩

theorem scoped_of_liftArms (hE : Scoping D bound E) {arms arms'} :
    Action.LiftArms E arms arms' →
      (∀ arm ∈ arms', arm.1.Scoped D bound bound) ∧ ∀ arm ∈ arms', arm.2.Scoped D bound
  | .nil => ⟨nofun, nofun⟩
  | .cons hc _ ha hrest =>
    ⟨forall_mem_cons.2 ⟨hE hc, (scoped_of_liftArms hE hrest).1⟩,
      forall_mem_cons.2 ⟨scoped_of_lift hE ha, (scoped_of_liftArms hE hrest).2⟩⟩

end

end Parts

theorem Reached.scopedBy (h : Reached p s) : s.ScopedBy p := by
  have hbare : bodyScope ∘ Signature.bare = bodyScope := rfl
  intro n
  have hstatic := congrArg (Option.map bodyScope) (h.static n)
  rw [Option.map_map, Option.map_map] at hstatic
  exact hstatic

/-- A state in the course of the analysis of a program in which all definitions have begun. -/
structure Completed (p : Program) (s : State) : Prop where
  reached : Reached p s
  begun : ∀ n ∈ p.identifiers.names, s.hasBegun n = true

theorem kept_completed (p : Program) : Kept (Completed p) where
  refl _ h := h
  trans h h' hs := h' (h hs)
  notes s notes hs := ⟨(kept_reached p).notes s notes hs.reached, hs.begun⟩
  asked h hs := ⟨(kept_reached p).asked h hs.reached,
    fun n hn => (resolves_of_resolve h).progress.begun n (hs.begun n hn)⟩

/-- The analysis of a program ends in a state in which all definitions have begun, and its other
parts are derived from such states. -/
theorem exists_completed (h : p.analyze.outcome = .ok q) :
    ∃ s, Completed p s ∧ q.signatures = s.signatures ∧ q.identifiers = s.identifiers ∧
      p.Lift (Derived (Completed p) (.of resolveAny)) q := by
  obtain ⟨s', hrun⟩ := analyze_eq_ok_iff.1 h
  obtain ⟨s₁, hnames, hrest⟩ :=
    lift_of_inferProgram (kept_completed p) (fun s hs => hs.reached.scopedBy) hrun
  obtain ⟨hreached, hbegun⟩ := progress_of_forM hnames
  exact ⟨s', hrest ⟨hreached, hbegun⟩⟩

/-- What an analysis leaves as it is: the names of a program, and what they are declared as but
for their types. -/
theorem names_of_analyze (h : p.analyze.outcome = .ok q) :
    q.identifiers.names = p.identifiers.names ∧ q.actions.names = p.actions.names ∧
      q.enums = p.enums ∧
      ∀ n, (q.signatures.get? n).map Signature.bare = (p.signatures.get? n).map Signature.bare := by
  obtain ⟨s, hs, hsignatures, hidentifiers, hlift⟩ := exists_completed h
  have hactions : q.actions.names = p.actions.names :=
    forall₂_eq_eq_eq ▸ forall₂_map_left_iff.2
      (forall₂_map_right_iff.2 (hlift.actions.flip.imp fun _ _ hentry => hentry.1))
  rw [hsignatures, hidentifiers]
  exact ⟨hs.reached.names, hactions, hlift.enums, hs.reached.static⟩

theorem Completed.begun_of_get? (h : Completed p s) {e : Expr} (he : s.identifiers.get? n = some e) :
    s.hasBegun n := by
  have hnames : s.identifiers.names = p.identifiers.names := h.reached.names
  refine h.begun n ?_
  rw [← hnames]
  exact NameMap.mem_names_iff.2 (NameMap.contains_eq_true_iff.2 ⟨e, he⟩)

/-- A definition of a completed state is finished, and nothing is open around it. -/
theorem Completed.finished {s : State} (h : Completed p s) {n : String} {e : Expr}
    (he : s.identifiers.get? n = some e) :
    ∃ sig, p.signatures.get? n = some sig ∧ Finished (start p) sig e := by
  obtain ⟨sig, e', hsig, he', hfinished⟩ := h.reached.finished n rfl (h.begun_of_get? he)
  cases he.symm.trans he'
  exact ⟨sig, hsig, hfinished⟩

theorem Reached.paramNames_eq (h : Reached p s) (hq : q.signatures = s.signatures) {sig : Signature}
    (hsig : p.signatures.get? n = some sig) : q.paramNames n = sig.paramNames := by
  have hstart : (start p).signatures.get? n = some sig := hsig
  have hstatic := h.static n
  rw [hstart, map_some, map_eq_some_iff] at hstatic
  obtain ⟨sig', hsig', hbare⟩ := hstatic
  unfold Program.paramNames
  rw [hq, hsig', ← sig.paramNames_bare, ← hbare]
  rfl

/-- Every name of an analyzed program is bound where it stands, or it is declared and is no
constant. -/
theorem scoped_of_analyze {D : String → Prop} (h : p.analyze.outcome = .ok q)
    (hD : ∀ n sig, p.signatures.get? n = some sig → sig.isConstant = false → D n) :
    q.Scoped D := by
  obtain ⟨s, hs, hsignatures, hidentifiers, hlift⟩ := exists_completed h
  have hparams : ∀ n sig, p.signatures.get? n = some sig → q.paramNames n = sig.paramNames :=
    fun n sig => hs.reached.paramNames_eq hsignatures
  have hleaves : ∀ {t}, Reached p t → ∀ n, t.Leaves n → D n := by
    intro t ht n hn
    obtain ⟨sig, hsig, hconstant⟩ := ht.not_constant hn
    exact hD n sig hsig hconstant
  have hexpr : ∀ {scope bound}, scope.Binds bound →
      Scoping D bound (Derived (Completed p) (.of resolveAny) scope) := by
    rintro scope bound hscope e e' ⟨t, t', ht, -, hderives⟩
    exact hderives.scoped resolves_of_resolve hscope hscope (hleaves ht.reached)
  have htop := hexpr Scope.binds_top
  refine ⟨fun n e he => ?_, fun n a ha => ?_, fun es hes e he => ?_, fun t e ht he => ?_,
    fun t ht => ?_, fun es hes e he x hx => ?_, fun es hes e he a ha => ?_⟩
  · rw [hidentifiers] at he
    obtain ⟨sig, hsig, hfinished⟩ := hs.finished he
    rw [hparams n sig hsig]
    exact hfinished.closed D (hleaves (.refl (start p)))
  · obtain ⟨⟨n', a₀⟩, -, rfl, sig, hsig, hlifted⟩ :=
      exists_of_forall₂ hlift.actions (NameMap.get?_eq_some_iff.1 ha)
    rw [hparams _ sig hsig]
    exact scoped_of_lift (hexpr (binds_bodyScope sig)) hlifted
  · obtain ⟨es₀, -, hforall⟩ := exists_of_optionRel hlift.entries hes
    obtain ⟨e₀, -, hderived⟩ := exists_of_forall₂ hforall he
    exact htop hderived
  · obtain ⟨t₀, -, hinterval, -⟩ := exists_of_optionRel hlift.ticker ht
    obtain ⟨e₀, -, hderived, -⟩ := exists_of_optionRel hinterval he
    exact htop hderived
  · obtain ⟨t₀, -, -, haction⟩ := exists_of_optionRel hlift.ticker ht
    have hticking : Scope.ticking.Binds [] := Scope.binds_top
    exact scoped_of_lift (hexpr hticking) haction
  · obtain ⟨es₀, -, hforall⟩ := exists_of_optionRel hlift.display hes
    obtain ⟨e₀, -, helement⟩ := exists_of_forall₂ hforall he
    obtain ⟨q', hq', hx⟩ := mem_filterMap.1 hx
    obtain ⟨q₀, -, y, y', -, rfl, hy⟩ := exists_of_forall₂ helement.quantities hq'
    cases hx
    exact htop hy
  · obtain ⟨es₀, -, hforall⟩ := exists_of_optionRel hlift.display hes
    obtain ⟨e₀, -, helement⟩ := exists_of_forall₂ hforall he
    obtain ⟨a₀, -, hclick⟩ := exists_of_optionRel helement.click ha
    exact scoped_of_lift htop hclick

end Typing

/-- In an analyzed program no reference to a constant without parameters is left, and every such
constant and every variable is defined as a literal. -/
theorem Program.constants_eliminated {tokens : List Token} {p q : Program}
    (hparse : Program.parse tokens = .ok p) (h : p.analyze.outcome = .ok q) :
    (∀ n ∈ q.references, ∀ sig, q.signatures.get? n = some sig → sig.isConstant = false) ∧
    ∀ n sig, q.signatures.get? n = some sig → sig.isConstant = true ∨ sig.declares = .var →
      ∃ e, q.identifiers.get? n = some e ∧ e.isLiteral = true := by
  obtain ⟨s, hs, hsignatures, hidentifiers, hlift⟩ := Typing.exists_completed h
  -- The signatures of the result are those of the program, but for their types.
  have hbare : ∀ n sig, q.signatures.get? n = some sig →
      ∃ sig₀, p.signatures.get? n = some sig₀ ∧ sig₀.bare = sig.bare := by
    intro n sig hsig
    rw [hsignatures] at hsig
    exact hs.reached.bare_of_get? hsig
  constructor
  · intro n hn sig hsig
    obtain ⟨sig₀, hsig₀, hbare₀⟩ := hbare n sig hsig
    have hscoped := Typing.scoped_of_analyze (D := fun n => ∃ sig, p.signatures.get? n = some sig ∧
      sig.isConstant = false) h fun n sig hsig hconstant => ⟨sig, hsig, hconstant⟩
    obtain ⟨sig₁, hsig₁, hconstant⟩ := hscoped.references n hn
    cases hsig₀.symm.trans hsig₁
    rw [← sig.isConstant_bare, ← hbare₀]
    exact hconstant
  · intro n sig hsig hkind
    obtain ⟨sig₀, hsig₀, hbare₀⟩ := hbare n sig hsig
    rw [← sig.isConstant_bare, ← sig.declares_bare, ← hbare₀] at hkind
    have hdefined : p.Defines n := by
      refine ((shaped_of_parse hparse).signatures n sig₀ hsig₀).defined ?_ ?_
      all_goals
        intro hdeclares
        simp [Signature.isConstant, Signature.bare, hdeclares] at hkind
    have hmem : n ∈ q.identifiers.names := by
      rw [hidentifiers, hs.reached.names]
      exact NameMap.mem_names_iff.2 hdefined
    obtain ⟨e, he⟩ := NameMap.contains_eq_true_iff.1 (NameMap.mem_names_iff.1 hmem)
    refine ⟨e, he, ?_⟩
    rw [hidentifiers] at he
    obtain ⟨sig₁, hsig₁, hfinished⟩ := hs.finished he
    cases hsig₀.symm.trans hsig₁
    exact hfinished.literal hkind

/-- The words `const c = 2; var v = c; public { c; v; }` on one line. -/
theorem Program.constants_eliminated_entry :
    let word (l : Lexeme) (start stop : Nat) : Token :=
      ⟨l, ⟨start, 1, start + 1⟩, ⟨stop, 1, stop + 1⟩⟩
    let tokens := [word (.keyword .constDecl) 0 5, word (.name "c") 6 7,
      word (.symbol .equal) 8 9, word (.int 2) 10 11, word (.symbol .semicolon) 11 12,
      word (.keyword .varDecl) 13 16, word (.name "v") 17 18, word (.symbol .equal) 19 20,
      word (.name "c") 21 22, word (.symbol .semicolon) 22 23,
      word (.keyword .publicBlock) 24 30, word (.symbol .curlyLeft) 31 32,
      word (.name "c") 33 34, word (.symbol .semicolon) 34 35,
      word (.name "v") 36 37, word (.symbol .semicolon) 37 38, word (.symbol .curlyRight) 39 40]
    ∃ p q, Program.parse tokens = .ok p ∧ p.analyze.outcome = .ok q ∧ q.references = ["v"] ∧
      (∀ n ∈ q.references, ∀ sig, q.signatures.get? n = some sig → sig.isConstant = false) ∧
      ∀ n sig, q.signatures.get? n = some sig → sig.isConstant = true ∨ sig.declares = .var →
        ∃ e, q.identifiers.get? n = some e ∧ e.isLiteral = true := by
  intro word tokens
  obtain ⟨p, hp, q, hq, hreferences⟩ : ∃ p, Program.parse tokens = .ok p ∧
      ∃ q, p.analyze.outcome = .ok q ∧ q.references = ["v"] := by decide +kernel
  exact ⟨p, q, hp, hq, hreferences, Program.constants_eliminated hp hq⟩

end Diagram
