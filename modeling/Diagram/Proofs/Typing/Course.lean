import Diagram.Proofs.Typing.Eliminated
import Diagram.Proofs.Typing.Grows
import Mathlib.Logic.Relation

/-!
# The course of an analysis

An analysis begins and finishes definitions, also while others are open.  Whatever is defined in
the end was derived from a state in the course of the analysis, as it stood in the program.

Main statements: `history_of_resolve`, `exists_ended`, `Ended.analyzed`.
-/

namespace Diagram.Typing

/-- A step in the course of an analysis: a definition is analyzed, or one is begun that is no
literal, or something is noted. -/
inductive Moves : State → State → Prop
  | resolved {n k s s'} (hresolve : resolve n k s = .ok () s') : Moves s s'
  | begun {n s body} (hbody : s.identifiers.get? n = some body) (hopen : body.isLiteral = false) :
      Moves s (begin s n)
  | noted {s notes} : Moves s { s with notes := notes }

variable {n m : String} {s s₁ s₂ s' : State} {k : Nat} {p q : Program} {e : Expr}

/-- A state is followed by another one in the course of an analysis. -/
abbrev Course : State → State → Prop :=
  Relation.ReflTransGen Moves

/-- A definition is derived in the course of an analysis and accepted. -/
def Analyzed (s : State) (n : String) (e : Expr) : Prop :=
  ∃ t k sig body body' t', Course s t ∧ s.signatures.get? n = some sig ∧
    s.identifiers.get? n = some body ∧ t.identifiers.get? n = some body ∧
    Derives (.of (resolve · k)) (bodyScope sig) (bodyScope sig) body (begin t n) body' t' ∧
    accept sig body' = .ok e

/-- What resolutions keep of the signatures, a course keeps. -/
theorem signatures_of_course {I : Signatures → Prop}
    (hI : ∀ {n k s s'}, resolve n k s = .ok () s' → I s.signatures → I s'.signatures)
    (h : Course s s') (hs : I s.signatures) : I s'.signatures := by
  induction h with
  | refl => exact hs
  | tail _ hstep ih =>
    cases hstep with
    | resolved hresolve => exact hI hresolve ih
    | begun | noted => exact ih

/-- What a part of an analysis begins is analyzed in its course, and all else stays as it is. -/
structure History (s s' : State) : Prop where
  course : Course s s'
  progress : Progress s s'
  unbegun : ∀ n, s'.hasBegun n = false → s'.signatures.get? n = s.signatures.get? n ∧
    s'.identifiers.get? n = s.identifiers.get? n
  analyzed : ∀ n, s.hasBegun n = false → s'.hasBegun n = true →
    ∃ e, s'.identifiers.get? n = some e ∧ Analyzed s n e

theorem Analyzed.of_course (h : Course s s₁) (hsig : s₁.signatures.get? n = s.signatures.get? n)
    (hbody : s₁.identifiers.get? n = s.identifiers.get? n) : Analyzed s₁ n e → Analyzed s n e
  | ⟨t, k, sig, body, body', t', ht, hsig₁, hbody₁, hrest⟩ =>
    ⟨t, k, sig, body, body', t', h.trans ht, hsig ▸ hsig₁, hbody ▸ hbody₁, hrest⟩

namespace History

theorem refl (s : State) : History s s :=
  ⟨.refl, .refl s, fun _ _ => ⟨rfl, rfl⟩, fun n h h' => by simp [h] at h'⟩

theorem trans (h : History s s₁) (h₁ : History s₁ s₂) : History s s₂ where
  course := h.course.trans h₁.course
  progress := h.progress.trans h₁.progress
  unbegun n hn₂ := by
    have hn₁ : s₁.hasBegun n = false := Bool.eq_false_iff.2 fun hn₁ => by
      simp [h₁.progress.begun n hn₁] at hn₂
    exact ⟨(h₁.unbegun n hn₂).1.trans (h.unbegun n hn₁).1,
      (h₁.unbegun n hn₂).2.trans (h.unbegun n hn₁).2⟩
  analyzed n hn hn₂ := by
    cases hn₁ : s₁.hasBegun n with
    | true =>
      -- What the first part has finished, the second leaves alone.
      rw [h₁.progress.frozen n hn₁]
      exact h.analyzed n hn hn₁
    | false =>
      obtain ⟨e, he, hanalyzed⟩ := h₁.analyzed n hn₁ hn₂
      obtain ⟨hsig, hbody⟩ := h.unbegun n hn₁
      exact ⟨e, he, hanalyzed.of_course h.course hsig hbody⟩

theorem noted (s : State) (notes : List Note) : History s { s with notes := notes } :=
  { History.refl s with course := .single .noted, progress := { Progress.refl s with } }

end History

theorem history_of_resolve (h : resolve n k s = .ok () s') : History s s' := by
  induction k generalizing n s s' with
  | zero =>
    obtain ⟨-, rfl⟩ := resolve_zero_eq_ok_iff.1 h
    exact .refl s'
  | succ k ih =>
    have hresolves := resolves_of_resolve h
    rcases resolve_succ_eq_ok_iff.1 h with
      ⟨-, rfl⟩ | ⟨hn, sig, body, body', e, s₁, hsig, hbody, hderives, haccept, rfl⟩
    · exact .refl s'
    have hcarries : Carries (.of (resolve · k)) History := ⟨.refl, .trans, .noted, ih⟩
    have hinner := hderives.relates hcarries
    refine ⟨.single (.resolved h), hresolves.progress, fun m hm => ?_, fun m hm hm' => ?_⟩
    · have hmn : m ≠ n := by
        rintro rfl
        simp [hresolves.begun] at hm
      rw [get?_signatures_record_of_ne hmn, get?_identifiers_record, if_neg hmn]
      exact hinner.unbegun m hm
    · rw [get?_identifiers_record]
      by_cases hmn : m = n
      · subst hmn
        exact ⟨e, if_pos rfl, s, k, sig, body, body', s₁, .refl, hsig, hbody, hbody, hderives,
          haccept⟩
      have hnew : (begin s n).hasBegun m = false := by simp [contains_begin, hm, hmn]
      rw [if_neg hmn]
      cases hliteral : body.isLiteral with
      | true =>
        -- A literal asks for nothing.
        cases body with
        | literal info v =>
          cases hderives with
          | literal => exact absurd (hnew.symm.trans hm') (by simp)
        | _ => cases hliteral
      | false =>
        obtain ⟨e', he', hanalyzed⟩ := hinner.analyzed m hnew hm'
        exact ⟨e', he', hanalyzed.of_course (.single (.begun hbody hliteral)) rfl rfl⟩

/-- A state at the end of the analysis of the definitions of a program. -/
structure Ended (p : Program) (s : State) : Prop where
  completed : Completed p s
  history : History (start p) s

theorem kept_ended (p : Program) : Kept (Ended p) where
  refl _ h := h
  trans h h' hs := h' (h hs)
  notes s notes hs :=
    ⟨(kept_completed p).notes s notes hs.completed, hs.history.trans (.noted s notes)⟩
  asked h hs := ⟨(kept_completed p).asked h hs.completed, hs.history.trans (history_of_resolve h)⟩

/-- The definitions of an analyzed program were analyzed in the course of the analysis. -/
theorem Ended.analyzed (h : Ended p s) (he : s.identifiers.get? n = some e) :
    Analyzed (start p) n e := by
  obtain ⟨e', he', hanalyzed⟩ := h.history.analyzed n rfl (h.completed.begun_of_get? he)
  cases he.symm.trans he'
  exact hanalyzed

/-- The other parts of an analyzed program were derived at the end of the analysis. -/
theorem exists_ended (h : p.analyze.outcome = .ok q) :
    ∃ s, Ended p s ∧ q.signatures = s.signatures ∧ q.identifiers = s.identifiers ∧
      p.Lift (Derived (Ended p) (.of resolveAny)) q := by
  obtain ⟨s', hrun⟩ := analyze_eq_ok_iff.1 h
  obtain ⟨s₁, hnames, hrest⟩ :=
    lift_of_inferProgram (kept_ended p) (fun s hs => hs.completed.reached.scopedBy) hrun
  obtain ⟨hreached, hbegun⟩ := progress_of_forM hnames
  have hcarries : Carries (.of resolveAny) History := ⟨.refl, .trans, .noted, history_of_resolve⟩
  exact ⟨s', hrest ⟨⟨hreached, hbegun⟩, relates_forM hcarries hnames⟩⟩

end Diagram.Typing
