import Diagram.Proofs.Typing.Constants

/-!
# Growth of the state of an analysis

An analysis leaves the signatures alone of what it has begun and of what has a type.

Main statement: `grows_of_resolve`.
-/

namespace Diagram.Typing

/-- A signature whose type is known stays as it is. -/
def Keeps (s s' : State) : Prop :=
  ∀ n sig, s.signatures.get? n = some sig → sig.ty.isUnknown = false →
    s'.signatures.get? n = some sig

/-- What a part of an analysis does to the state, as far as it leaves signatures alone. -/
structure Grows (s s' : State) : Prop where
  progress : Progress s s'
  known : Keeps s s'
  signatures : ∀ n, s.hasBegun n = true → s'.signatures.get? n = s.signatures.get? n

namespace Grows

variable {s s₁ s₂ : State}

theorem refl (s : State) : Grows s s :=
  ⟨.refl s, fun _ _ h _ => h, fun _ _ => rfl⟩

theorem trans (h : Grows s s₁) (h₁ : Grows s₁ s₂) : Grows s s₂ where
  progress := h.progress.trans h₁.progress
  known n sig hsig hknown := h₁.known n sig (h.known n sig hsig hknown) hknown
  signatures n hn := (h₁.signatures n (h.progress.begun n hn)).trans (h.signatures n hn)

theorem tyOf_eq (h : Grows s s₁) {n : String} (hn : s.hasBegun n) : s₁.tyOf n = s.tyOf n := by
  unfold State.tyOf
  rw [h.signatures n hn]

theorem valueOf?_eq (h : Grows s s₁) {n : String} (hn : s.hasBegun n) :
    s₁.valueOf? n = s.valueOf? n := by
  unfold State.valueOf?
  rw [h.progress.frozen n hn]

end Grows

section Definitions

variable {n : String} {s s₁ : State} {sig : Signature} {e : Expr}

theorem get?_signatures_record_of_ne {m : String} (h : m ≠ n) :
    (record s₁ n sig e).signatures.get? m = s₁.signatures.get? m := by
  unfold record
  split
  · rw [NameMap.get?_insert, if_neg h]
  · rfl

/-- A definition that is begun, derived and recorded makes the state grow. -/
theorem Grows.record (hbegun : s.hasBegun n = false)
    (hsig : s.signatures.get? n = some sig) (hgrows : Grows (begin s n) s₁)
    (hprogress : Progress s (record s₁ n sig e)) : Grows s (Typing.record s₁ n sig e) where
  progress := hprogress
  known m sig' hm hknown := by
    have hkept := hgrows.known m sig' hm hknown
    by_cases hmn : m = n
    · subst hmn
      cases hsig.symm.trans hm
      unfold Typing.record
      rw [hknown]
      exact hkept
    · rw [get?_signatures_record_of_ne hmn]
      exact hkept
  signatures m hm := by
    have hmn : m ≠ n := by
      rintro rfl
      simp [hbegun] at hm
    rw [get?_signatures_record_of_ne hmn]
    exact hgrows.signatures m (by simp [contains_begin, hm])

theorem carries_grows {R : Resolution} (hR : ∀ {n s s'}, R n s s' → Grows s s') :
    Carries R Grows where
  refl := .refl
  trans := .trans
  notes s _ := { Grows.refl s with progress := { Progress.refl s with } }
  asked := hR

/-- What the analysis of a name that is asked for does. -/
theorem grows_of_resolve {k : Nat} {s' : State} (h : resolve n k s = .ok () s') :
    Grows s s' ∧ s'.hasBegun n := by
  have hresolves := resolves_of_resolve h
  refine ⟨(resolve_induction (P := fun n s s' => Resolves n s s' ∧ Grows s s') ?_ ?_ h).2,
    hresolves.begun⟩
  · exact fun n s hn => ⟨⟨.refl s, hn, fun _ => .refl s⟩, .refl s⟩
  · intro R n s sig body body' e s₁ hR hn hsig hbody hderives haccept
    have hrecord := resolves_record (fun h => (hR _ _ _ h).1) hn hsig hbody hderives haccept
    have hgrows := hderives.relates (carries_grows fun h => (hR _ _ _ h).2)
    exact ⟨hrecord, .record hn hsig hgrows hrecord.progress⟩

theorem carries_keeps (k : Nat) : Carries (.of (resolve · k)) Keeps where
  refl _ := fun _ _ h _ => h
  trans h h' := fun n sig hsig hknown => h' n sig (h n sig hsig hknown) hknown
  notes _ _ := fun _ _ h _ => h
  asked h := (grows_of_resolve h).1.known

theorem grows_of_forM {names : List String} {s' : State}
    (h : names.forM resolveAny s = .ok () s') : Grows s s' :=
  relates_forM (carries_grows fun h => (grows_of_resolve h).1) h

end Definitions

end Diagram.Typing
