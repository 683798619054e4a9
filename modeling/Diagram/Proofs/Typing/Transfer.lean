import Diagram.Proofs.Typing.Grows

/-!
# Derivations with other notes

An analysis never looks at its notes.  So a derivation can be repeated from a state with other
notes, by a resolution that does the same on the way to its last state.

Main statement: `Derives.transfer`.
-/

namespace Diagram.Typing

/-- Whether two states differ in their notes only. -/
def Unnoted (s u : State) : Prop :=
  ∃ notes, u = { s with notes := notes }

theorem Unnoted.refl (s : State) : Unnoted s s := ⟨s.notes, rfl⟩

variable {s u : State}

theorem Unnoted.symm : Unnoted s u → Unnoted u s := by
  rintro ⟨notes, rfl⟩
  exact ⟨s.notes, rfl⟩

theorem Unnoted.trans {v : State} : Unnoted s u → Unnoted u v → Unnoted s v := by
  rintro ⟨notes, rfl⟩ ⟨notes', rfl⟩
  exact ⟨notes', rfl⟩

theorem Unnoted.tyOf_eq (h : Unnoted s u) (n : String) : u.tyOf n = s.tyOf n := by
  obtain ⟨notes, rfl⟩ := h
  rfl

theorem Unnoted.reference_eq (h : Unnoted s u) (isConst : Bool) (area : Area) (n : String) :
    u.reference isConst area n = s.reference isConst area n := by
  obtain ⟨notes, rfl⟩ := h
  rfl

/-- A resolution `R'` does what `R` does on the way to a last state, from states that are the same
in the sense of `E`. -/
structure Transfer (R R' : Resolution) (E G : State → State → Prop) (last : State) : Prop where
  carries : Carries R G
  same : ∀ {s u}, E s u → Unnoted s u
  noted : ∀ {s u}, E s u → ∀ b v, E (s.noted b v) (u.noted b v)
  asked : ∀ {n t t' u}, R n t t' → G t' last → E t u → ∃ u', R' n u u' ∧ E t' u'

section Transfers

variable {R R' : Resolution} {E G : State → State → Prop} {last : State}
  (hR : Transfer R R' E G last)

include hR

theorem Asked.transfer {b : Bool} {n : String} {s s' u : State}
    (h : Asked R b n s s') (hlast : G s' last) (hs : E s u) :
    ∃ u', Asked R' b n u u' ∧ E s' u' := by
  cases b with
  | true => exact hR.asked h hlast hs
  | false =>
    cases h
    exact ⟨u, rfl, hs⟩

theorem Finds.transfer {scope : Scope} {area : Area} {n : String}
    {e' : Expr} {s s' u : State} (h : Finds R scope area n s e' s') (hlast : G s' last)
    (hs : E s u) : ∃ u', Finds R' scope area n u e' u' ∧ E s' u' := by
  cases h with
  | bound hbound => exact ⟨u, .bound hbound, hs⟩
  | time hfree htime hname => exact ⟨u, .time hfree htime hname, hs⟩
  | fixed hfree hsig hfixed =>
    obtain ⟨notes, rfl⟩ := hR.same hs
    exact ⟨_, .fixed hfree hsig hfixed, hs⟩
  | value hfree hsig hfixed hasked =>
    obtain ⟨u', hasked', hs'⟩ := hasked.transfer hR hlast hs
    obtain ⟨notes, rfl⟩ := hR.same hs
    rw [← (hR.same hs').reference_eq]
    exact ⟨u', .value hfree hsig hfixed hasked', hs'⟩

mutual

/-- A derivation can be repeated with other notes, by a resolution that does what the first one
does on the way to a last state. -/
theorem Derives.transfer {outer scope e e' s s' u} :
    Derives R outer scope e s e' s' → G s' last → E s u →
      ∃ u', Derives R' outer scope e u e' u' ∧ E s' u'
  | .literal, _, hs => ⟨u, .literal, hs⟩
  | .timeStep, _, hs => ⟨u, .timeStep, hs⟩
  | .builtIn hfind, _, hs => ⟨u, .builtIn hfind, hs⟩
  | .name hfinds, hlast, hs => by
    obtain ⟨u', hfinds', hs'⟩ := hfinds.transfer hR hlast hs
    exact ⟨u', .name hfinds', hs'⟩
  | .listMap hsource hlist hbody hty, hlast, hs => by
    obtain ⟨u₁, hd₁, hs₁⟩ := hsource.transfer (hR.carries.trans (hbody.relates hR.carries) hlast) hs
    obtain ⟨u₂, hd₂, hs₂⟩ := hbody.transfer hlast hs₁
    exact ⟨u₂, .listMap hd₁ hlist hd₂ hty, hs₂⟩
  | .listFilter hlist hfilter hcondition hbool, hlast, hs => by
    obtain ⟨u₁, hd₁, hs₁⟩ :=
      hlist.transfer (hR.carries.trans (hcondition.relates hR.carries) hlast) hs
    obtain ⟨u₂, hd₂, hs₂⟩ := hcondition.transfer hlast hs₁
    exact ⟨u₂, .listFilter hd₁ hfilter hd₂ hbool, hs₂⟩
  | .variant henum hvariant, _, hs => by
    obtain ⟨notes, rfl⟩ := hR.same hs
    exact ⟨_, .variant henum hvariant, hs⟩
  | .member henum hsubject hty, hlast, hs => by
    obtain ⟨u₁, hd₁, hs₁⟩ := hsubject.transfer hlast hs
    obtain ⟨notes, rfl⟩ := hR.same hs
    exact ⟨u₁, .member henum hd₁ hty, hs₁⟩
  | .builtinCall hfind harity hargs hverdict, hlast, hs => by
    obtain ⟨u₁, hd₁, hs₁⟩ :=
      hargs.transfer (hR.carries.trans (State.relates_noted hR.carries _ _ _) hlast) hs
    exact ⟨_, .builtinCall hfind harity hd₁ hverdict, hR.noted hs₁ _ _⟩
  | .call hbuiltIn hcallee hty hsig hargs hadmits hasked, hlast, hs => by
    have hlast₂ := hR.carries.trans (hasked.relates hR.carries) hlast
    obtain ⟨u₁, hd₁, hs₁⟩ :=
      hcallee.transfer (hR.carries.trans (hargs.relates hR.carries) hlast₂) hs
    obtain ⟨u₂, hd₂, hs₂⟩ := hargs.transfer hlast₂ hs₁
    obtain ⟨u₃, hasked', hs₃⟩ := hasked.transfer hR hlast hs₂
    obtain ⟨notes₁, rfl⟩ := hR.same hs₁
    rw [← (hR.same hs₃).tyOf_eq]
    exact ⟨u₃, .call hbuiltIn hd₁ hty hsig hd₂ hadmits hasked', hs₃⟩
  | .actionCall hfree hsig haction hargs hadmits, hlast, hs => by
    obtain ⟨u₁, hd₁, hs₁⟩ := hargs.transfer hlast hs
    obtain ⟨notes, rfl⟩ := hR.same hs
    exact ⟨u₁, .actionCall hfree hsig haction hd₁ hadmits, hs₁⟩
  | .operands hpermits hoperands hverdict, hlast, hs => by
    obtain ⟨u₁, hd₁, hs₁⟩ := hoperands.transfer hlast hs
    exact ⟨u₁, .operands hpermits hd₁ hverdict, hs₁⟩
  | .update hfree hsig hvar hasked hvalue hcoerces, hlast, hs => by
    obtain ⟨u₁, hasked', hs₁⟩ :=
      hR.asked hasked (hR.carries.trans (hvalue.relates hR.carries) hlast) hs
    obtain ⟨u₂, hd₂, hs₂⟩ := hvalue.transfer hlast hs₁
    obtain ⟨notes, rfl⟩ := hR.same hs
    rw [← (hR.same hs₁).tyOf_eq] at hcoerces ⊢
    exact ⟨u₂, .update hfree hsig hvar hasked' hd₂ hcoerces, hs₂⟩
  | .withBinding hbindings hbody, hlast, hs => by
    obtain ⟨u₁, hd₁, hs₁⟩ :=
      hbindings.transfer (hR.carries.trans (hbody.relates hR.carries) hlast) hs
    obtain ⟨u₂, hd₂, hs₂⟩ := hbody.transfer hlast hs₁
    exact ⟨u₂, .withBinding hd₁ hd₂, hs₂⟩

theorem DerivesAll.transfer {scope es es' s s' u} :
    DerivesAll R scope es s es' s' → G s' last → E s u →
      ∃ u', DerivesAll R' scope es u es' u' ∧ E s' u'
  | .nil, _, hs => ⟨u, .nil, hs⟩
  | .cons hhead htail, hlast, hs => by
    obtain ⟨u₁, hd₁, hs₁⟩ := hhead.transfer (hR.carries.trans (htail.relates hR.carries) hlast) hs
    obtain ⟨u₂, hd₂, hs₂⟩ := htail.transfer hlast hs₁
    exact ⟨u₂, .cons hd₁ hd₂, hs₂⟩

theorem DerivesBindings.transfer {scope chain e e' s s' u} :
    DerivesBindings R scope chain e s e' s' → G s' last → E s u →
      ∃ u', DerivesBindings R' scope chain e u e' u' ∧ E s' u'
  | .both hleft hright, hlast, hs => by
    obtain ⟨u₁, hd₁, hs₁⟩ := hleft.transfer (hR.carries.trans (hright.relates hR.carries) hlast) hs
    obtain ⟨u₂, hd₂, hs₂⟩ := hright.transfer hlast hs₁
    exact ⟨u₂, .both hd₁ hd₂, hs₂⟩
  | .assignment hvalue, hlast, hs => by
    obtain ⟨u₁, hd₁, hs₁⟩ := hvalue.transfer hlast hs
    exact ⟨u₁, .assignment hd₁, hs₁⟩

end

end Transfers

end Diagram.Typing
