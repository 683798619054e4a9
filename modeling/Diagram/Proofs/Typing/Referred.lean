import Diagram.Proofs.Typing.Folded

/-!
# Types of references

A reference to a definition with a declared type has this type.  A reference to a constant becomes
its value, though, which was converted to the declared type, and a number is not converted to a
variant: there the reference is an integer.

Main statement: `Typing.ty_of_reference`.
-/

namespace Diagram

/-- A constant has the type that it is converted to, unless it is an integer and the type an
enumeration. -/
theorem Value.ty_convert {v : Value} {t : Ty} (h : v.ty.coercesTo t)
    (ht : t ≠ .unknown ∧ t ≠ .list .unknown) :
    (v.convert t).ty = t ∨ (∃ m, t = .user m) ∧ (v.convert t).ty = .int := by
  cases v with
  | list item items =>
    cases t with
    | list item' =>
      have hitem : item'.isUnknown = false := by
        cases item' <;> first | rfl | exact absurd rfl ht.2
      simp [convert, hitem, ty]
    | unknown => exact absurd rfl ht.1
    | _ => cases h
  | _ => cases t <;> simp_all [ty, convert, convert.convertNumber, number?, Ty.coercesTo]

namespace Typing

variable {p : Program} {n : String} {sig : Signature} {s s' : State}

/-- What a state in the course of an analysis has for a name with a declared type: the type, and a
value that was converted to it, if the definition has begun and is a constant by now. -/
structure State.Declares (s : State) (n : String) (sig : Signature) : Prop where
  signature : s.signatures.get? n = some sig
  value : s.hasBegun n = true → ∀ v, s.valueOf? n = some v →
    v.ty = sig.ty ∨ (∃ m, sig.ty = .user m) ∧ v.ty = .int

theorem declares_of_moves (hty : sig.ty ≠ .unknown ∧ sig.ty ≠ .list .unknown)
    (h : Moves s s') (hs : s.Declares n sig) : s'.Declares n sig := by
  cases h with
  | resolved hresolve =>
    have hknown : sig.ty.isUnknown = false := by
      cases hu : sig.ty <;> first | rfl | exact absurd hu hty.1
    have hhistory := history_of_resolve hresolve
    refine ⟨(grows_of_resolve hresolve).1.known n sig hs.signature hknown, fun hn v hv => ?_⟩
    cases hbegun : s.hasBegun n with
    | true =>
      refine hs.value hbegun v ?_
      rw [State.valueOf?, ← hhistory.progress.frozen n hbegun]
      exact hv
    | false =>
      -- What the step has begun it has finished, and converted to the declared type.
      obtain ⟨e, he, _, _, sig', _, body', _, -, hsig', -, -, hderives, haccept⟩ :=
        hhistory.analyzed n hbegun hn
      cases hs.signature.symm.trans hsig'
      obtain ⟨-, haccept⟩ := accept_eq_ok_iff.1 haccept
      rw [hknown] at haccept
      obtain ⟨hcoerces, rfl⟩ := haccept
      rw [State.valueOf?, he, Option.bind_some] at hv
      have hfits := hderives.fits
      unfold Expr.convertTo at hv
      split at hv
      · rename_i w hw
        cases hv
        exact Value.ty_convert (hfits w hw ▸ hcoerces) hty
      · rename_i hnone
        rw [hnone] at hv
        cases hv
  | @begun m _ body hbody hopen =>
    refine ⟨hs.signature, fun hn v hv => ?_⟩
    rw [contains_begin, Bool.or_eq_true, decide_eq_true_iff] at hn
    rcases hn with rfl | hn
    · -- A definition that is open is no constant yet.
      have hvalue : body.value? = some v := by simpa [State.valueOf?, begin, hbody] using hv
      cases body with
      | literal info w => cases hopen
      | _ => cases hvalue
    · exact hs.value hn v hv
  | noted => exact ⟨hs.signature, hs.value⟩

theorem declares_of_course (hsig : p.signatures.get? n = some sig)
    (hty : sig.ty ≠ .unknown ∧ sig.ty ≠ .list .unknown) (h : Course (start p) s) :
    s.Declares n sig := by
  induction h with
  | refl => exact ⟨hsig, nofun⟩
  | tail _ hstep ih => exact declares_of_moves hty hstep ih

/-- Wherever a reference to a value with a declared type is analyzed outside of local bindings, it
has this type, or it is a constant of an enumeration that was given as a number. -/
theorem ty_of_reference (hsig : p.signatures.get? n = some sig)
    (hkind : sig.declares ≠ .action ∧ sig.declares ≠ .enum) (hparams : sig.hasParams = false)
    (hty : sig.ty ≠ .unknown ∧ sig.ty ≠ .list .unknown) (hs : Course (start p) s)
    {r : String → Check Unit} (hr : ∀ n s, ∃ k, r n s = resolve n k s) {outer scope : Scope}
    (hfree : scope.Free n) {info : Info} {e : Expr}
    (h : infer r outer scope (.name info n) s = .ok e s') :
    e.ty = sig.ty ∨ sig.declares = .const ∧ (∃ m, sig.ty = .user m) ∧ e.ty = .int := by
  have hsig' := (declares_of_course hsig hty hs).signature
  cases infer_eq_ok_iff.1 h with
  | name hfinds =>
    cases hfinds with
    | bound hbound => exact absurd (hfree.1.symm.trans hbound) nofun
    | time _ htime hname => exact absurd ⟨htime, hname⟩ hfree.2
    | fixed _ hget hfixed =>
      cases hsig'.symm.trans hget
      unfold Signature.fixedTy? at hfixed
      split at hfixed
      · exact absurd ‹_› hkind.1
      · exact absurd ‹_› hkind.2
      · simp [hparams] at hfixed
    | value _ hget _ hasked =>
      cases hsig'.symm.trans hget
      have hmoved : Course (start p) s' ∧ (sig.declares = .const → s'.hasBegun n = true) := by
        cases hasks : sig.asks with
        | true =>
          rw [hasks] at hasked
          obtain ⟨k, hk⟩ := hr n s
          have hresolve : resolve n k s = .ok () s' := hk.symm.trans hasked
          exact ⟨hs.tail (.resolved hresolve), fun _ => (grows_of_resolve hresolve).2⟩
        | false =>
          rw [hasks] at hasked
          cases hasked
          refine ⟨hs, fun hconst => ?_⟩
          simp [Signature.asks, hconst] at hasks
      have hdeclares := declares_of_course hsig hty hmoved.1
      unfold State.reference
      split
      · rename_i v hv
        obtain ⟨hconst, hv⟩ := Option.ite_none_right_eq_some.1 hv
        have hconst : sig.declares = .const := of_decide_eq_true hconst
        exact (hdeclares.value (hmoved.2 hconst) v hv).imp_right fun h => ⟨hconst, h⟩
      · have hknown : s'.tyOf n = sig.ty := by simp [State.tyOf, hdeclares.signature]
        exact .inl hknown

/-- A number that is declared to be real is real wherever it is referred to. -/
theorem ty_of_reference_real :
    ∃ p sig e s', Program.parse (Token.ofText "const a: real = 1;") = .ok p ∧
      p.signatures.get? "a" = some sig ∧ sig.ty = .real ∧
      infer resolveAny .top .top (.name ⟨.unknown, .nowhere⟩ "a") (start p) = .ok e s' ∧
      e.ty = .real := by
  obtain ⟨p, hp, sig, hsig, hkind, hparams, hty, he⟩ :
      ∃ p, Program.parse (Token.ofText "const a: real = 1;") = .ok p ∧
        ∃ sig, p.signatures.get? "a" = some sig ∧
          (sig.declares ≠ .action ∧ sig.declares ≠ .enum) ∧ sig.hasParams = false ∧
          sig.ty = .real ∧ (EStateM.run' (infer resolveAny .top .top
            (.name ⟨.unknown, .nowhere⟩ "a")) (start p)).isSome = true := by
    decide +kernel
  cases hrun : infer resolveAny .top .top (.name ⟨.unknown, .nowhere⟩ "a") (start p) with
  | error d s' =>
    delta EStateM.run' EStateM.run at he
    rw [hrun] at he
    cases he
  | ok e s' =>
    refine ⟨p, sig, e, s', hp, hsig, hty, hrun, ?_⟩
    obtain hreal | ⟨-, ⟨m, hm⟩, -⟩ := ty_of_reference hsig hkind hparams (by simp [hty]) .refl
      (fun n s => ⟨s.identifiers.size, rfl⟩) ⟨rfl, by decide⟩ hrun
    · exact hreal.trans hty
    · cases hty.symm.trans hm

end Typing

/-- A number in the place of a variant: as a constant it stays a number wherever it is referred to,
and otherwise it has the declared type there. -/
theorem Program.ty_of_enum_reference :
    let tokens := Token.ofText ("enum Dir \x7b Up, Down \x7d const a: Dir = 1; let b = a; " ++
      "let u: Dir = 1; let v = u;")
    ∃ p q, Program.parse tokens = .ok p ∧ p.analyze.outcome = .ok q ∧
      (p.signatures.get? "a").map (·.ty) = some (.user "Dir") ∧
      (p.signatures.get? "u").map (·.ty) = some (.user "Dir") ∧
      (q.identifiers.get? "b").map Expr.ty = some .int ∧
      (q.identifiers.get? "v").map Expr.ty = some (.user "Dir") := by
  intro tokens
  simp only [exists_and_left]
  decide +kernel

end Diagram
