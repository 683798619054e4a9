import Diagram.Proofs.Typing.Ruled
import Diagram.Typing.Program

/-!
# Steps of an analysis

The state of an analysis stays consistent with the program that is analyzed: names keep their
signatures and definitions, and a definition whose analysis has not begun is still as it was
read.  A step of the analysis begins some definitions and finishes all that it begins, or it
fails at a place of the source.

Main statements: `outcome_bind`, `Concurs.bind`.
-/

namespace Diagram.Typing

/-- The number of definitions of a program whose analysis has not begun. -/
def pendingCount (p : Program) (s : State) : Nat :=
  (p.identifiers.names.filter fun n => !s.hasBegun n).length

/-- The definitions that have begun are some of the program, and none has begun twice. -/
structure Orderly (p : Program) (begun : Visits) : Prop where
  nodup : begun.Nodup
  defined : ∀ n ∈ begun, p.Defines n

/-- A state in the course of the analysis of a program that was read from some tokens, with at
most `k` definitions to begin. -/
structure Consistent (tokens : List Token) (p : Program) (k : Nat) (s : State) : Prop where
  names : s.identifiers.names = p.identifiers.names
  signed : ∀ n, p.signatures.contains n = true → s.signatures.contains n = true
  backed : ∀ n sig, s.signatures.get? n = some sig → sig.Backed p.Defines n
  raw : ∀ n e, s.identifiers.get? n = some e → s.hasBegun n = false → e.Shaped tokens
  constants : ∀ n e v, s.identifiers.get? n = some e → e.value? = some v → v.ty.Within p.Defines
  pending : pendingCount p s ≤ k
  orderly : Orderly p s.begun

/-- What a part of an analysis may change: it begins definitions, finishes those that it begins
and leaves the definitions alone that were begun before. -/
structure Advances (tokens : List Token) (p : Program) (s s' : State) : Prop where
  begun : ∀ n, s.hasBegun n = true → s'.hasBegun n = true
  frozen : ∀ n, s.hasBegun n = true → s'.identifiers.get? n = s.identifiers.get? n
  finished : ∀ n, s.hasBegun n = false → s'.hasBegun n = true →
    ∃ e, s'.identifiers.get? n = some e ∧ e.Analyzed tokens p.Defines

variable {tokens : List Token} {p : Program} {k : Nat}

theorem Advances.refl (s : State) : Advances tokens p s s where
  begun _ h := h
  frozen _ _ := rfl
  finished n h h' := by simp [h] at h'

theorem Advances.trans {s s' s'' : State} (h : Advances tokens p s s')
    (h' : Advances tokens p s' s'') : Advances tokens p s s'' where
  begun n hn := h'.begun n (h.begun n hn)
  frozen n hn := (h'.frozen n (h.begun n hn)).trans (h.frozen n hn)
  finished n hn hn'' := by
    -- What the first part has finished, the second leaves alone.
    cases hn' : s'.hasBegun n with
    | true => rw [h'.frozen n hn']; exact h.finished n hn hn'
    | false => exact h'.finished n hn' hn''

namespace Consistent

variable {s : State} (h : Consistent tokens p k s)

include h

variable {n : String}

theorem defined (hn : p.Defines n) : ∃ e, s.identifiers.get? n = some e := by
  have hmem : n ∈ s.identifiers.names := h.names ▸ NameMap.mem_names_iff.2 hn
  exact NameMap.contains_eq_true_iff.1 (NameMap.mem_names_iff.1 hmem)

theorem signature (hn : p.signatures.contains n) : ∃ sig, s.signatures.get? n = some sig :=
  NameMap.contains_eq_true_iff.1 (h.signed n hn)

theorem mono {k' : Nat} (hk : k ≤ k') : Consistent tokens p k' s :=
  { h with pending := Nat.le_trans h.pending hk }

end Consistent

section Outcomes

variable {α β : Type}

/-- How a part of an analysis may end that starts from a state: with a result that satisfies `Q`
in a consistent state, or with a failure that has a place, where still nothing has begun twice. -/
def Outcome (tokens : List Token) (p : Program) (k : Nat) (s : State) (Q : α → State → Prop) :
    EStateM.Result Failure State α → Prop
  | .ok a s' => Consistent tokens p k s' ∧ Advances tokens p s s' ∧ Q a s'
  | .error e s' => e.Located tokens ∧ Orderly p s'.begun

/-- Two ways to make a part of an analysis that do the same in consistent states.  They keep states
consistent, give what satisfies `Q`, and fail only with a place. -/
def Concurs (tokens : List Token) (p : Program) (k : Nat) (m m' : Check α) (Q : α → Prop) : Prop :=
  ∀ s, Consistent tokens p k s → m' s = m s ∧ Outcome tokens p k s (fun a _ => Q a) (m s)

/-- A part of an analysis that keeps states consistent, gives what satisfies `Q`, and fails only
with a place. -/
abbrev Sound (tokens : List Token) (p : Program) (k : Nat) (m : Check α) (Q : α → Prop) : Prop :=
  Concurs tokens p k m m Q

variable {m m' : Check α} {f f' : α → Check β} {s s' : State} {a : α} {e : Failure} {Q : α → Prop}
  {r : EStateM.Result Failure State α} {area : Area} {cause : Cause} {b : Prop}

/-- An analysis goes on with what its first part gives. -/
theorem bind_of_ok (h : m s = .ok a s') : (m >>= f) s = f a s' := by
  change EStateM.bind m f s = f a s'
  simp [EStateM.bind, h]

theorem bind_of_error (h : m s = .error e s') : (m >>= f) s = .error e s' := by
  change EStateM.bind m f s = .error e s'
  simp [EStateM.bind, h]

theorem Outcome.mono {Q R : α → State → Prop} (h : Outcome tokens p k s Q r)
    (hQR : ∀ a s', Q a s' → R a s') : Outcome tokens p k s R r := by
  cases r with
  | ok a s' => exact ⟨h.1, h.2.1, hQR a s' h.2.2⟩
  | error e s' => exact h

/-- A part of an analysis that succeeds ends in a consistent state that it advanced to. -/
theorem Outcome.reached {Q : α → State → Prop} (h : Outcome tokens p k s Q r) :
    Outcome tokens p k s
      (fun a s' => Q a s' ∧ Consistent tokens p k s' ∧ Advances tokens p s s') r := by
  cases r with
  | ok a s' => exact ⟨h.1, h.2.1, h.2.2, h.1, h.2.1⟩
  | error e s' => exact h

theorem outcome_bind {Q : α → State → Prop} {R : β → State → Prop}
    (hm : Outcome tokens p k s Q (m s))
    (hf : ∀ a s', Consistent tokens p k s' → Advances tokens p s s' → Q a s' →
      Outcome tokens p k s' R (f a s')) : Outcome tokens p k s R ((m >>= f) s) := by
  cases hrun : m s with
  | error e s' =>
    rw [bind_of_error hrun]
    rw [hrun] at hm
    exact hm
  | ok a s' =>
    rw [bind_of_ok hrun]
    rw [hrun] at hm
    obtain ⟨hs', hadvance, ha⟩ := hm
    have hsecond := hf a s' hs' hadvance ha
    cases hrun' : f a s' with
    | error e s'' =>
      rw [hrun'] at hsecond
      exact hsecond
    | ok b s'' =>
      rw [hrun'] at hsecond
      exact ⟨hsecond.1, hadvance.trans hsecond.2.1, hsecond.2.2⟩

protected theorem Concurs.bind {R : β → Prop} (hm : Concurs tokens p k m m' Q)
    (hf : ∀ a, Q a → Concurs tokens p k (f a) (f' a) R) :
    Concurs tokens p k (m >>= f) (m' >>= f') R := by
  intro s hs
  obtain ⟨hsame, hrun⟩ := hm s hs
  refine ⟨?_, outcome_bind hrun fun a s' hs' _ ha => (hf a ha s' hs').2⟩
  cases hresult : m s with
  | error e s' => rw [bind_of_error hresult, bind_of_error (hsame.trans hresult)]
  | ok a s' =>
    rw [hresult] at hrun
    rw [bind_of_ok hresult, bind_of_ok (hsame.trans hresult)]
    exact (hf a hrun.2.2 s' hrun.1).1

protected theorem Concurs.pure (h : Q a) : Sound tokens p k (pure a) Q :=
  fun s hs => ⟨rfl, hs, .refl s, h⟩

protected theorem Concurs.throw (h : e.Located tokens) : Sound tokens p k (throw e : Check α) Q :=
  fun _ hs => ⟨rfl, h, hs.orderly⟩

protected theorem Concurs.reject (h : area.Among tokens) :
    Sound tokens p k (reject area cause : Check α) Q :=
  .throw h

protected theorem Concurs.ite [Decidable b] {n n' : Check α} (hm : b → Concurs tokens p k m m' Q)
    (hn : ¬b → Concurs tokens p k n n' Q) :
    Concurs tokens p k (if b then m else n) (if b then m' else n') Q := by
  by_cases h : b
  · rw [if_pos h, if_pos h]
    exact hm h
  · rw [if_neg h, if_neg h]
    exact hn h

/-- A step that is only made under a condition. -/
protected theorem Concurs.when [Decidable b] {m m' : Check Unit} {f f' : Unit → Check α}
    (hm : b → Concurs tokens p k m m' fun _ => True)
    (hf : ∀ u, Concurs tokens p k (f u) (f' u) Q) :
    Concurs tokens p k (if b then m >>= f else f ()) (if b then m' >>= f' else f' ()) Q :=
  .ite (fun h => .bind (hm h) fun u _ => hf u) fun _ => hf ()

/-- A check that goes on unless it rejects. -/
protected theorem Concurs.unless [Decidable b] {f f' : Unit → Check α} (h : area.Among tokens)
    (hf : ¬b → Concurs tokens p k (f ()) (f' ()) Q) :
    Concurs tokens p k (if b then reject area cause >>= f else f ())
      (if b then reject area cause >>= f' else f' ()) Q :=
  .ite (fun _ => .throw h) hf

protected theorem Concurs.follow {r : Ruling α} (h : Ruled (Area.Among tokens) r Q) :
    Sound tokens p k (follow r) Q := by
  cases r with
  | ok a => exact .pure h
  | error e => exact .throw h

theorem sound_mapM {as : List α} {Q : β → Prop} (h : ∀ a ∈ as, Sound tokens p k (f a) Q) :
    Sound tokens p k (as.mapM f) fun bs => bs.length = as.length ∧ ∀ b ∈ bs, Q b := by
  induction as with
  | nil => exact .pure (by simp)
  | cons a as ih =>
    obtain ⟨ha, has⟩ := List.forall_mem_cons.1 h
    rw [List.mapM_cons]
    refine .bind ha fun b hb => .bind (ih has) fun bs hbs => .pure ?_
    exact ⟨congrArg (· + 1) hbs.1, List.forall_mem_cons.2 ⟨hb, hbs.2⟩⟩

theorem sound_optionMapM {a? : Option α} {Q : β → Prop}
    (h : ∀ a, a? = some a → Sound tokens p k (f a) Q) :
    Sound tokens p k (a?.mapM f) fun b? => ∀ b, b? = some b → Q b := by
  cases a? with
  | none => exact .pure (by simp)
  | some a =>
    exact .bind (h a rfl) fun b hb => .pure fun _ heq => Option.some.inj heq ▸ hb

theorem sound_nameMapM {f : String → α → Check β} {m : NameMap α} {Q : β → Prop}
    (h : ∀ n a, m.get? n = some a → Sound tokens p k (f n a) Q) :
    Sound tokens p k (m.mapM f) fun m' =>
      ∀ n b, m'.get? n = some b → m.contains n ∧ Q b := by
  have hentry : ∀ e ∈ m.entries, Sound tokens p k (do return (e.1, ← f e.1 e.2)) fun e' =>
      m.contains e'.1 = true ∧ Q e'.2 := by
    rintro ⟨n, a⟩ he
    have hget := NameMap.get?_eq_some_iff.2 he
    refine .bind (h n a hget) fun b hb => .pure ⟨?_, hb⟩
    exact NameMap.contains_eq_true_iff.2 ⟨a, hget⟩
  refine .bind (sound_mapM hentry) fun entries hentries => .pure fun n b hget => ?_
  exact hentries.2 (n, b) (NameMap.mem_entries_ofList (NameMap.get?_eq_some_iff.1 hget))

theorem Concurs.mono {Q R : α → Prop} (h : Concurs tokens p k m m' Q) (hQR : ∀ a, Q a → R a) :
    Concurs tokens p k m m' R :=
  fun s hs => ⟨(h s hs).1, (h s hs).2.mono fun a _ => hQR a⟩

end Outcomes

section Lookups

theorem sound_tell (n : Note) : Sound tokens p k (tell n) fun _ => True :=
  fun s hs => ⟨rfl, { hs with }, { Advances.refl s with }, trivial⟩

theorem sound_signature? (name : String) :
    Sound tokens p k (signature? name) fun sig? =>
      ∀ sig, sig? = some sig → sig.Backed p.Defines name :=
  fun s hs => ⟨rfl, hs, .refl s, fun sig hsig => hs.backed name sig hsig⟩

theorem sound_signature?_of_contains {name : String}
    (hname : p.signatures.contains name) :
    Sound tokens p k (signature? name) fun sig? =>
      ∃ sig, sig? = some sig ∧ sig.Backed p.Defines name := by
  intro s hs
  obtain ⟨sig, hsig⟩ := hs.signature hname
  exact ⟨rfl, hs, .refl s, sig, hsig, hs.backed name sig hsig⟩

theorem sound_knownTy (name : String) : Sound tokens p k (knownTy name) (Ty.Within p.Defines) := by
  refine .bind (sound_signature? name) fun sig? hsig => .pure ?_
  cases sig? with
  | none => trivial
  | some sig => exact (hsig sig rfl).ty

theorem sound_definedValue? (name : String) :
    Sound tokens p k (definedValue? name) fun v? => ∀ v, v? = some v → v.ty.Within p.Defines := by
  refine fun s hs => ⟨rfl, hs, .refl s, fun v hv => ?_⟩
  obtain ⟨e, he, hvalue⟩ := Option.bind_eq_some_iff.1 hv
  exact hs.constants name e v he hvalue

/-- Two ways to analyze the definitions of a program that agree. -/
def Answers (tokens : List Token) (p : Program) (k : Nat) (r r' : String → Check Unit) : Prop :=
  ∀ n, p.Defines n → Concurs tokens p k (r n) (r' n) fun _ => True

variable {r r' : String → Check Unit} (hr : Answers tokens p k r r')
  {scope : Scope} (hscope : scope.Within p.Defines)

variable {area : Area} {n : String} {b : Builtin}

include hr hscope in
theorem sound_lookup (harea : area.Among tokens) (name : String) :
    Concurs tokens p k (lookup r scope area name) (lookup r' scope area name)
      (Expr.Analyzed tokens p.Defines) := by
  unfold lookup
  split
  · rename_i t ht
    exact .pure (.name harea (hscope name t ht))
  · refine .ite (fun _ => .pure (.timeStep harea trivial)) fun _ => ?_
    refine .bind (sound_signature? name) fun sig? hsig => ?_
    split
    · rename_i sig
      have hbacked := hsig sig rfl
      have hknown : Sound tokens p k (do
          let t ← knownTy name
          return .name ⟨t, area⟩ name) (Expr.Analyzed tokens p.Defines) :=
        .bind (sound_knownTy name) fun t ht => .pure (.name harea ht)
      split
      · exact .pure (.name harea (Ty.within_action _ name))
      · exact .pure (.name harea (Ty.within_user _ name))
      · rename_i haction henum
        have hname : p.Defines name := hbacked.defined haction henum
        refine .ite (fun _ => .pure (.name harea (Ty.within_function_iff.2 hname))) fun _ => ?_
        refine .when (fun _ => hr name hname) fun _ => ?_
        refine .ite (fun _ => ?_) fun _ => hknown
        refine .bind (sound_definedValue? name) fun v? hv => ?_
        split
        · exact .pure (.literal harea (hv _ rfl))
        · exact hknown
    · exact .reject harea

theorem length_of_mapM_eq_some {α β : Type} {f : α → Option β} {as : List α} {bs : List β}
    (h : as.mapM f = some bs) : bs.length = as.length := by
  induction as generalizing bs with
  | nil =>
    cases h
    rfl
  | cons a as ih =>
    rw [List.mapM_cons] at h
    obtain ⟨b, -, h⟩ := Option.bind_eq_some_iff.1 h
    obtain ⟨rest, hrest, h⟩ := Option.bind_eq_some_iff.1 h
    cases h
    simp [ih hrest]

theorem sound_lookupBuiltin (harea : area.Among tokens) {e : Expr} (he : e.area.Among tokens) :
    Sound tokens p k (lookupBuiltin area e) fun b =>
      ∃ info n, e = .name info n ∧ Builtin.find? n = some b := by
  unfold lookupBuiltin
  cases e with
  | name info n =>
    dsimp only [Expr.name?]
    cases hfind : Builtin.find? n with
    | none => exact .reject harea
    | some b => exact .pure ⟨info, n, rfl, hfind⟩
  | _ => exact .reject he

theorem analyzed_builtinExpr (harea : area.Among tokens) {info : Info}
    (hname : info.area.Among tokens) (hb : b.result.Within p.Defines) :
    (builtinExpr area (.name info n) b).Analyzed tokens p.Defines :=
  .operator harea hb (Operation.fits_of_takes rfl (by simp)) (by simpa using .name hname hb)

theorem sound_builtinCall (harea : area.Among tokens) (hfind : Builtin.find? n = some b)
    {args : List Expr} (hcount : b.checkArity args.length = .ok ()) :
    Sound tokens p k (builtinCall area b args) (Verdict.Within p.Defines) := by
  have hb : b.result.Within p.Defines := Builtin.over_result hfind
  unfold builtinCall
  split
  · rename_i fold values hfold hvalues
    split
    · exact .reject harea
    · rename_i hrun
      rw [← length_of_mapM_eq_some hvalues] at hcount
      exact absurd hrun (Builtin.run_ne_none hfind hfold hcount)
    · rename_i v hrun
      refine .bind (sound_tell _) fun _ _ => .pure ⟨hb, fun w hw => ?_⟩
      obtain rfl := Option.some.inj hw
      exact Value.over_of_isPlain (Builtin.isPlain_run hrun)
  · exact .pure (Verdict.plain_typed hb).over

theorem sound_actionSignature (scope : Scope) {callee : Expr} (hcallee : callee.area.Among tokens)
    (count : Nat) :
    Sound tokens p k (actionSignature scope callee count) fun sig =>
      (∃ info n, callee = .name info n) ∧ count = sig.paramList.length := by
  cases callee with
  | name info n =>
    refine .bind (sound_signature? n) fun sig? _ => ?_
    refine .unless hcallee fun _ => ?_
    split
    · refine .unless hcallee fun _ => ?_
      refine .unless hcallee fun hcount => ?_
      exact .pure ⟨⟨info, n, rfl⟩, not_not.1 hcount⟩
    · exact .reject hcallee
  | _ => exact .reject hcallee

include hr in
theorem sound_updateTarget (scope : Scope) {target : Expr} (htarget : target.area.Among tokens) :
    Concurs tokens p k (updateTarget r scope target) (updateTarget r' scope target)
      (Expr.Analyzed tokens p.Defines) := by
  unfold updateTarget
  cases target with
  | name info n =>
    refine .unless htarget fun _ => ?_
    refine .bind (sound_signature? n) fun sig? hsig => ?_
    split
    · rename_i sig
      refine .unless htarget fun hvar => ?_
      have hdeclares : sig.declares = .var := Decidable.not_not.1 hvar
      have hname : p.Defines n := by
        refine (hsig sig rfl).defined ?_ ?_ <;> simp [hdeclares]
      refine .bind (hr n hname) fun _ _ => ?_
      exact .bind (sound_knownTy n) fun t ht => .pure (.name htarget ht)
    · exact .reject htarget
  | _ => exact .reject htarget

theorem sound_enumSignature? (scope : Scope) (subject : Expr) :
    Sound tokens p k (enumSignature? scope subject) fun _ => True := by
  unfold enumSignature?
  split
  · exact .pure trivial
  · refine .ite (fun _ => .pure trivial) fun _ => ?_
    exact .bind (sound_signature? _) fun _ _ => .pure trivial

end Lookups

section Equations

variable {r : String → Check Unit} {outer scope : Scope} {info : Info} {op : Operation}
  {callee : Expr} {args operands : List Expr}

theorem infer_call (hbuiltIn : callee.isOp .builtIn = false) :
    infer r outer scope (.operator info .call (callee :: args)) = (do
      let callee' ← infer r scope scope callee
      let .function name := callee'.ty
        | reject callee'.area (.notCallable callee.text)
      let some sig ← signature? name
        | defect (.identifierWithoutSignature name)
      if args.length ≠ sig.paramList.length then
        reject info.area (.argumentCount sig args.length)
      let args ← inferArgs r scope (Cause.argument · sig) 1 sig.paramList args
      if sig.ty.isUnknown then r name
      return .operator ⟨← knownTy name, info.area⟩ .call (callee' :: args)) := by
  conv_lhs => unfold infer
  dsimp only
  split
  · rename_i heq
    cases heq
    simp [Expr.isOp] at hbuiltIn
  · rename_i heq
    cases heq
    rfl
  · rename_i heq
    cases heq

theorem infer_judged (hop : isJudged op) :
    infer r outer scope (.operator info op operands) = (do
      if op = .index && !scope.allowIndex then reject info.area .indexNotAllowed
      requireStarts op operands
      let operands ← inferAll r scope operands
      conclude info.area op operands) := by
  cases op <;> first | rfl | cases hop

end Equations

end Diagram.Typing
