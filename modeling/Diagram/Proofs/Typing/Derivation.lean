import Diagram.Proofs.Typing.Sound

/-!
# Derivations

What inference can do, said once: a derivation leads from an expression and a state to the
analyzed expression and the state after it.  How a definition is analyzed that a name asks for
is a parameter, so that derivations of different analyses can be compared.  The steps of the
analysis are taken apart here into what derivations are made of.

Main statements: `bind_eq_ok_iff`, `lookup_eq_ok_iff`.
-/

namespace Diagram

/-- The type of the references to a name whose definition does not matter for them. -/
def Signature.fixedTy? (sig : Signature) (n : String) : Option Ty :=
  match sig.declares with
  | .action => some (.action n)
  | .enum => some (.user n)
  | _ => if sig.hasParams then some (.function n) else none

/-- Whether a reference to a name needs its definition to be analyzed. -/
def Signature.asks (sig : Signature) : Bool :=
  sig.ty.isUnknown || sig.declares = .const

/-- Whether a name stands for something at the top level. -/
def Scope.Free (scope : Scope) (n : String) : Prop :=
  scope.get? n = none ∧ ¬(scope.allowTime = true ∧ n = Expr.timeStepName)

/-- Whether an operation on a number of operands may stand at a place. -/
def Scope.Permits (scope : Scope) (op : Operation) (count : Nat) : Prop :=
  (op = .index → scope.allowIndex = true) ∧
    (op = .exclusiveRange ∨ op = .inclusiveRange → count < 4)

namespace Typing

namespace State

variable (s : State)

/-- The type of a top-level name as far as it is known. -/
def tyOf (n : String) : Ty :=
  ((s.signatures.get? n).map (·.ty)).getD .unknown

/-- The constant that a top-level name is defined as. -/
def valueOf? (n : String) : Option Value :=
  (s.identifiers.get? n).bind Expr.value?

/-- A reference to a top-level name without parameters, which is a constant or not. -/
def reference (isConst : Bool) (area : Area) (n : String) : Expr :=
  match if isConst then s.valueOf? n else none with
  | some v => .constant v area
  | none => .name ⟨s.tyOf n, area⟩ n

/-- The enumeration that the subject of a member access names. -/
def enum? (scope : Scope) (subject : Expr) : Option Signature :=
  match subject.name? with
  | none => none
  | some n =>
    if (scope.get? n).isSome then none else (s.signatures.get? n).filter (·.declares = .enum)

/-- The state after a call of a builtin, of which a computed value is worth telling. -/
def noted (b : Builtin) (v : Verdict) : State :=
  match v.value with
  | some w => { s with notes := .foldedCall b.name w :: s.notes }
  | none => s

end State

/-- What a call of a builtin amounts to, unless it is wrong. -/
def callVerdict? (b : Builtin) (args : List Expr) : Option Verdict :=
  match b.fold, args.mapM Expr.value? with
  | some fold, some values =>
    match fold.run values with
    | .ok (some v) => some ⟨b.result, some v⟩
    | _ => none
  | _, _ => some (.typed b.result)

/-- The type of the values of a conditional after one more value. -/
def mergeTy? (earlier : Option Ty) (t : Ty) : Option Ty :=
  match earlier with
  | none => some t
  | some u => (Ty.merge u t).toOption

/-- The type of a conditional with analyzed operands. -/
def branchesTy? (earlier : Option Ty) : List Expr → Option Ty
  | [] => some (earlier.getD .unknown)
  | [default] => mergeTy? earlier default.ty
  | condition :: value :: rest =>
    if condition.ty.coercesTo .bool then
      (mergeTy? earlier value.ty).bind fun t => branchesTy? (some t) rest
    else none

/-- What an operation amounts to whose operands are analyzed in the scope around it, unless it is
refused. -/
def settle? (op : Operation) (operands : List Expr) : Option Verdict :=
  match op, operands with
  | .not, [x] => if x.ty.coercesTo .bool then some (negation x) else none
  | .and, [x, y] | .or, [x, y] =>
    if x.ty.coercesTo .bool && y.ty.coercesTo .bool then some (connective op x y) else none
  | .conditional, es => (branchesTy? none es).map .typed
  | op, es => (verdict .nowhere op es).toOption

/-- Whether there is one argument for each parameter, which coerces to its type. -/
def Admits (params : List Param) (args : List Expr) : Prop :=
  List.Forall₂ (fun e (p : Param) => e.ty.coercesTo p.ty = true) args params

/-- How the definitions are analyzed that names ask for. -/
abbrev Resolution := String → State → State → Prop

/-- The analysis of a definition that may be asked for. -/
def Asked (R : Resolution) : Bool → Resolution
  | true => R
  | false => fun _ s s' => s' = s

/-- What a name becomes. -/
inductive Finds (R : Resolution) (scope : Scope) (area : Area) (n : String) (s : State) :
    Expr → State → Prop
  | bound {t} (hbound : scope.get? n = some t) : Finds R scope area n s (.name ⟨t, area⟩ n) s
  | time (hfree : scope.get? n = none) (htime : scope.allowTime = true)
      (hname : n = Expr.timeStepName) : Finds R scope area n s (.timeStep ⟨.real, area⟩) s
  | fixed {sig t} (hfree : scope.Free n) (hsig : s.signatures.get? n = some sig)
      (hfixed : sig.fixedTy? n = some t) : Finds R scope area n s (.name ⟨t, area⟩ n) s
  | value {sig s'} (hfree : scope.Free n) (hsig : s.signatures.get? n = some sig)
      (hfixed : sig.fixedTy? n = none) (hasked : Asked R sig.asks n s s') :
      Finds R scope area n s (s'.reference (sig.declares = .const) area n) s'

mutual

/-- What an expression becomes. -/
inductive Derives (R : Resolution) : Scope → Scope → Expr → State → Expr → State → Prop
  | literal {outer scope info v s} :
      Derives R outer scope (.literal info v) s (.constant v info.area) s
  | name {outer scope info n s e' s'} (hfinds : Finds R scope info.area n s e' s') :
      Derives R outer scope (.name info n) s e' s'
  | timeStep {outer scope info s} :
      Derives R outer scope (.timeStep info) s (.timeStep ⟨.real, info.area⟩) s
  | listMap {outer scope info body boundInfo n source s source' s₁ body' s₂ t}
      (hsource : Derives R outer outer source s source' s₁)
      (hlist : isList source'.ty || source'.ty.isUnknown)
      (hbody : Derives R outer (scope.bind n (itemTy source'.ty)) body s₁ body' s₂)
      (hty : (comprehensionTy body').toOption = some t) :
      Derives R outer scope (.operator info .listMap [body, .name boundInfo n, source]) s
        (.operator ⟨t, info.area⟩ .listMap
          [body', .name ⟨itemTy source'.ty, boundInfo.area⟩ n, source']) s₂
  | listFilter {outer scope info list condition s list' s₁ condition' s₂}
      (hlist : Derives R scope scope list s list' s₁)
      (hfilter : list'.isOp .listMap || (isList list'.ty || list'.ty.isUnknown))
      (hcondition : Derives R (scopeInside scope list') (scopeInside scope list') condition s₁
        condition' s₂)
      (hbool : (itemTy condition'.ty).coercesTo .bool) :
      Derives R outer scope (.operator info .listFilter [list, condition]) s
        (.operator ⟨list'.ty, info.area⟩ .listFilter [list', condition']) s₂
  | variant {outer scope info subject memberInfo m s sig v}
      (henum : s.enum? scope subject = some sig) (hvariant : variant? sig m = some v) :
      Derives R outer scope (.operator info .memberAccess [subject, .name memberInfo m]) s
        (.constant v info.area) s
  | member {outer scope info subject memberInfo m s subject' s' t}
      (henum : s.enum? scope subject = none)
      (hsubject : Derives R scope scope subject s subject' s')
      (hty : (memberTy .nowhere subject' m).toOption = some t) :
      Derives R outer scope (.operator info .memberAccess [subject, .name memberInfo m]) s
        (Verdict.expr ⟨spread t [subject'.ty], subject'.value?.bind (coordinate? m)⟩ info.area
          .memberAccess [subject', .name ⟨t, memberInfo.area⟩ m]) s'
  | builtIn {outer scope info nameInfo n b s} (hfind : Builtin.find? n = some b) :
      Derives R outer scope (.operator info .builtIn [.name nameInfo n]) s
        (builtinExpr info.area (.name nameInfo n) b) s
  | builtinCall {outer scope info calleeInfo nameInfo n b args s args' s' v}
      (hfind : Builtin.find? n = some b) (harity : b.checkArity args.length = .ok ())
      (hargs : DerivesAll R scope args s args' s') (hverdict : callVerdict? b args' = some v) :
      Derives R outer scope
        (.operator info .call (.operator calleeInfo .builtIn [.name nameInfo n] :: args)) s
        (v.expr info.area .call (builtinExpr calleeInfo.area (.name nameInfo n) b :: args'))
        (s'.noted b v)
  | call {outer scope info callee args s callee' s₁ n sig args' s₂ s₃}
      (hbuiltIn : callee.isOp .builtIn = false)
      (hcallee : Derives R scope scope callee s callee' s₁) (hty : callee'.ty = .function n)
      (hsig : s₁.signatures.get? n = some sig) (hargs : DerivesAll R scope args s₁ args' s₂)
      (hadmits : Admits sig.paramList args') (hasked : Asked R sig.ty.isUnknown n s₂ s₃) :
      Derives R outer scope (.operator info .call (callee :: args)) s
        (.operator ⟨s₃.tyOf n, info.area⟩ .call (callee' :: args')) s₃
  | actionCall {outer scope info calleeInfo n args s sig args' s'}
      (hfree : scope.get? n = none) (hsig : s.signatures.get? n = some sig)
      (haction : sig.declares = .action) (hargs : DerivesAll R scope args s args' s')
      (hadmits : Admits sig.paramList args') :
      Derives R outer scope (.operator info .actionCall (.name calleeInfo n :: args)) s
        (.operator ⟨.action sig.name, info.area⟩ .actionCall
          (.name ⟨.action sig.name, calleeInfo.area⟩ n :: args')) s'
  | operands {outer scope info op operands s operands' s' v}
      (hpermits : scope.Permits op operands.length)
      (hoperands : DerivesAll R scope operands s operands' s')
      (hverdict : settle? op operands' = some v) :
      Derives R outer scope (.operator info op operands) s (v.expr info.area op operands') s'
  | update {outer scope info targetInfo n value s sig s₁ value' s₂}
      (hfree : scope.get? n = none) (hsig : s.signatures.get? n = some sig)
      (hvar : sig.declares = .var) (hasked : R n s s₁)
      (hvalue : Derives R scope scope value s₁ value' s₂)
      (hcoerces : value'.ty.coercesTo (s₁.tyOf n)) :
      Derives R outer scope (.operator info .update [.name targetInfo n, value]) s
        (.operator ⟨.void, info.area⟩ .update [.name ⟨s₁.tyOf n, targetInfo.area⟩ n, value']) s₂
  | withBinding {outer scope info body bindings s bindings' s₁ body' s₂}
      (hbindings : DerivesBindings R scope true bindings s bindings' s₁)
      (hbody : Derives R (scopeWithBindings scope bindings') (scopeWithBindings scope bindings')
        body s₁ body' s₂) :
      Derives R outer scope (.operator info .withBinding [body, bindings]) s
        (.operator ⟨body'.ty, info.area⟩ .withBinding [body', bindings']) s₂

/-- What some expressions become, from left to right. -/
inductive DerivesAll (R : Resolution) : Scope → List Expr → State → List Expr → State → Prop
  | nil {scope s} : DerivesAll R scope [] s [] s
  | cons {scope e es s e' s₁ es' s₂} (hhead : Derives R scope scope e s e' s₁)
      (htail : DerivesAll R scope es s₁ es' s₂) :
      DerivesAll R scope (e :: es) s (e' :: es') s₂

/-- What the bindings behind a body become. -/
inductive DerivesBindings (R : Resolution) :
    Scope → Bool → Expr → State → Expr → State → Prop
  | both {scope chain info left right s left' s₁ right' s₂}
      (hleft : DerivesBindings R scope false left s left' s₁)
      (hright : DerivesBindings R scope chain right s₁ right' s₂) :
      DerivesBindings R scope chain (.operator info .withBinding [left, right]) s
        (.operator ⟨if chain then .void else info.ty, info.area⟩ .withBinding [left', right']) s₂
  | assignment {scope chain info targetInfo n value s value' s'}
      (hvalue : Derives R scope scope value s value' s') :
      DerivesBindings R scope chain (.operator info .assignment [.name targetInfo n, value]) s
        (.operator ⟨value'.ty, info.area⟩ .assignment
          [.name ⟨value'.ty, targetInfo.area⟩ n, value']) s'

end

theorem infer_name {r : String → Check Unit} {outer scope : Scope} {info : Info} {n : String} :
    infer r outer scope (.name info n) = lookup r scope info.area n := by
  rfl

section Steps

variable {α β : Type} {s s' : State} {f : α → Check β} {b : β} {a : α} {area : Area} {cause : Cause}
  {n : String}

theorem bind_eq_ok_iff {m : Check α} :
    (m >>= f) s = .ok b s' ↔ ∃ a s₁, m s = .ok a s₁ ∧ f a s₁ = .ok b s' := by
  cases hrun : m s with
  | ok a s₁ => simp [bind_of_ok hrun]
  | error e s₁ => simp [bind_of_error hrun]

theorem pure_eq_ok_iff {b : α} : (pure a : Check α) s = .ok b s' ↔ b = a ∧ s' = s := by
  change (EStateM.Result.ok a s : EStateM.Result Failure State α) = .ok b s' ↔ _
  simp [eq_comm]

theorem reject_ne_ok : ¬(reject area cause : Check α) s = .ok a s' := nofun

theorem defect_ne_ok {d : Defect} : ¬(defect d : Check α) s = .ok a s' := nofun

/-- A check that goes on unless it rejects. -/
theorem unless_eq_ok_iff {c : Prop} [Decidable c] {f : Unit → Check α} :
    (if c then reject area cause >>= f else f () : Check α) s = .ok a s' ↔
      ¬c ∧ f () s = .ok a s' := by
  by_cases hc : c
  · rw [if_pos hc]
    exact ⟨nofun, fun h => absurd hc h.1⟩
  · simp [hc]

theorem follow_eq_ok_iff {r : Ruling α} : follow r s = .ok a s' ↔ r = .ok a ∧ s' = s := by
  cases r with
  | ok b => simp [follow, pure_eq_ok_iff, eq_comm]
  | error e => exact ⟨nofun, nofun⟩

theorem follow_bind_eq_ok_iff {r : Ruling α} :
    (follow r >>= f) s = .ok b s' ↔ ∃ a, r = .ok a ∧ f a s = .ok b s' := by
  simp only [bind_eq_ok_iff, follow_eq_ok_iff, and_assoc, exists_and_left, exists_eq_left]

/-- A rule that is left out in one case. -/
theorem unless_follow_eq_ok_iff {c : Prop} [Decidable c] {r : Ruling Unit} {m : Check α} :
    (if c then m else follow r >>= fun _ => m) s = .ok a s' ↔
      (c ∨ r = .ok ()) ∧ m s = .ok a s' := by
  by_cases hc : c
  · simp [hc]
  · rw [if_neg hc, follow_bind_eq_ok_iff, or_iff_right hc]
    exact ⟨fun ⟨_, h⟩ => h, fun h => ⟨(), h⟩⟩

theorem signature?_bind {f : Option Signature → Check α} :
    (signature? n >>= f) s = f (s.signatures.get? n) s := rfl

theorem knownTy_bind {f : Ty → Check α} : (knownTy n >>= f) s = f (s.tyOf n) s := rfl

theorem definedValue?_bind {f : Option Value → Check α} :
    (definedValue? n >>= f) s = f (s.valueOf? n) s := rfl

end Steps

def Resolution.of (r : String → Check Unit) : Resolution :=
  fun n s s' => r n s = .ok () s'

section Parts

variable {α : Type} {r : String → Check Unit} {scope : Scope} {s s' : State} {n : String} {a : α}
  {area : Area} {e' : Expr} {sig : Signature}

/-- A definition that is analyzed only under a condition. -/
theorem when_eq_ok_iff {c : Prop} [Decidable c] {f : Unit → Check α} :
    (if c then r n >>= f else f () : Check α) s = .ok a s' ↔
      ∃ s₁, Asked (.of r) (decide c) n s s₁ ∧ f () s₁ = .ok a s' := by
  by_cases hc : c
  · rw [if_pos hc, bind_eq_ok_iff, decide_eq_true hc]
    exact ⟨fun ⟨_, s₁, h⟩ => ⟨s₁, h⟩, fun ⟨s₁, h⟩ => ⟨(), s₁, h⟩⟩
  · simp [hc, Asked]

theorem reference_eq_ok_iff {isConst : Prop} [Decidable isConst] :
    (if isConst then do
        if let some v ← definedValue? n then
          return .constant v area
        return .name ⟨← knownTy n, area⟩ n
      else do
        return .name ⟨← knownTy n, area⟩ n : Check Expr) s = .ok e' s' ↔
      e' = s.reference (decide isConst) area n ∧ s' = s := by
  have hknown : (do return .name ⟨← knownTy n, area⟩ n : Check Expr) s = .ok e' s' ↔
      e' = .name ⟨s.tyOf n, area⟩ n ∧ s' = s := pure_eq_ok_iff
  unfold State.reference
  by_cases hconst : isConst
  · rw [if_pos hconst, definedValue?_bind]
    cases hv : s.valueOf? n with
    | none => simpa [hconst] using hknown
    | some v => simpa [hconst] using pure_eq_ok_iff
  · simpa [hconst] using hknown

theorem lookup_of_free (hfree : scope.Free n) (hsig : s.signatures.get? n = some sig) :
    lookup r scope area n s = .ok e' s' ↔
      (∃ t, sig.fixedTy? n = some t ∧ e' = .name ⟨t, area⟩ n ∧ s' = s) ∨
        sig.fixedTy? n = none ∧ Asked (.of r) sig.asks n s s' ∧
          e' = s'.reference (sig.declares = .const) area n := by
  have htime : ¬(scope.allowTime && n = Expr.timeStepName) = true := by simpa using hfree.2
  unfold lookup Signature.fixedTy? Signature.asks
  simp only [hfree.1]
  rw [if_neg htime, signature?_bind, hsig]
  dsimp only
  -- What is declared matters three times, so all of them are decided at once.
  cases sig.declares with
  | action | enum => simp [pure_eq_ok_iff]
  | const | letValue | var | other =>
    by_cases hparams : sig.hasParams = true
    · simp [hparams, pure_eq_ok_iff]
    · rw [if_neg hparams, if_neg hparams, when_eq_ok_iff]
      refine (exists_congr fun s₁ => and_congr_right fun _ => reference_eq_ok_iff).trans ?_
      rw [Bool.decide_eq_true]
      constructor
      · rintro ⟨s₁, hasked, rfl, rfl⟩
        exact .inr ⟨rfl, hasked, rfl⟩
      · rintro (⟨t, h, -⟩ | ⟨-, hasked, rfl⟩)
        · cases h
        · exact ⟨s', hasked, rfl, rfl⟩

theorem lookup_eq_ok_iff :
    lookup r scope area n s = .ok e' s' ↔ Finds (.of r) scope area n s e' s' := by
  cases hbound : scope.get? n with
  | some t =>
    unfold lookup
    simp only [hbound, pure_eq_ok_iff]
    constructor
    · rintro ⟨rfl, rfl⟩
      exact .bound hbound
    · intro h
      cases h with
      | bound h | time h => simp_all
      | fixed h | value h => simp_all [Scope.Free]
  | none =>
    by_cases htime : scope.allowTime = true ∧ n = Expr.timeStepName
    · unfold lookup
      simp only [hbound]
      rw [if_pos (by simpa using htime), pure_eq_ok_iff]
      constructor
      · rintro ⟨rfl, rfl⟩
        exact .time hbound htime.1 htime.2
      · intro h
        cases h with
        | bound h | time h => simp_all
        | fixed h | value h => exact absurd htime h.2
    · have hfree : scope.Free n := ⟨hbound, htime⟩
      cases hsig : s.signatures.get? n with
      | none =>
        refine ⟨fun h => ?_, fun h => ?_⟩
        · unfold lookup at h
          simp only [hbound] at h
          rw [if_neg (by simpa using htime), signature?_bind, hsig] at h
          exact absurd h reject_ne_ok
        · cases h with
          | bound h | fixed h hsig' | value h hsig' => simp_all
          | time h h' h'' => exact absurd ⟨h', h''⟩ htime
      | some sig =>
        rw [lookup_of_free hfree hsig]
        constructor
        · rintro (⟨t, hfixed, rfl, rfl⟩ | ⟨hfixed, hasked, rfl⟩)
          · exact .fixed hfree hsig hfixed
          · exact .value hfree hsig hfixed hasked
        · intro h
          cases h with
          | bound h => simp_all
          | time h h' h'' => exact absurd ⟨h', h''⟩ htime
          | fixed h hsig' hfixed =>
            cases hsig.symm.trans hsig'
            exact .inl ⟨_, hfixed, rfl, rfl⟩
          | value h hsig' hfixed hasked =>
            cases hsig.symm.trans hsig'
            exact .inr ⟨hfixed, hasked, rfl⟩

theorem enumSignature?_bind {subject : Expr} {f : Option Signature → Check α} :
    (enumSignature? scope subject >>= f) s = f (s.enum? scope subject) s := by
  unfold enumSignature? State.enum?
  cases subject.name? with
  | none => rfl
  | some n =>
    by_cases hbound : (scope.get? n).isSome = true
    · simp only [if_pos hbound]
      rfl
    · simp only [if_neg hbound]
      rfl

theorem lookupBuiltin_bind_eq_ok_iff {e : Expr} {f : Builtin → Check α} :
    (lookupBuiltin area e >>= f) s = .ok a s' ↔
      ∃ info n b, e = .name info n ∧ Builtin.find? n = some b ∧ f b s = .ok a s' := by
  rw [bind_eq_ok_iff]
  unfold lookupBuiltin
  cases e with
  | name info n =>
    dsimp only [Expr.name?]
    cases hfind : Builtin.find? n with
    | none => simp [reject_ne_ok, hfind]
    | some b => simp [pure_eq_ok_iff, hfind]
  | _ => simp [Expr.name?, reject_ne_ok]

theorem builtinCall_eq_ok_iff {b : Builtin} {args : List Expr} {v : Verdict} :
    builtinCall area b args s = .ok v s' ↔ callVerdict? b args = some v ∧ s' = s.noted b v := by
  have htyped : (pure (.typed b.result) : Check Verdict) s = .ok v s' ↔
      some (.typed b.result) = some v ∧ s' = s.noted b v := by
    rw [pure_eq_ok_iff]
    constructor
    · rintro ⟨rfl, rfl⟩
      exact ⟨rfl, rfl⟩
    · rintro ⟨hv, rfl⟩
      cases hv
      exact ⟨rfl, rfl⟩
  unfold builtinCall callVerdict?
  cases b.fold with
  | none => exact htyped
  | some fold =>
    cases args.mapM Expr.value? with
    | none => exact htyped
    | some values =>
      dsimp only
      cases fold.run values with
      | error e => simp [reject_ne_ok]
      | ok v? =>
        cases v? with
        | none => simp [defect_ne_ok]
        | some w =>
          change (EStateM.Result.ok _ _ : EStateM.Result Failure State Verdict) = _ ↔ _
          simp only [EStateM.Result.ok.injEq, Option.some.injEq]
          constructor
          · rintro ⟨rfl, rfl⟩
            exact ⟨rfl, rfl⟩
          · rintro ⟨rfl, rfl⟩
            exact ⟨rfl, rfl⟩

theorem actionSignature_eq_ok_iff {callee : Expr} {count : Nat} :
    actionSignature scope callee count s = .ok sig s' ↔
      (∃ info n, callee = .name info n ∧ scope.get? n = none ∧ s.signatures.get? n = some sig ∧
        sig.declares = .action ∧ count = sig.paramList.length) ∧ s' = s := by
  unfold actionSignature
  cases callee with
  | name info n =>
    dsimp only [Expr.name?]
    rw [signature?_bind, unless_eq_ok_iff]
    cases hsig : s.signatures.get? n with
    | none => simp [reject_ne_ok, hsig]
    | some sig' =>
      rw [unless_eq_ok_iff, unless_eq_ok_iff, pure_eq_ok_iff]
      simp only [Option.isSome_iff_ne_none, not_not]
      constructor
      · rintro ⟨hfree, haction, hcount, rfl, rfl⟩
        exact ⟨⟨info, n, rfl, hfree, hsig, haction, hcount⟩, rfl⟩
      · rintro ⟨⟨info', n', heq, hfree, hsig', haction, hcount⟩, rfl⟩
        cases heq
        cases hsig.symm.trans hsig'
        exact ⟨hfree, haction, hcount, rfl, rfl⟩
  | _ => simp [Expr.name?, reject_ne_ok]

theorem updateTarget_eq_ok_iff {target target' : Expr} :
    updateTarget r scope target s = .ok target' s' ↔
      ∃ info n sig, target = .name info n ∧ scope.get? n = none ∧
        s.signatures.get? n = some sig ∧ sig.declares = .var ∧ Resolution.of r n s s' ∧
          target' = .name ⟨s'.tyOf n, info.area⟩ n := by
  unfold updateTarget
  cases target with
  | name info n =>
    dsimp only [Expr.name?]
    rw [unless_eq_ok_iff, signature?_bind]
    cases hsig : s.signatures.get? n with
    | none => simp [reject_ne_ok, hsig]
    | some sig =>
      rw [unless_eq_ok_iff, bind_eq_ok_iff]
      simp only [Option.isSome_iff_ne_none, not_not, knownTy_bind, pure_eq_ok_iff]
      constructor
      · rintro ⟨hfree, hvar, _, s₁, hasked, rfl, rfl⟩
        exact ⟨info, n, sig, rfl, hfree, hsig, hvar, hasked, rfl⟩
      · rintro ⟨info', n', sig', heq, hfree, hsig', hvar, hasked, rfl⟩
        cases heq
        cases hsig.symm.trans hsig'
        exact ⟨hfree, hvar, (), s', hasked, rfl, rfl⟩
  | _ => simp [Expr.name?, reject_ne_ok]

end Parts

section Rules

variable {e x y : Expr} {es : List Expr} {t : Ty} {u : Unit} {v : Verdict} {area : Area}
  {op : Operation} {w : Value}

theorem requireCoercion_eq_ok_iff : requireCoercion e t = .ok u ↔ e.ty.coercesTo t := by
  unfold requireCoercion
  split <;> simp_all [refuse]

theorem requireItemCoercion_eq_ok_iff :
    requireItemCoercion e t = .ok u ↔ (itemTy e.ty).coercesTo t := by
  unfold requireItemCoercion
  split <;> simp_all [refuse]

theorem requireList_eq_ok_iff {cause : Ty → Cause} :
    requireList e cause = .ok u ↔ (isList e.ty || e.ty.isUnknown) := by
  unfold requireList
  split <;> simp_all [refuse]

theorem requireFlat_eq_ok_iff : requireFlat e = .ok u ↔ isList e.ty = false := by
  unfold requireFlat
  split <;> simp_all [refuse]

/-- The verdict on an operation on two operands.  If one of them is a list, it is made item by item,
and otherwise it may be computed. -/
def itemwise (x y : Expr) (t : Ty) (f : Value → Value → Option Value) : Verdict :=
  if isList x.ty || isList y.ty then .typed (.list t) else ⟨t, do f (← x.value?) (← y.value?)⟩

variable {f : Value → Value → Option Value}

theorem ty_itemwise : (itemwise x y t f).ty = spread t [x.ty, y.ty] := by
  simp only [itemwise, spread, List.any_cons, List.any_nil, Bool.or_false]
  split <;> rfl

theorem of_value_itemwise (h : (itemwise x y t f).value = some w) :
    isList x.ty = false ∧ isList y.ty = false ∧ (itemwise x y t f).ty = t ∧
      ∃ a b, x.value? = some a ∧ y.value? = some b ∧ f a b = some w := by
  unfold itemwise at h ⊢
  split at h
  · cases h
  · obtain ⟨a, ha, h⟩ := Option.bind_eq_some_iff.1 h
    obtain ⟨b, hb, h⟩ := Option.bind_eq_some_iff.1 h
    simp_all

theorem itemwise_eq_iff : itemwise x y t f = v ↔
    (if isList x.ty || isList y.ty then .ok (.typed (.list t))
      else .ok ⟨t, do f (← x.value?) (← y.value?)⟩ : Ruling Verdict) = .ok v := by
  unfold itemwise
  split <;> simp

theorem point_eq_ok_iff : point area x y = .ok v ↔
    (itemTy x.ty).coercesTo .real ∧ (itemTy y.ty).coercesTo .real ∧
      ∃ t, Ty.pointType (itemTy x.ty) (itemTy y.ty) = .ok t ∧ itemwise x y t (fun a b =>
        return .ofVertex t ⟨a.number?.getD 0, b.number?.getD 0⟩) = v := by
  simp only [point, bind_ok_iff, requireItemCoercion_eq_ok_iff, exists_const, itemwise_eq_iff]
  cases Ty.pointType (itemTy x.ty) (itemTy y.ty) with
  | error m => simp
  | ok t => simp only [Except.ok.injEq, exists_eq_left', pure, Except.pure]

theorem arithmetic_eq_ok_iff : arithmetic area op x y = .ok v ↔
    ∃ t, arithmeticTy? op (itemTy x.ty) (itemTy y.ty) = some t ∧
      itemwise x y t (Value.arithmetic? op · · t) = v := by
  simp only [arithmetic, itemwise_eq_iff]
  cases arithmeticTy? op (itemTy x.ty) (itemTy y.ty) with
  | none => simp
  | some t => simp only [Option.some.injEq, exists_eq_left']

/-- Whether two types may be compared: an order asks for numbers, equality for types that merge. -/
def Comparable (op : Operation) (a b : Ty) : Prop :=
  if op = .equal || op = .notEqual then ∃ t, Ty.merge a b = .ok t
  else a.coercesTo .real = true ∧ b.coercesTo .real = true

theorem comparison_eq_ok_iff : comparison area op x y = .ok v ↔
    Comparable op (itemTy x.ty) (itemTy y.ty) ∧
      itemwise x y .bool (fun a b => do return .bool (← Value.compare? op a b)) = v := by
  simp only [comparison, Comparable, itemwise_eq_iff]
  split
  · cases Ty.merge (itemTy x.ty) (itemTy y.ty) with
    | error m => exact ⟨nofun, fun ⟨⟨_, h⟩, _⟩ => nomatch h⟩
    | ok t => exact ⟨fun h => ⟨⟨t, rfl⟩, h⟩, And.right⟩
  · simp only [bind_ok_iff, requireItemCoercion_eq_ok_iff, exists_const, and_assoc]
    rfl

theorem listFill_eq_ok_iff : listFill x y = .ok v ↔
    isList x.ty = false ∧ y.ty.coercesTo .int ∧ .typed (.list x.ty) = v := by
  simp only [listFill, bind_ok_iff, requireFlat_eq_ok_iff, requireCoercion_eq_ok_iff,
    exists_const, pure, Except.pure, Except.ok.injEq]

theorem index_eq_ok_iff : index x y = .ok v ↔
    (isList x.ty || x.ty.isUnknown) ∧ y.ty.coercesTo .int ∧ .typed (itemTy x.ty) = v := by
  simp only [index, bind_ok_iff, requireList_eq_ok_iff, requireCoercion_eq_ok_iff,
    exists_const, pure, Except.pure, Except.ok.injEq]

theorem range_eq_ok_iff : range es = .ok v ↔
    (∀ e ∈ es, e.ty.coercesTo .int) ∧ .typed (.list .int) = v := by
  have hforM : es.forM (requireCoercion · .int) = .ok () ↔ ∀ e ∈ es, e.ty.coercesTo .int = true := by
    induction es with
    | nil => simp [pure, Except.pure]
    | cons e es ih =>
      rw [List.forall_mem_cons, ← ih]
      exact bind_ok_iff.trans (by simp only [requireCoercion_eq_ok_iff, exists_const])
  simp only [range, bind_ok_iff, exists_const, hforM, pure, Except.pure, Except.ok.injEq]

theorem listLiteral_eq_ok_iff : listLiteral es = .ok v ↔
    ∃ t, listItemTy es = .ok t ∧ ⟨.list t, do
      let values ← es.mapM Expr.value?
      if t.isUnknown && !values.isEmpty then none
      else return .list t (Value.convertAll t values)⟩ = v := by
  simp only [listLiteral, bind_ok_iff, pure, Except.pure, Except.ok.injEq]

/-- The type of an operand with a sign: its own, or the numeric type of its items. -/
def signTy? (t : Ty) : Option Ty :=
  if (itemTy t).isUnknown || (itemTy t).isPoint then some t
  else if (itemTy t).isNumeric then
    some (((Ty.mergeNumeric (itemTy t) (itemTy t)).toOption.map (spread · [t])).getD t)
  else none

theorem sign_eq_ok_iff : sign op x = .ok v ↔
    ∃ t, signTy? x.ty = some t ∧ ⟨t, x.value?.bind (Value.signed? op)⟩ = v := by
  unfold sign signTy?
  dsimp only
  repeat' split
  all_goals simp [bind, Except.bind, pure, Except.pure, Except.toOption, refuse, *]

theorem mergeBranch_eq_ok_iff {earlier : Option Ty} :
    mergeBranch earlier e = .ok t ↔ mergeTy? earlier e.ty = some t := by
  unfold mergeBranch mergeTy?
  cases earlier with
  | none => simp
  | some u =>
    dsimp only
    cases Ty.merge u e.ty <;> simp [refuse, Except.toOption]

theorem memberTy_eq_ok_iff {m : String} :
    memberTy area e m = .ok t ↔ (memberTy .nowhere e m).toOption = some t := by
  unfold memberTy
  dsimp only
  split <;> simp [Except.toOption]

end Rules

theorem DerivesAll.length_eq {R : Resolution} {scope : Scope} {es es' : List Expr}
    {s s' : State} : DerivesAll R scope es s es' s' → es'.length = es.length
  | .nil => rfl
  | .cons _ htail => congrArg Nat.succ htail.length_eq

end Typing

end Diagram
