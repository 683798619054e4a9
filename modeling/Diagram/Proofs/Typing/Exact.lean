import Diagram.Proofs.Typing.Derivation
import Mathlib.Data.List.Induction

/-!
# Inference and derivations

Inference gives an expression and a state exactly where there is a derivation of them.  There is
one lemma for each form, in which the parts of the form are assumed to be inferred so.

Main statement: `infer_eq_ok_iff`.
-/

namespace Diagram.Typing

/-- Inference of an expression is as derivations say. -/
def Exact (r : String → Check Unit) (e : Expr) : Prop :=
  ∀ {outer scope : Scope} {s : State} {e' : Expr} {s' : State},
    infer r outer scope e s = .ok e' s' ↔ Derives (.of r) outer scope e s e' s'

/-- What follows a part that is inferred so starts from a derivation of the part. -/
theorem Exact.bind_iff {r : String → Check Unit} {e : Expr} (he : Exact r e) {α : Type}
    {f : Expr → Check α} {outer scope : Scope} {s s' : State} {a : α} :
    (infer r outer scope e >>= f) s = .ok a s' ↔
      ∃ e' s₁, Derives (.of r) outer scope e s e' s₁ ∧ f e' s₁ = .ok a s' := by
  rw [bind_eq_ok_iff]
  exact exists₂_congr fun e' s₁ => and_congr_left' he

section Lists

variable {r : String → Check Unit} {scope : Scope} {es : List Expr}
  (hes : ∀ e ∈ es, Exact r e) {s s' : State} {es' : List Expr}

include hes

theorem inferAll_eq_ok_iff :
    inferAll r scope es s = .ok es' s' ↔ DerivesAll (.of r) scope es s es' s' := by
  induction es generalizing s es' s' with
  | nil =>
    unfold inferAll
    rw [pure_eq_ok_iff]
    constructor
    · rintro ⟨rfl, rfl⟩
      exact .nil
    · rintro ⟨⟩
      exact ⟨rfl, rfl⟩
  | cons e es ih =>
    obtain ⟨he, hes⟩ := List.forall_mem_cons.1 hes
    unfold inferAll
    simp only [he.bind_iff, bind_eq_ok_iff, ih hes, pure_eq_ok_iff]
    constructor
    · rintro ⟨e', s₁, hhead, rest, s₂, htail, rfl, rfl⟩
      exact .cons hhead htail
    · rintro (_ | ⟨hhead, htail⟩)
      exact ⟨_, _, hhead, _, _, htail, rfl, rfl⟩

theorem inferArgs_eq_ok_iff {cause : Nat → Ty → Ty → Cause} {number : Nat} {params : List Param}
    (hcount : es.length = params.length) :
    inferArgs r scope cause number params es s = .ok es' s' ↔
      DerivesAll (.of r) scope es s es' s' ∧ Admits params es' := by
  induction es generalizing s es' s' number params with
  | nil =>
    obtain rfl := List.length_eq_zero_iff.1 hcount.symm
    unfold inferArgs
    rw [pure_eq_ok_iff]
    constructor
    · rintro ⟨rfl, rfl⟩
      exact ⟨.nil, .nil⟩
    · rintro ⟨⟨⟩, -⟩
      exact ⟨rfl, rfl⟩
  | cons e es ih =>
    obtain ⟨he, hes⟩ := List.forall_mem_cons.1 hes
    obtain ⟨p, ps, rfl⟩ := List.exists_cons_of_length_eq_add_one hcount.symm
    unfold inferArgs
    simp only [he.bind_iff, unless_eq_ok_iff, bind_eq_ok_iff, ih hes (Nat.succ.inj hcount),
      pure_eq_ok_iff]
    constructor
    · rintro ⟨e', s₁, hhead, hcoerces, rest, s₂, ⟨htail, hadmits⟩, rfl, rfl⟩
      exact ⟨.cons hhead htail, .cons (by simpa using hcoerces) hadmits⟩
    · rintro ⟨_ | ⟨hhead, htail⟩, _ | ⟨hcoerces, hadmits⟩⟩
      exact ⟨_, _, hhead, by simpa using hcoerces, _, _, ⟨htail, hadmits⟩, rfl, rfl⟩

/-- The operands of a conditional are inferred one after the other and have a common type. -/
theorem inferBranches_eq_ok_iff {earlier : Option Ty} {t : Ty} :
    inferBranches r scope earlier es s = .ok (es', t) s' ↔
      DerivesAll (.of r) scope es s es' s' ∧ branchesTy? earlier es' = some t := by
  induction es using List.twoStepInduction generalizing s es' earlier with
  | nil =>
    unfold inferBranches
    rw [pure_eq_ok_iff]
    constructor
    · rintro ⟨heq, rfl⟩
      cases heq
      exact ⟨.nil, rfl⟩
    · rintro ⟨⟨⟩, hty⟩
      cases hty
      exact ⟨rfl, rfl⟩
  | singleton default =>
    have hdefault : Exact r default := hes default (by simp)
    unfold inferBranches
    simp only [hdefault.bind_iff, follow_bind_eq_ok_iff, mergeBranch_eq_ok_iff, pure_eq_ok_iff]
    constructor
    · rintro ⟨e', s₁, hhead, u, hty, heq, rfl⟩
      cases heq
      exact ⟨.cons hhead .nil, hty⟩
    · rintro ⟨_ | ⟨hhead, ⟨⟩⟩, hty⟩
      exact ⟨_, _, hhead, t, hty, rfl, rfl⟩
  | cons_cons condition value rest ih _ =>
    have hcondition : Exact r condition := hes condition (by simp)
    have hvalue : Exact r value := hes value (by simp)
    have hrest : ∀ e ∈ rest, Exact r e := fun e he => hes e (by simp [he])
    unfold inferBranches
    simp only [hcondition.bind_iff, hvalue.bind_iff, follow_bind_eq_ok_iff, mergeBranch_eq_ok_iff,
      requireCoercion_eq_ok_iff]
    constructor
    · rintro ⟨c, s₁, hc, _, hbool, v, s₂, hv, t₁, hmerge, h⟩
      obtain ⟨⟨es₁, t₂⟩, s₃, hbranches, hpure⟩ := bind_eq_ok_iff.1 h
      obtain ⟨heq, rfl⟩ := pure_eq_ok_iff.1 hpure
      cases heq
      obtain ⟨hderives, hty⟩ := (ih hrest).1 hbranches
      refine ⟨.cons hc (.cons hv hderives), ?_⟩
      unfold branchesTy?
      rw [if_pos hbool, hmerge]
      exact hty
    · rintro ⟨_ | ⟨hc, _ | ⟨hv, hderives⟩⟩, hty⟩
      obtain ⟨hbool, hty⟩ := Option.ite_none_right_eq_some.1 hty
      obtain ⟨t₁, hmerge, hty⟩ := Option.bind_eq_some_iff.1 hty
      refine ⟨_, _, hc, (), hbool, _, _, hv, t₁, hmerge, ?_⟩
      exact bind_eq_ok_iff.2 ⟨_, _, (ih hrest).2 ⟨hderives, hty⟩, rfl⟩

end Lists

section Settled

variable {op : Operation} {operands : List Expr} {v : Verdict}

theorem verdict_eq_ok_iff (area : Area) :
    verdict area op operands = .ok v ↔ (verdict .nowhere op operands).toOption = some v := by
  rw [toOption_eq_some_iff]
  unfold verdict
  split
  all_goals simp only [mapError_ok_iff, point_eq_ok_iff, arithmetic_eq_ok_iff,
    comparison_eq_ok_iff, reduceCtorEq]

theorem conclude_eq_ok_iff {area : Area} {e : Expr} {s s' : State} :
    conclude area op operands s = .ok e s' ↔ ∃ v, (verdict .nowhere op operands).toOption = some v ∧
      e = v.expr area op operands ∧ s' = s := by
  simp only [conclude, ← verdict_eq_ok_iff area]
  cases verdict area op operands with
  | ok v => simp [pure_eq_ok_iff]
  | error e => exact ⟨nofun, nofun⟩

theorem settle?_of_judged (hop : isJudged op) (operands : List Expr) :
    settle? op operands = (verdict .nowhere op operands).toOption := by
  cases op <;> first | rfl | cases hop

theorem length_of_settle?_not (h : settle? .not operands = some v) : operands.length = 1 := by
  rcases operands with _ | ⟨_, _ | ⟨_, _⟩⟩
  case cons.nil => rfl
  all_goals nomatch h

theorem length_of_settle?_connective (hop : op = .and ∨ op = .or) (h : settle? op operands = some v) :
    operands.length = 2 := by
  rcases operands with _ | ⟨_, _ | ⟨_, _ | ⟨_, _⟩⟩⟩
  case cons.cons.nil => rfl
  all_goals rcases hop with rfl | rfl <;> nomatch h

end Settled

section Forms

variable {r : String → Check Unit} {info : Info} {body name callee target value x : Expr}
  {args operands : List Expr} {scope : Scope} {op : Operation}

theorem exact_listMap {bound source : Expr} (hbody : Exact r body) (hsource : Exact r source) :
    Exact r (.operator info .listMap [body, bound, source]) := by
  intro outer scope s e' s'
  unfold infer
  simp only [hsource.bind_iff]
  constructor
  · rintro ⟨source', s₁, hsource', h⟩
    cases bound with
    | name boundInfo n =>
      simp only [Expr.name?, hbody.bind_iff, follow_bind_eq_ok_iff, requireList_eq_ok_iff] at h
      obtain ⟨_, hlist, body', s₂, hbody', t, hty, ⟨⟩⟩ := h
      exact .listMap hsource' hlist hbody' (toOption_eq_some_iff.2 hty)
    | _ => exact absurd h reject_ne_ok
  · intro h
    cases h with
    | listMap hsource' hlist hbody' hty =>
      refine ⟨_, _, hsource', follow_bind_eq_ok_iff.2 ⟨(), requireList_eq_ok_iff.2 hlist, ?_⟩⟩
      refine hbody.bind_iff.2 ⟨_, _, hbody', follow_bind_eq_ok_iff.2 ⟨_, ?_, rfl⟩⟩
      exact toOption_eq_some_iff.1 hty
    | operands _ _ hverdict => cases hverdict

theorem exact_listFilter {list condition : Expr} (hlist : Exact r list)
    (hcondition : Exact r condition) :
    Exact r (.operator info .listFilter [list, condition]) := by
  intro outer scope s e' s'
  unfold infer
  simp only [hlist.bind_iff, unless_follow_eq_ok_iff, requireList_eq_ok_iff, hcondition.bind_iff,
    follow_bind_eq_ok_iff, requireItemCoercion_eq_ok_iff, pure_eq_ok_iff]
  constructor
  · rintro ⟨list', s₁, hlist', hfilter, condition', s₂, hcondition', _, hbool, rfl, rfl⟩
    exact .listFilter hlist' (Bool.or_eq_true_iff.2 hfilter) hcondition' hbool
  · intro h
    cases h with
    | listFilter hlist' hfilter hcondition' hbool =>
      exact ⟨_, _, hlist', Bool.or_eq_true_iff.1 hfilter, _, _, hcondition', (), hbool, rfl, rfl⟩
    | operands _ _ hverdict => cases hverdict

theorem exact_memberAccess {subject member : Expr} (hsubject : Exact r subject) :
    Exact r (.operator info .memberAccess [subject, member]) := by
  intro outer scope s e' s'
  unfold infer
  cases member with
  | name memberInfo m =>
    dsimp only [Expr.name?]
    rw [enumSignature?_bind]
    cases henum : s.enum? scope subject with
    | some sig =>
      dsimp only
      cases hvariant : variant? sig m with
      | some v =>
        rw [pure_eq_ok_iff]
        constructor
        · rintro ⟨rfl, rfl⟩
          exact .variant henum hvariant
        · intro h
          cases h with
          | variant henum' hvariant' =>
            cases henum.symm.trans henum'
            cases hvariant.symm.trans hvariant'
            exact ⟨rfl, rfl⟩
          | member henum' => cases henum.symm.trans henum'
          | operands _ _ hverdict => cases hverdict
      | none =>
        refine ⟨fun h => absurd h reject_ne_ok, fun h => ?_⟩
        cases h with
        | variant henum' hvariant' =>
          cases henum.symm.trans henum'
          cases hvariant.symm.trans hvariant'
        | member henum' => cases henum.symm.trans henum'
        | operands _ _ hverdict => cases hverdict
    | none =>
      simp only [hsubject.bind_iff, follow_bind_eq_ok_iff, memberTy_eq_ok_iff, pure_eq_ok_iff]
      constructor
      · rintro ⟨subject', s₁, hsubject', t, hty, rfl, rfl⟩
        exact .member henum hsubject' hty
      · intro h
        cases h with
        | variant henum' => cases henum.symm.trans henum'
        | member _ hsubject' hty => exact ⟨_, _, hsubject', _, hty, rfl, rfl⟩
        | operands _ _ hverdict => cases hverdict
  | _ =>
    refine ⟨fun h => absurd h reject_ne_ok, fun h => ?_⟩
    cases h with
    | operands _ _ hverdict => cases hverdict

theorem exact_builtIn : Exact r (.operator info .builtIn [name]) := by
  intro outer scope s e' s'
  unfold infer
  rw [lookupBuiltin_bind_eq_ok_iff]
  constructor
  · rintro ⟨nameInfo, n, b, rfl, hfind, h⟩
    obtain ⟨rfl, rfl⟩ := pure_eq_ok_iff.1 h
    exact .builtIn hfind
  · intro h
    cases h with
    | builtIn hfind => exact ⟨_, _, _, rfl, hfind, rfl⟩
    | operands _ _ hverdict => cases hverdict

theorem exact_builtinCall {calleeInfo : Info} (hargs : ∀ e ∈ args, Exact r e) :
    Exact r (.operator info .call (.operator calleeInfo .builtIn [name] :: args)) := by
  intro outer scope s e' s'
  unfold infer
  rw [lookupBuiltin_bind_eq_ok_iff]
  constructor
  · rintro ⟨nameInfo, n, b, rfl, hfind, h⟩
    cases harity : b.checkArity args.length with
    | error e =>
      rw [harity] at h
      exact absurd h reject_ne_ok
    | ok _ =>
      rw [harity] at h
      simp only [bind_eq_ok_iff, inferAll_eq_ok_iff hargs, builtinCall_eq_ok_iff] at h
      obtain ⟨args', s₁, hargs', v, s₂, ⟨hverdict, rfl⟩, ⟨⟩⟩ := h
      exact .builtinCall hfind harity hargs' hverdict
  · intro h
    cases h with
    | builtinCall hfind harity hargs' hverdict =>
      refine ⟨_, _, _, rfl, hfind, ?_⟩
      rw [harity]
      refine bind_eq_ok_iff.2 ⟨_, _, (inferAll_eq_ok_iff hargs).2 hargs', ?_⟩
      exact bind_eq_ok_iff.2 ⟨_, _, builtinCall_eq_ok_iff.2 ⟨hverdict, rfl⟩, rfl⟩
    | call hbuiltIn | operands _ _ hbuiltIn => cases hbuiltIn

theorem exact_call (hcallee : Exact r callee) (hargs : ∀ e ∈ args, Exact r e)
    (hbuiltIn : callee.isOp .builtIn = false) :
    Exact r (.operator info .call (callee :: args)) := by
  intro outer scope s e' s'
  rw [infer_call hbuiltIn, bind_eq_ok_iff]
  constructor
  · rintro ⟨callee', s₁, hcallee', h⟩
    cases hty : callee'.ty with
    | function n =>
      rw [hty] at h
      dsimp only at h
      rw [signature?_bind] at h
      cases hsig : s₁.signatures.get? n with
      | none =>
        rw [hsig] at h
        exact absurd h defect_ne_ok
      | some sig =>
        rw [hsig] at h
        obtain ⟨hcount, h⟩ := unless_eq_ok_iff.1 h
        obtain ⟨args', s₂, hargs', h⟩ := bind_eq_ok_iff.1 h
        obtain ⟨s₃, hasked, h⟩ := when_eq_ok_iff.1 h
        obtain ⟨rfl, rfl⟩ := pure_eq_ok_iff.1 h
        obtain ⟨hderives, hadmits⟩ := (inferArgs_eq_ok_iff hargs (not_not.1 hcount)).1 hargs'
        rw [Bool.decide_eq_true] at hasked
        exact .call hbuiltIn (hcallee.1 hcallee') hty hsig hderives hadmits hasked
    | _ =>
      rw [hty] at h
      exact absurd h reject_ne_ok
  · intro h
    cases h with
    | builtinCall => cases hbuiltIn
    | @call _ _ _ _ _ _ callee' s₁ n sig args' s₂ _ _ hcallee' hty hsig hargs' hadmits hasked =>
      refine ⟨callee', s₁, hcallee.2 hcallee', ?_⟩
      have hcount : args.length = sig.paramList.length :=
        hargs'.length_eq.symm.trans hadmits.length_eq
      rw [hty]
      dsimp only
      rw [signature?_bind, hsig]
      refine unless_eq_ok_iff.2 ⟨not_not.2 hcount, ?_⟩
      refine bind_eq_ok_iff.2 ⟨args', s₂, (inferArgs_eq_ok_iff hargs hcount).2 ⟨hargs', hadmits⟩, ?_⟩
      refine when_eq_ok_iff.2 ⟨s', ?_, rfl⟩
      rw [Bool.decide_eq_true]
      exact hasked
    | operands _ _ hverdict => cases hverdict

theorem exact_actionCall (hargs : ∀ e ∈ args, Exact r e) :
    Exact r (.operator info .actionCall (callee :: args)) := by
  intro outer scope s e' s'
  unfold infer
  rw [bind_eq_ok_iff]
  constructor
  · rintro ⟨sig, s₁, hcallee, h⟩
    obtain ⟨⟨calleeInfo, n, rfl, hfree, hsig, haction, hcount⟩, rfl⟩ :=
      actionSignature_eq_ok_iff.1 hcallee
    obtain ⟨args', s₂, hargs', h⟩ := bind_eq_ok_iff.1 h
    obtain ⟨rfl, rfl⟩ := pure_eq_ok_iff.1 h
    obtain ⟨hderives, hadmits⟩ := (inferArgs_eq_ok_iff hargs hcount).1 hargs'
    exact .actionCall hfree hsig haction hderives hadmits
  · intro h
    cases h with
    | actionCall hfree hsig haction hargs' hadmits =>
      have hcount := hargs'.length_eq.symm.trans hadmits.length_eq
      refine ⟨_, s, actionSignature_eq_ok_iff.2
        ⟨⟨_, _, rfl, hfree, hsig, haction, hcount⟩, rfl⟩, ?_⟩
      exact bind_eq_ok_iff.2 ⟨_, _, (inferArgs_eq_ok_iff hargs hcount).2 ⟨hargs', hadmits⟩, rfl⟩
    | operands _ _ hverdict => cases hverdict

theorem exact_update (hvalue : Exact r value) :
    Exact r (.operator info .update [target, value]) := by
  intro outer scope s e' s'
  unfold infer
  rw [bind_eq_ok_iff]
  simp only [updateTarget_eq_ok_iff, hvalue.bind_iff, follow_bind_eq_ok_iff,
    requireCoercion_eq_ok_iff, pure_eq_ok_iff]
  constructor
  · rintro ⟨target', s₁, ⟨targetInfo, n, sig, rfl, hfree, hsig, hvar, hasked, rfl⟩, value', s₂,
      hvalue', _, hcoerces, rfl, rfl⟩
    exact .update hfree hsig hvar hasked hvalue' hcoerces
  · intro h
    cases h with
    | update hfree hsig hvar hasked hvalue' hcoerces =>
      exact ⟨_, _, ⟨_, _, _, rfl, hfree, hsig, hvar, hasked, rfl⟩, _, _, hvalue', (), hcoerces, rfl,
        rfl⟩
    | operands _ _ hverdict => cases hverdict

theorem exact_not (hx : Exact r x) : Exact r (.operator info .not [x]) := by
  intro outer scope s e' s'
  unfold infer
  simp only [hx.bind_iff, follow_bind_eq_ok_iff, requireCoercion_eq_ok_iff, pure_eq_ok_iff]
  constructor
  · rintro ⟨x', s₁, hx', _, hbool, rfl, rfl⟩
    refine .operands ⟨by simp, by simp⟩ (.cons hx' .nil) ?_
    exact if_pos hbool
  · intro h
    cases h with
    | operands _ hoperands hverdict =>
      obtain _ | ⟨hx', ⟨⟩⟩ := hoperands
      obtain ⟨hbool, hv⟩ := Option.ite_none_right_eq_some.1 hverdict
      cases hv
      exact ⟨_, _, hx', (), hbool, rfl, rfl⟩

theorem exact_connective (hop : op = .and ∨ op = .or) {y : Expr} (hx : Exact r x) (hy : Exact r y) :
    Exact r (.operator info op [x, y]) := by
  intro outer scope s e' s'
  rcases hop with rfl | rfl
  all_goals
    unfold infer
    simp only [hx.bind_iff, hy.bind_iff, follow_bind_eq_ok_iff, requireCoercion_eq_ok_iff,
      pure_eq_ok_iff]
    constructor
    · rintro ⟨x', s₁, hx', _, hboolX, y', s₂, hy', _, hboolY, rfl, rfl⟩
      refine .operands ⟨by simp, by simp⟩ (.cons hx' (.cons hy' .nil)) ?_
      exact if_pos (Bool.and_eq_true_iff.2 ⟨hboolX, hboolY⟩)
    · intro h
      cases h with
      | operands _ hoperands hverdict =>
        obtain _ | ⟨hx', _ | ⟨hy', ⟨⟩⟩⟩ := hoperands
        obtain ⟨hbool, hv⟩ := Option.ite_none_right_eq_some.1 hverdict
        cases hv
        obtain ⟨hboolX, hboolY⟩ := Bool.and_eq_true_iff.1 hbool
        exact ⟨_, _, hx', (), hboolX, _, _, hy', (), hboolY, rfl, rfl⟩

theorem exact_conditional (h : ∀ e ∈ operands, Exact r e) :
    Exact r (.operator info .conditional operands) := by
  intro outer scope s e' s'
  unfold infer
  rw [bind_eq_ok_iff]
  constructor
  · rintro ⟨⟨branches, t⟩, s₁, hbranches, hpure⟩
    obtain ⟨rfl, rfl⟩ := pure_eq_ok_iff.1 hpure
    obtain ⟨hderives, hty⟩ := (inferBranches_eq_ok_iff h).1 hbranches
    refine .operands (v := .typed t) ⟨by simp, by simp⟩ hderives ?_
    change (branchesTy? none branches).map Verdict.typed = _
    rw [hty]
    rfl
  · intro hderives
    cases hderives with
    | operands _ hoperands hverdict =>
      obtain ⟨t, hty, rfl⟩ := Option.map_eq_some_iff.1 hverdict
      exact ⟨_, _, (inferBranches_eq_ok_iff h).2 ⟨hoperands, hty⟩, rfl⟩

theorem requireStarts_eq_ok_iff {s s' : State} {u : Unit} :
    requireStarts op operands s = .ok u s' ↔
      (op = .exclusiveRange ∨ op = .inclusiveRange → operands.length < 4) ∧ s' = s := by
  unfold requireStarts
  split
  · by_cases hop : (op = .exclusiveRange || op = .inclusiveRange) = true
    · rw [if_pos hop]
      simp only [Bool.or_eq_true, decide_eq_true_eq] at hop
      refine ⟨fun h => absurd h reject_ne_ok, fun h => ?_⟩
      have hlength := h.1 hop
      simp at hlength
      omega
    · rw [if_neg hop, pure_eq_ok_iff]
      simp only [Bool.or_eq_true, decide_eq_true_eq] at hop
      exact ⟨fun h => ⟨fun h' => absurd h' hop, h.2⟩, fun h => ⟨rfl, h.2⟩⟩
  · rename_i hfew
    have hlength : operands.length < 4 := by
      rcases operands with _ | ⟨_, _ | ⟨_, _ | ⟨_, _ | ⟨_, _⟩⟩⟩⟩
      case cons.cons.cons.cons => exact absurd rfl (hfew _ _ _ _ _)
      all_goals simp
    rw [pure_eq_ok_iff]
    exact ⟨fun h => ⟨fun _ => hlength, h.2⟩, fun h => ⟨rfl, h.2⟩⟩

theorem exact_judged (hop : isJudged op) (h : ∀ e ∈ operands, Exact r e) :
    Exact r (.operator info op operands) := by
  intro outer scope s e' s'
  have hindex : ¬(op = .index && !scope.allowIndex) = true ↔
      (op = .index → scope.allowIndex = true) := by simp
  simp only [infer_judged hop, unless_eq_ok_iff, hindex, bind_eq_ok_iff, requireStarts_eq_ok_iff,
    inferAll_eq_ok_iff h, conclude_eq_ok_iff, ← settle?_of_judged hop]
  constructor
  · rintro ⟨hallowed, _, s₁, ⟨hcount, rfl⟩, operands', s₂, hderives, v, hverdict, rfl, rfl⟩
    exact .operands ⟨hallowed, hcount⟩ hderives hverdict
  · intro hderives
    cases hderives with
    | operands hpermits hoperands hverdict =>
      exact ⟨hpermits.1, (), s, ⟨hpermits.2, rfl⟩, _, _, hoperands, _, hverdict, rfl, rfl⟩
    | _ => cases hop

/-- Inference of bindings is as derivations say. -/
def ExactBindings (r : String → Check Unit) (e : Expr) : Prop :=
  ∀ {scope : Scope} {chain : Bool} {s : State} {e' : Expr} {s' : State},
    inferBindings r scope chain e s = .ok e' s' ↔ DerivesBindings (.of r) scope chain e s e' s'

theorem ExactBindings.bind_iff {e : Expr} (he : ExactBindings r e) {α : Type} {f : Expr → Check α}
    {chain : Bool} {s s' : State} {a : α} :
    (inferBindings r scope chain e >>= f) s = .ok a s' ↔
      ∃ e' s₁, DerivesBindings (.of r) scope chain e s e' s₁ ∧ f e' s₁ = .ok a s' := by
  rw [bind_eq_ok_iff]
  exact exists₂_congr fun e' s₁ => and_congr_left' he

theorem exact_withBinding {bindings : Expr} (hbody : Exact r body)
    (hbindings : ExactBindings r bindings) :
    Exact r (.operator info .withBinding [body, bindings]) := by
  intro outer scope s e' s'
  unfold infer
  simp only [hbindings.bind_iff, hbody.bind_iff, pure_eq_ok_iff]
  constructor
  · rintro ⟨bindings', s₁, hbindings', body', s₂, hbody', rfl, rfl⟩
    exact .withBinding hbindings' hbody'
  · intro h
    cases h with
    | withBinding hbindings' hbody' => exact ⟨_, _, hbindings', _, _, hbody', rfl, rfl⟩
    | operands _ _ hverdict => cases hverdict

theorem exactBindings_both {left right : Expr} (hleft : ExactBindings r left)
    (hright : ExactBindings r right) :
    ExactBindings r (.operator info .withBinding [left, right]) := by
  intro scope chain s e' s'
  unfold inferBindings
  simp only [hleft.bind_iff, hright.bind_iff, pure_eq_ok_iff]
  constructor
  · rintro ⟨left', s₁, hleft', right', s₂, hright', rfl, rfl⟩
    exact .both hleft' hright'
  · intro h
    cases h with
    | both hleft' hright' => exact ⟨_, _, hleft', _, _, hright', rfl, rfl⟩

theorem exactBindings_assignment (hvalue : Exact r value) :
    ExactBindings r (.operator info .assignment [target, value]) := by
  intro scope chain s e' s'
  unfold inferBindings
  cases target with
  | name targetInfo n =>
    rw [if_neg (by simp [Expr.name?]), hvalue.bind_iff]
    constructor
    · rintro ⟨value', s₁, hvalue', ⟨⟩⟩
      exact .assignment hvalue'
    · intro h
      cases h with
      | assignment hvalue' => exact ⟨_, _, hvalue', rfl⟩
  | _ => exact ⟨fun h => absurd h reject_ne_ok, fun h => by cases h⟩

end Forms

section Exactness

variable {r : String → Check Unit} {info : Info} {op : Operation} {operands : List Expr}

theorem exact_of_refused {d : Defect}
    (hrun : ∀ outer scope, infer r outer scope (.operator info op operands) = defect d)
    (hderives : ∀ {outer scope s e' s'},
      ¬Derives (.of r) outer scope (.operator info op operands) s e' s' := by
        exact fun | .operands _ _ hverdict => nomatch hverdict) :
    Exact r (.operator info op operands) := by
  intro outer scope s e' s'
  rw [hrun]
  exact ⟨fun h => absurd h defect_ne_ok, fun h => absurd h hderives⟩

theorem exact_operator (h : ∀ e ∈ operands, Exact r e)
    (hbindings : ∀ e ∈ operands, ExactBindings r e) : Exact r (.operator info op operands) := by
  by_cases hjudged : isJudged op = true
  · exact exact_judged hjudged h
  cases op with
  | listMap =>
    rcases operands with _ | ⟨body, _ | ⟨bound, _ | ⟨source, _ | ⟨_, _⟩⟩⟩⟩
    case cons.cons.cons.nil => exact exact_listMap (h body (by simp)) (h source (by simp))
    all_goals exact exact_of_refused fun _ _ => rfl
  | listFilter =>
    rcases operands with _ | ⟨list, _ | ⟨condition, _ | ⟨_, _⟩⟩⟩
    case cons.cons.nil => exact exact_listFilter (h list (by simp)) (h condition (by simp))
    all_goals exact exact_of_refused fun _ _ => rfl
  | memberAccess =>
    rcases operands with _ | ⟨subject, _ | ⟨member, _ | ⟨_, _⟩⟩⟩
    case cons.cons.nil => exact exact_memberAccess (h subject (by simp))
    all_goals exact exact_of_refused fun _ _ => rfl
  | builtIn =>
    rcases operands with _ | ⟨name, _ | ⟨_, _⟩⟩
    case cons.nil => exact exact_builtIn
    all_goals exact exact_of_refused fun _ _ => rfl
  | call =>
    rcases operands with _ | ⟨callee, args⟩
    case nil => exact exact_of_refused fun _ _ => rfl
    obtain ⟨hcallee, hargs⟩ := List.forall_mem_cons.1 h
    by_cases hbuiltIn : callee.isOp .builtIn = true
    · cases callee with
      | operator calleeInfo calleeOp names =>
        obtain rfl := beq_iff_eq.1 hbuiltIn
        rcases names with _ | ⟨name, _ | ⟨_, _⟩⟩
        case cons.nil => exact exact_builtinCall hargs
        all_goals exact exact_of_refused (fun _ _ => rfl) fun
          | .call hbuiltIn _ _ _ _ _ _ => nomatch hbuiltIn
          | .operands _ _ hverdict => nomatch hverdict
      | _ => cases hbuiltIn
    · exact exact_call hcallee hargs (by simpa using hbuiltIn)
  | actionCall =>
    rcases operands with _ | ⟨callee, args⟩
    case nil => exact exact_of_refused fun _ _ => rfl
    exact exact_actionCall (List.forall_mem_cons.1 h).2
  | not =>
    rcases operands with _ | ⟨x, _ | ⟨_, _⟩⟩
    case cons.nil => exact exact_not (h x (by simp))
    all_goals exact exact_of_refused (fun _ _ => rfl) fun
      | .operands _ hoperands hverdict => by
        have hlength := hoperands.length_eq.symm.trans (length_of_settle?_not hverdict)
        simp at hlength
  | and | or =>
    rcases operands with _ | ⟨x, _ | ⟨y, _ | ⟨_, _⟩⟩⟩
    case cons.cons.nil => exact exact_connective (by simp) (h x (by simp)) (h y (by simp))
    all_goals exact exact_of_refused (fun _ _ => rfl) fun
      | .operands _ hoperands hverdict => by
        have htwo := length_of_settle?_connective (by simp) hverdict
        have hlength := hoperands.length_eq.symm.trans htwo
        simp at hlength
  | conditional => exact exact_conditional h
  | assignment =>
    exact ⟨fun hrun => absurd hrun reject_ne_ok, fun
      | .operands _ _ hverdict => nomatch hverdict⟩
  | update =>
    rcases operands with _ | ⟨target, _ | ⟨value, _ | ⟨_, _⟩⟩⟩
    case cons.cons.nil => exact exact_update (h value (by simp))
    all_goals exact exact_of_refused fun _ _ => rfl
  | withBinding =>
    rcases operands with _ | ⟨body, _ | ⟨bindings, _ | ⟨_, _⟩⟩⟩
    case cons.cons.nil =>
      exact exact_withBinding (h body (by simp)) (hbindings bindings (by simp))
    all_goals exact exact_of_refused fun _ _ => rfl
  | other n => exact exact_of_refused fun _ _ => rfl
  | _ => exact absurd rfl hjudged

theorem exactBindings_operator (h : ∀ e ∈ operands, Exact r e)
    (hbindings : ∀ e ∈ operands, ExactBindings r e) :
    ExactBindings r (.operator info op operands) := by
  intro scope chain s e' s'
  by_cases hboth : ∃ left right, op = .withBinding ∧ operands = [left, right]
  · obtain ⟨left, right, rfl, rfl⟩ := hboth
    exact exactBindings_both (hbindings left (by simp)) (hbindings right (by simp))
  by_cases hassignment : ∃ target value, op = .assignment ∧ operands = [target, value]
  · obtain ⟨target, value, rfl, rfl⟩ := hassignment
    exact exactBindings_assignment (h value (by simp))
  have hrefused : ∃ m : Check Expr, inferBindings r scope chain (.operator info op operands) = m ∧
      ¬m s = .ok e' s' := by
    unfold inferBindings
    split
    case h_1 heq =>
      cases heq
      exact absurd ⟨_, _, rfl, rfl⟩ hboth
    case h_2 heq =>
      cases heq
      exact absurd ⟨_, _, rfl, rfl⟩ hassignment
    case h_3 | h_4 => exact ⟨_, rfl, defect_ne_ok⟩
    case h_5 => exact ⟨_, rfl, reject_ne_ok⟩
  obtain ⟨m, hrun, hm⟩ := hrefused
  rw [hrun]
  refine iff_of_false hm fun hderives => ?_
  cases hderives with
  | both => exact hboth ⟨_, _, rfl, rfl⟩
  | assignment => exact hassignment ⟨_, _, rfl, rfl⟩

theorem exact_of_expr (r : String → Check Unit) (e : Expr) : Exact r e ∧ ExactBindings r e := by
  induction e using Expr.operandInduction with
  | literal info v =>
    refine ⟨pure_eq_ok_iff.trans ⟨?_, ?_⟩, nofun, nofun⟩
    · rintro ⟨rfl, rfl⟩
      exact .literal
    · rintro ⟨⟩
      exact ⟨rfl, rfl⟩
  | name info n =>
    refine ⟨fun {outer scope s e' s'} => ?_, nofun, nofun⟩
    rw [infer_name, lookup_eq_ok_iff]
    refine ⟨.name, ?_⟩
    rintro ⟨⟩
    assumption
  | timeStep info =>
    refine ⟨pure_eq_ok_iff.trans ⟨?_, ?_⟩, nofun, nofun⟩
    · rintro ⟨rfl, rfl⟩
      exact .timeStep
    · rintro ⟨⟩
      exact ⟨rfl, rfl⟩
  | operator info op operands ih =>
    have hexact : ∀ e ∈ operands, Exact r e := fun e he => (ih e he).1
    have hbindings : ∀ e ∈ operands, ExactBindings r e := fun e he => (ih e he).2
    exact ⟨exact_operator hexact hbindings, exactBindings_operator hexact hbindings⟩

variable {outer scope : Scope} {e e' : Expr} {s s' : State}

theorem infer_eq_ok_iff :
    infer r outer scope e s = .ok e' s' ↔ Derives (.of r) outer scope e s e' s' :=
  (exact_of_expr r e).1

end Exactness

end Diagram.Typing
