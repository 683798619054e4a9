import Diagram.Proofs.Typing.Bound
import Diagram.Proofs.Typing.Eliminated
import Diagram.Proofs.Typing.Grows
import Diagram.Proofs.Typing.Named

/-!
# Enumerations that types name

The types of an analyzed program come from four places: what was written in its declarations, the
enumerations that its expressions name, the types of constants and the rules.  The rules add
nothing, so every enumeration that a type names is declared or was written in a declaration.
Nothing looks a written name up, so it need not be declared.

* `Derives.typed` — one derivation: what is derived in a state whose types name enumerations that
  satisfy `E` has only such types itself.  It has a time step only where a scope shows one.
* `typed_of_resolve` — one definition: its analysis keeps such states.
* `Program.undeclared_iff_written` — the whole analysis.
-/

namespace Diagram

open List Option

/-- The enumeration that a type names, also inside of a list. -/
def Ty.enumeration? : Ty → Option String
  | list item => item.enumeration?
  | user name => some name
  | _ => none

def Signature.types (sig : Signature) : List Ty :=
  sig.ty :: sig.paramList.map (·.ty)

namespace Program

variable (p : Program)

def signatureTypes : List Ty :=
  p.signatures.entries.flatMap fun e => e.2.types

def allNodes : List Expr :=
  p.identifiers.entries.flatMap (fun e => e.2.nodes) ++
    ((p.ticker.bind (·.interval)).map Expr.nodes).getD [] ++ p.nodes

def withoutTick : Program :=
  { p with ticker := p.ticker.map fun t => { t with action := .hole } }

/-- Whether `Q` holds of all parts of a program, place by place. -/
structure EachNode (Q : Expr → Prop) (p : Program) : Prop where
  identifiers : ∀ n e, p.identifiers.get? n = some e → ∀ x ∈ e.nodes, Q x
  interval : ∀ t e, p.ticker = some t → t.interval = some e → ∀ x ∈ e.nodes, Q x
  actions : ∀ n a, p.actions.get? n = some a → ∀ x ∈ a.nodes, Q x
  entries : ∀ es, p.entries = some es → ∀ e ∈ es, ∀ x ∈ e.nodes, Q x
  tick : ∀ t, p.ticker = some t → ∀ x ∈ t.action.nodes, Q x
  display : ∀ es, p.display = some es → ∀ e ∈ es, ∀ x ∈ e.nodes, Q x

theorem forall_allNodes_iff {Q : Expr → Prop} {p : Program} :
    (∀ x ∈ p.allNodes, Q x) ↔ p.EachNode Q := by
  have hnamed : ∀ {α : Type} (m : NameMap α) (f : α → List Expr),
      (∀ x ∈ m.entries.flatMap (fun e => f e.2), Q x) ↔
        ∀ n a, m.get? n = some a → ∀ x ∈ f a, Q x := by
    simp [NameMap.get?_eq_some_iff]
    grind
  have hlisted : ∀ {α : Type} (as? : Option (List α)) (f : α → List Expr),
      (∀ x ∈ (as?.getD []).flatMap f, Q x) ↔ ∀ as, as? = some as → ∀ a ∈ as, ∀ x ∈ f a, Q x := by
    intro α as? f
    cases as? <;> simp
    grind
  have hinterval : (∀ x ∈ ((p.ticker.bind (·.interval)).map Expr.nodes).getD [], Q x) ↔
      ∀ t e, p.ticker = some t → t.interval = some e → ∀ x ∈ e.nodes, Q x := by
    cases p.ticker with
    | none => simp
    | some t => cases he : t.interval <;> simp <;> grind
  have htick : (∀ x ∈ (p.ticker.map fun t => t.action.nodes).getD [], Q x) ↔
      ∀ t, p.ticker = some t → ∀ x ∈ t.action.nodes, Q x := by
    cases p.ticker <;> simp
  simp only [allNodes, nodes, forall_mem_append, hnamed, hlisted, hinterval, htick]
  constructor
  · rintro ⟨⟨hidentifiers, hinterval⟩, ⟨⟨hactions, hentries⟩, htick⟩, hdisplay⟩
    exact ⟨hidentifiers, hinterval, hactions, hentries, htick, hdisplay⟩
  · intro h
    exact ⟨⟨h.identifiers, h.interval⟩, ⟨⟨h.actions, h.entries⟩, h.tick⟩, h.display⟩

/-- The types that occur in a program: those of its signatures, of their parameters and of its
expressions. -/
def types : List Ty :=
  p.signatureTypes ++ p.allNodes.map Expr.ty

end Program

/-- Whether a type is no enumeration, or one that satisfies `E`. -/
def Ty.Among (E : String → Prop) (t : Ty) : Prop :=
  ∀ n, t = .user n → E n

variable {t : Ty}

theorem Ty.over_among_iff {E : String → Prop} :
    t.Over (Ty.Among E) ↔ ∀ n, t.enumeration? = some n → E n := by
  induction t with
  | list item ih => exact ih
  | user name =>
    constructor
    · intro h n hn
      exact h n (congrArg Ty.user (Option.some.inj hn))
    · intro h n hn
      exact h n (congrArg some (Ty.user.inj hn))
  | function name | action name =>
    exact ⟨fun _ n hn => (nomatch hn), fun _ n hn => (nomatch hn)⟩
  | _ => exact ⟨fun _ n hn => (nomatch hn), fun _ => trivial⟩

variable {n : String} {P : Ty → Prop}

theorem Ty.over_of_enumeration? (h : t.Over fun u => (∃ m, u = .user m) ∨ u = .action n)
    (haction : P (.action n)) (htype : ∀ m, t.enumeration? = some m → P (.user m)) : t.Over P := by
  induction t with
  | list item ih => exact ih h htype
  | user name => exact htype name rfl
  | function name => rcases h with ⟨m, hm⟩ | hm <;> cases hm
  | action name =>
    rcases h with ⟨m, hm⟩ | hm
    · cases hm
    · cases hm
      exact haction
  | _ => trivial

variable {operands : List Expr}

namespace Expr

def isTimeStep : Expr → Bool
  | timeStep _ => true
  | _ => false

/-- What the parts of an expression may be, whatever their types name: whether they may be time
steps, and which constants and names they may be. -/
structure Limits where
  time : Prop
  value : Value → Prop
  name : String → Prop

structure Limits.Allows (L : Limits) (x : Expr) : Prop where
  time : x.isTimeStep = true → L.time
  value : ∀ v, x.value? = some v → x.ty = v.ty ∧ L.value v
  name : ∀ n, x.name? = some n → L.name n

/-- Whether the constants that a limit allows lead to no others. -/
class Limits.Closed (L : Limits) : Prop where
  plain : ∀ {v : Value}, v.ty.isPlain = true → L.value v
  variant : ∀ {name variant ordinal}, L.value (.enum name variant ordinal)
  settles : ∀ {op es v w}, Typing.Settles op es v → (∀ e ∈ es, L.Allows e) → v.value = some w →
    L.value w
  convert : ∀ {v : Value} {t}, v.ty.coercesTo t = true → L.value v → L.value (v.convert t)

instance (T : Prop) (N : String → Prop) : Limits.Closed ⟨T, fun _ => True, N⟩ :=
  ⟨fun _ => trivial, trivial, fun _ _ _ => trivial, fun _ _ => trivial⟩

variable {P : Ty → Prop} {L : Limits}

/-- Every part of an expression is within the limits and has a type, and a value, that names only
what satisfies `P`. -/
def Typed (P : Ty → Prop) (L : Limits) (e : Expr) : Prop :=
  ∀ x ∈ e.nodes, x.Over P ∧ L.Allows x

theorem typed_operator_iff {info : Info} {op : Operation} :
    (Expr.operator info op operands).Typed P L ↔ info.ty.Over P ∧ ∀ e ∈ operands, e.Typed P L := by
  have hself : (Expr.operator info op operands).Over P ∧
      L.Allows (Expr.operator info op operands) ↔ info.ty.Over P :=
    ⟨fun h => h.1.ty, fun h => ⟨over_operator h info.area op operands, nofun, nofun, nofun⟩⟩
  unfold Typed
  rw [nodes, forall_mem_append, forall_nodesOf_iff, forall_mem_singleton, hself, and_comm]

theorem Typed.of_mem {info : Info} {op : Operation}
    (h : (Expr.operator info op operands).Typed P L) : ∀ e ∈ operands, e.Typed P L :=
  (typed_operator_iff.1 h).2

variable {e : Expr}

theorem Typed.over (h : e.Typed P L) : e.Over P :=
  (h e (mem_nodes_self e)).1

theorem Typed.allows (h : e.Typed P L) : L.Allows e :=
  (h e (mem_nodes_self e)).2

theorem typed_of_over (hnode : e.nodes = [e]) (h : e.Over P) (hallows : L.Allows e) :
    e.Typed P L := by
  intro x hx
  rw [hnode, mem_singleton] at hx
  rw [hx]
  exact ⟨h, hallows⟩

theorem typed_constant {v : Value} (h : v.ty.Over P) (hv : L.value v) (area : Area) :
    (constant v area).Typed P L := by
  refine typed_of_over rfl (over_constant h area) ⟨nofun, fun w hw => ?_, nofun⟩
  cases hw
  exact ⟨rfl, hv⟩

theorem typed_name {t : Ty} (h : t.Over P) (hn : L.name n) (area : Area) :
    (name ⟨t, area⟩ n).Typed P L :=
  typed_of_over rfl (over_name h area n) ⟨nofun, nofun, fun _ hm => Option.some.inj hm ▸ hn⟩

theorem Typed.name {info : Info} (h : (Expr.name info n).Typed P L) : L.name n :=
  h.allows.name n rfl

variable [L.Closed] {tokens : List Token} (hnames : ∀ n, Token.Spells tokens n → L.name n)

include hnames

/-- An expression that was read has no types yet, but for those of plain constants. -/
theorem Shaped.typed (h : e.Shaped tokens) : e.Typed P L := by
  induction h with
  | literal _ hv => exact typed_constant (Value.over_of_isPlain hv) (Limits.Closed.plain hv) _
  | name _ hname => exact typed_name (t := .unknown) trivial (hnames _ hname) _
  | operator _ _ _ ih => exact typed_operator_iff.2 ⟨trivial, ih⟩

theorem Quantity.typed (h : e.Quantity tokens) : e.Typed P L := by
  rcases h with h | ⟨x, rfl⟩
  · exact h.typed hnames
  · exact typed_constant (v := .real x) trivial (Limits.Closed.plain rfl) _

end Expr

/-- The names of a scope have types that name only what satisfies `P`, and it shows the time step
only within the limits. -/
structure Scope.Typed (P : Ty → Prop) (L : Expr.Limits) (scope : Scope) : Prop where
  types : scope.Over P
  time : scope.allowTime = true → L.time

theorem Scope.Typed.bind {L : Expr.Limits} {scope : Scope} (h : scope.Typed P L) (n : String)
    (ht : t.Over P) : (scope.bind n t).Typed P L :=
  ⟨h.types.bind n ht, h.time⟩

variable {sig : Signature}

namespace Typing

variable {P : Ty → Prop} {L : Expr.Limits}

theorem Verdict.typed_expr {v : Verdict} (hv : v.Over P) (hvalue : ∀ w, v.value = some w → L.value w)
    (hoperands : ∀ e ∈ operands, e.Typed P L) (area : Area) (op : Operation) :
    (v.expr area op operands).Typed P L := by
  unfold Verdict.expr
  split
  · rename_i w hw
    exact Expr.typed_constant (hv.2 w hw) (hvalue w hw) area
  · exact Expr.typed_operator_iff.2 ⟨hv.1, hoperands⟩

theorem typed_builtinExpr {b : Builtin} (hfind : Builtin.find? n = some b) {calleeInfo info : Info}
    (he : (Expr.operator calleeInfo .builtIn [.name info n]).Typed P L) (area : Area) :
    (builtinExpr area (.name info n) b).Typed P L := by
  have hresult : b.result.Over P := Builtin.over_result hfind
  have hname := (he.of_mem _ mem_cons_self).name
  exact Expr.typed_operator_iff.2
    ⟨hresult, forall_mem_singleton.2 (Expr.typed_name hresult hname info.area)⟩

variable {scope : Scope} {e : Expr}

/-- The names inside of typed comprehensions have types of the same kind. -/
theorem typed_scopeInside (hscope : scope.Typed P L) (he : e.Typed P L) :
    (scopeInside scope e).Typed P L := by
  induction e using Expr.chainInduction generalizing scope with
  | map info body x source ih =>
    have hoperands := he.of_mem
    cases x with
    | name i n =>
      exact ih (hscope.bind n (hoperands _ (by simp)).over.ty) (hoperands body (by simp))
    | _ => exact hscope
  | other e hother =>
    rw [Expr.scopeInside_of_other hother]
    exact hscope

theorem typed_scopeWithBindings (hscope : scope.Typed P L) (he : e.Typed P L) :
    (scopeWithBindings scope e).Typed P L := by
  fun_induction scopeWithBindings scope e with
  | case1 scope info left right ihleft ihright =>
    have hoperands := he.of_mem
    exact ihright (ihleft hscope (hoperands left (by simp))) (hoperands right (by simp))
  | case2 scope info target value n hn =>
    have hoperands := he.of_mem
    exact hscope.bind n (hoperands target (by simp)).over.ty
  | case3 | case4 => exact hscope

/-- What a signature has, and what references to its name have, names only what satisfies `P`. -/
structure SignatureTyped (P : Ty → Prop) (n : String) (sig : Signature) : Prop where
  ty : sig.ty.Over P
  params : ∀ q ∈ sig.paramList, q.ty.Over P
  reference : ∀ t, sig.fixedTy? n = some t → t.Over P
  action : P (.action sig.name)
  enum : sig.declares = .enum → P (.user sig.name)

/-- A state all of whose types name only what satisfies `P`, and whose definitions are within the
limits. -/
structure StateTyped (P : Ty → Prop) (L : Expr.Limits) (s : State) : Prop where
  signature : ∀ n sig, s.signatures.get? n = some sig → SignatureTyped P n sig
  definition : ∀ n e, s.identifiers.get? n = some e → e.Typed P L

namespace StateTyped

variable {s : State} (h : StateTyped P L s)

include h

theorem tyOf (n : String) : (s.tyOf n).Over P := by
  unfold State.tyOf
  cases hsig : s.signatures.get? n with
  | none => trivial
  | some sig => exact (h.signature n sig hsig).ty

theorem value {v : Value} (hv : s.valueOf? n = some v) : v.ty.Over P ∧ L.value v := by
  obtain ⟨e, he, hvalue⟩ := bind_eq_some_iff.1 hv
  have htyped := h.definition n e he
  exact ⟨htyped.over.value v hvalue, (htyped.allows.value v hvalue).2⟩

theorem reference (isConst : Bool) (area : Area) (hn : L.name n) :
    (s.reference isConst area n).Typed P L := by
  unfold State.reference
  split
  · rename_i v hv
    have hvalue : s.valueOf? n = some v := by
      cases isConst with
      | true => exact hv
      | false => cases hv
    exact Expr.typed_constant (h.value hvalue).1 (h.value hvalue).2 area
  · exact Expr.typed_name (h.tyOf n) hn area

theorem enum {scope : Scope} {subject : Expr} (hsig : s.enum? scope subject = some sig) :
    P (.user sig.name) := by
  unfold State.enum? at hsig
  split at hsig
  · cases hsig
  · obtain ⟨-, hsig⟩ := ite_none_left_eq_some.1 hsig
    obtain ⟨hget, hdeclares⟩ := filter_eq_some_iff.1 hsig
    exact (h.signature _ sig hget).enum (by simpa using hdeclares)

end StateTyped

/-- Whether a resolution keeps states whose types name only what satisfies `P`. -/
def KeepsTyped (P : Ty → Prop) (L : Expr.Limits) (R : Resolution) : Prop :=
  ∀ {n s s'}, R n s s' → StateTyped P L s → StateTyped P L s'

section Derivations

variable {R : Resolution} (hR : KeepsTyped P L R)

include hR

theorem KeepsTyped.carries : Carries R fun s s' => StateTyped P L s → StateTyped P L s' where
  refl _ h := h
  trans h h' hs := h' (h hs)
  notes _ _ h := ⟨h.signature, h.definition⟩
  asked := hR

theorem Finds.typed {scope : Scope} {area : Area} {s s' : State} {e' : Expr}
    (h : Finds R scope area n s e' s') (hs : StateTyped P L s) (hscope : scope.Typed P L)
    (hn : L.name n) : e'.Typed P L := by
  cases h with
  | bound hbound => exact Expr.typed_name (hscope.types n _ hbound) hn area
  | time _ htime =>
    exact Expr.typed_of_over rfl ⟨trivial, nofun⟩ ⟨fun _ => hscope.time htime, nofun, nofun⟩
  | fixed _ hsig hfixed =>
    exact Expr.typed_name ((hs.signature n _ hsig).reference _ hfixed) hn area
  | value _ _ _ hasked => exact (hasked.relates hR.carries hs).reference _ area hn

mutual

theorem Derives.typed [L.Closed] {outer scope e e' s s'} :
    Derives R outer scope e s e' s' → StateTyped P L s → outer.Typed P L → scope.Typed P L →
      e.Typed P L → e'.Typed P L
  | .literal, _, _, _, he => Expr.typed_constant (he.over.value _ rfl) (he.allows.value _ rfl).2 _
  | .name hfinds, hs, _, hscope, he => hfinds.typed hR hs hscope he.name
  | .timeStep, _, _, _, he =>
    Expr.typed_of_over rfl ⟨trivial, nofun⟩ ⟨he.allows.time, nofun, nofun⟩
  | .listMap hsource _ hbody hty, hs, houter, hscope, he => by
    have hoperands := he.of_mem
    have hsource' := hsource.typed hs houter houter (hoperands _ (by simp))
    have hitem := over_itemTy hsource'.over.ty
    have hs₁ := hsource.relates hR.carries hs
    have hbody' := hbody.typed hs₁ houter (hscope.bind _ hitem) (hoperands _ (by simp))
    refine Expr.typed_operator_iff.2 ⟨over_comprehensionTy hbody'.over hty, ?_⟩
    have hname := (hoperands _ (mem_cons_of_mem _ mem_cons_self)).name
    simpa using ⟨hbody', Expr.typed_name hitem hname _, hsource'⟩
  | .listFilter hlist _ hcondition _, hs, _, hscope, he => by
    have hoperands := he.of_mem
    have hlist' := hlist.typed hs hscope hscope (hoperands _ (by simp))
    have hinner := typed_scopeInside hscope hlist'
    have hs₁ := hlist.relates hR.carries hs
    have hcondition' := hcondition.typed hs₁ hinner hinner (hoperands _ (by simp))
    refine Expr.typed_operator_iff.2 ⟨hlist'.over.ty, ?_⟩
    simpa using ⟨hlist', hcondition'⟩
  | .variant henum hvariant, hs, _, _, _ =>
    Expr.typed_constant (over_variant? (hs.enum henum) hvariant) (by
      obtain ⟨i, -, rfl⟩ := map_eq_some_iff.1 hvariant
      exact Expr.Limits.Closed.variant) _
  | .member _ hsubject hty, hs, _, hscope, he => by
    have hoperands := he.of_mem
    have hsubject' := hsubject.typed hs hscope hscope (hoperands _ (by simp))
    have hname := (hoperands _ (mem_cons_of_mem _ mem_cons_self)).name
    refine Verdict.typed_expr (over_member hty) (fun w hw => ?_) ?_ _ _
    · obtain ⟨v, -, hv⟩ := bind_eq_some_iff.1 hw
      exact Expr.Limits.Closed.plain (isPlain_coordinate? hv)
    simpa using ⟨hsubject', Expr.typed_name (over_memberTy hty) hname _⟩
  | .builtIn hfind, _, _, _, he => typed_builtinExpr hfind he _
  | .builtinCall hfind _ hargs hverdict, hs, _, hscope, he => by
    obtain ⟨hcallee, hargsTyped⟩ := forall_mem_cons.1 he.of_mem
    have hargs' := hargs.typed hs hscope hargsTyped
    refine Verdict.typed_expr (over_callVerdict? hfind hverdict)
      (fun w hw => Expr.Limits.Closed.plain ((of_callVerdict? hverdict).2 w hw)) ?_ _ _
    exact forall_mem_cons.2 ⟨typed_builtinExpr hfind hcallee _, hargs'⟩
  | .call _ hcallee _ _ hargs _ hasked, hs, _, hscope, he => by
    obtain ⟨hcalleeTyped, hargsTyped⟩ := forall_mem_cons.1 he.of_mem
    have hcallee' := hcallee.typed hs hscope hscope hcalleeTyped
    have hs₁ := hcallee.relates hR.carries hs
    have hargs' := hargs.typed hs₁ hscope hargsTyped
    have hs₂ := hargs.relates hR.carries hs₁
    have hs₃ := hasked.relates hR.carries hs₂
    exact Expr.typed_operator_iff.2 ⟨hs₃.tyOf _, forall_mem_cons.2 ⟨hcallee', hargs'⟩⟩
  | .actionCall _ hsig _ hargs _, hs, _, hscope, he => by
    obtain ⟨hcallee, hargsTyped⟩ := forall_mem_cons.1 he.of_mem
    have hargs' := hargs.typed hs hscope hargsTyped
    have haction := (hs.signature _ _ hsig).action
    have hcallee' := Expr.typed_name (t := .action _) haction hcallee.name
    exact Expr.typed_operator_iff.2 ⟨haction, forall_mem_cons.2 ⟨hcallee' _, hargs'⟩⟩
  | .operands _ hoperands hverdict, hs, _, hscope, he => by
    have hoperands' := hoperands.typed hs hscope he.of_mem
    have hsettles := settle?_eq_some_iff.1 hverdict
    exact Verdict.typed_expr (hsettles.over fun e he => (hoperands' e he).over)
      (fun w => Expr.Limits.Closed.settles hsettles fun e he => (hoperands' e he).allows)
      hoperands' _ _
  | .update _ _ _ hasked hvalue _, hs, _, hscope, he => by
    have hs₁ := hR hasked hs
    have hoperands := he.of_mem
    have hvalue' := hvalue.typed hs₁ hscope hscope (hoperands _ (by simp))
    have hname := (hoperands _ mem_cons_self).name
    refine Expr.typed_operator_iff.2 ⟨trivial, ?_⟩
    simpa using ⟨Expr.typed_name (hs₁.tyOf _) hname _, hvalue'⟩
  | .withBinding hbindings hbody, hs, _, hscope, he => by
    have hoperands := he.of_mem
    have hbindings' := hbindings.typed hs hscope (hoperands _ (by simp))
    have hinner := typed_scopeWithBindings hscope hbindings'
    have hs₁ := hbindings.relates hR.carries hs
    have hbody' := hbody.typed hs₁ hinner hinner (hoperands _ (by simp))
    refine Expr.typed_operator_iff.2 ⟨hbody'.over.ty, ?_⟩
    simpa using ⟨hbody', hbindings'⟩

theorem DerivesAll.typed [L.Closed] {scope es es' s s'} :
    DerivesAll R scope es s es' s' → StateTyped P L s → scope.Typed P L → (∀ e ∈ es, e.Typed P L) →
      ∀ e ∈ es', e.Typed P L
  | .nil, _, _, _ => nofun
  | .cons hhead htail, hs, hscope, hes => by
    obtain ⟨he, hes⟩ := forall_mem_cons.1 hes
    have hs₁ := hhead.relates hR.carries hs
    exact forall_mem_cons.2 ⟨hhead.typed hs hscope hscope he, htail.typed hs₁ hscope hes⟩

theorem DerivesBindings.typed [L.Closed] {scope chain e e' s s'} :
    DerivesBindings R scope chain e s e' s' → StateTyped P L s → scope.Typed P L → e.Typed P L →
      e'.Typed P L
  | .both hleft hright, hs, hscope, he => by
    obtain ⟨hinfo, hoperands⟩ := Expr.typed_operator_iff.1 he
    have hleft' := hleft.typed hs hscope (hoperands _ (by simp))
    have hs₁ := hleft.relates hR.carries hs
    have hright' := hright.typed hs₁ hscope (hoperands _ (by simp))
    refine Expr.typed_operator_iff.2 ⟨?_, by simpa using ⟨hleft', hright'⟩⟩
    split
    · trivial
    · exact hinfo
  | .assignment hvalue, hs, hscope, he => by
    have hoperands := he.of_mem
    have hvalue' := hvalue.typed hs hscope hscope (hoperands _ (by simp))
    have hname := (hoperands _ mem_cons_self).name
    have hty := hvalue'.over.ty
    refine Expr.typed_operator_iff.2 ⟨hty, ?_⟩
    simpa using ⟨Expr.typed_name hty hname _, hvalue'⟩

end

end Derivations

section Definitions

theorem typed_bodyScope (h : ∀ q ∈ sig.paramList, q.ty.Over P) :
    (bodyScope sig).Typed P L :=
  ⟨Scope.over_top.withParams h, fun htime => by
    rw [bodyScope, allowTime_withParams] at htime
    cases htime⟩

theorem StateTyped.record {s : State} (h : StateTyped P L s) (hsig : SignatureTyped P n sig)
    {e : Expr} (he : e.Typed P L) :
    StateTyped P L (record s n sig e) where
  signature m sig' hget := by
    unfold Typing.record at hget
    split at hget
    · refine NameMap.forall_get?_insert h.signature ?_ m sig' hget
      exact { hsig with ty := he.over.ty }
    · exact h.signature m sig' hget
  definition := NameMap.forall_get?_insert h.definition he

variable [L.Closed]

theorem typed_convertTo {t : Ty} (ht : t.Over P) {e : Expr} (he : e.Typed P L)
    (hcoerces : e.ty.coercesTo t) : (e.convertTo t).Typed P L := by
  unfold Expr.convertTo
  split
  · rename_i v hv
    obtain ⟨hty, hvalue⟩ := he.allows.value v hv
    exact Expr.typed_constant (Value.over_convert ht (he.over.value v hv))
      (Expr.Limits.Closed.convert (hty ▸ hcoerces) hvalue) e.area
  · exact he

theorem typed_of_resolve (k : Nat) : KeepsTyped P L (.of (resolve · k)) := by
  intro n s s' h
  refine resolve_induction (P := fun _ s s' => StateTyped P L s → StateTyped P L s')
    (fun n s hn hs => hs) ?_ h
  intro R n s sig body body' e s₁ hR hn hsig hbody hderives haccept hs
  have hbegin : StateTyped P L (begin s n) := ⟨hs.signature, hs.definition⟩
  have hkeeps : KeepsTyped P L R := fun h => hR _ _ _ h
  have hsigTyped := hs.signature n sig hsig
  have hscope : (bodyScope sig).Typed P L := typed_bodyScope hsigTyped.params
  have hbody' := hderives.typed hkeeps hbegin hscope hscope (hs.definition n body hbody)
  refine (hderives.relates hkeeps.carries hbegin).record hsigTyped ?_
  -- What is accepted is what was derived, or its value as one of the declared type.
  have he := (accept_eq_ok_iff.1 haccept).2
  split at he
  · rw [he]
    exact hbody'
  · rw [he.2]
    exact typed_convertTo hsigTyped.ty hbody' he.1

theorem keepsTyped_resolveAny : KeepsTyped P L (.of resolveAny) :=
  fun {_ s _} h => typed_of_resolve s.identifiers.size h

end Definitions

section Parts

variable {Q : Expr → Prop} {D : Expr → Expr → Prop}

/-- Whether `Q` holds of all parts of the second of two related expressions if it holds of all
parts of the first one. -/
def NodesAlong (Q : Expr → Prop) (D : Expr → Expr → Prop) : Prop :=
  ∀ ⦃e e'⦄, D e e' → (∀ x ∈ e.nodes, Q x) → ∀ x ∈ e'.nodes, Q x

/-- Whether `Q` holds of updates, and of the calls of actions that it holds of. -/
structure Inherits (Q : Expr → Prop) : Prop where
  update : ∀ target value, Q (.updating target value)
  call : ∀ callee args, Q callee → Q (.acting callee args)

theorem Inherits.forall_updating_iff (hQ : Inherits Q) {target value : Expr} :
    (∀ x ∈ (Expr.updating target value).nodes, Q x) ↔ ∀ x ∈ target.nodes ++ value.nodes, Q x := by
  have hself := hQ.update target value
  simp only [Expr.updating, Expr.nodes, Expr.nodesOf, append_nil] at hself ⊢
  rw [forall_mem_append, forall_mem_singleton]
  exact and_iff_left hself

theorem Inherits.forall_acting_iff (hQ : Inherits Q) {callee : Expr} {args : List Expr} :
    (∀ x ∈ (Expr.acting callee args).nodes, Q x) ↔
      ∀ x ∈ callee.nodes ++ Expr.nodesOf args, Q x := by
  unfold Expr.acting
  rw [Expr.nodes, forall_mem_append, forall_mem_singleton]
  refine and_iff_left_of_imp fun h => hQ.call callee args (h callee ?_)
  exact mem_append_left _ (Expr.mem_nodes_self callee)

mutual

/-- What holds of all parts of an action holds of what is derived from it. -/
theorem forall_nodes_of_lift (hQ : Inherits Q) (hD : NodesAlong Q D) {a a' : Action} :
    a.Lift D a' → (∀ x ∈ a.nodes, Q x) → ∀ x ∈ a'.nodes, Q x
  | .block has, ha => forall_nodes_of_liftAll hQ hD has ha
  | .update h, ha => hQ.forall_updating_iff.1 (hD h (hQ.forall_updating_iff.2 ha))
  | .call h, ha => hQ.forall_acting_iff.1 (hD h (hQ.forall_acting_iff.2 ha))
  | .conditional harms, ha => by
    have harms' := forall_nodes_of_liftArms hQ hD harms (forall_mem_append.1 ha).1
    exact forall_mem_append.2 ⟨harms', nofun⟩
  | .conditionalElse harms hd, ha => by
    obtain ⟨harmsNodes, hdNodes⟩ := forall_mem_append.1 ha
    exact forall_mem_append.2
      ⟨forall_nodes_of_liftArms hQ hD harms harmsNodes, forall_nodes_of_lift hQ hD hd hdNodes⟩

theorem forall_nodes_of_liftAll (hQ : Inherits Q) (hD : NodesAlong Q D) {as as'} :
    Action.LiftAll D as as' → (∀ x ∈ Action.nodesOf as, Q x) → ∀ x ∈ Action.nodesOf as', Q x
  | .nil, _ => nofun
  | .cons ha has, h => by
    obtain ⟨haNodes, hasNodes⟩ := forall_mem_append.1 h
    exact forall_mem_append.2
      ⟨forall_nodes_of_lift hQ hD ha haNodes, forall_nodes_of_liftAll hQ hD has hasNodes⟩

theorem forall_nodes_of_liftArms (hQ : Inherits Q) (hD : NodesAlong Q D) {arms arms'} :
    Action.LiftArms D arms arms' → (∀ x ∈ Action.branchNodes arms, Q x) →
      ∀ x ∈ Action.branchNodes arms', Q x
  | .nil, _ => nofun
  | .cons hc _ ha hrest, h => by
    obtain ⟨harm, hrestNodes⟩ := forall_mem_append.1 h
    obtain ⟨hcNodes, haNodes⟩ := forall_mem_append.1 harm
    refine forall_mem_append.2 ⟨?_, forall_nodes_of_liftArms hQ hD hrest hrestNodes⟩
    exact forall_mem_append.2 ⟨hD hc hcNodes, forall_nodes_of_lift hQ hD ha haNodes⟩

end

theorem forall_nodes_of_elementLift (hQ : Inherits Q) (hD : NodesAlong Q D) {e e' : Element}
    (h : e.Lift (Both D) (Action.Lift D) e') (he : ∀ x ∈ e.nodes, Q x) : ∀ x ∈ e'.nodes, Q x := by
  obtain ⟨hquantities, hclick⟩ := forall_mem_append.1 he
  refine forall_mem_append.2 ⟨Expr.forall_nodesOf_iff.2 fun x' hx' => ?_, ?_⟩
  · obtain ⟨q', hq', hx'⟩ := mem_filterMap.1 hx'
    obtain ⟨q, hq, x, y, rfl, rfl, hD'⟩ := exists_of_forall₂ h.quantities hq'
    cases hx'
    have hx : x ∈ e.quantities.filterMap id := mem_filterMap.2 ⟨_, hq, rfl⟩
    exact hD hD' (Expr.forall_nodesOf_iff.1 hquantities x hx)
  · cases hclick' : e'.click with
    | none => nofun
    | some a' =>
      obtain ⟨a, ha, hlift⟩ := exists_of_optionRel h.click hclick'
      rw [ha] at hclick
      exact forall_nodes_of_lift hQ hD hlift hclick

variable {p q : Program} {D : Scope → Expr → Expr → Prop} {S : Scope → Prop}

/-- What holds of all parts of a program, and of the definitions that are derived from them, holds
of all that is derived, if it is derived in scopes that satisfy `S`. -/
theorem forall_nodes_of_programLift (hQ : Inherits Q)
    (hD : ∀ scope, S scope → NodesAlong Q (D scope)) (htop : S .top)
    (hparams : ∀ n sig, p.signatures.get? n = some sig → S (bodyScope sig)) (h : p.Lift D q)
    (hp : ∀ x ∈ p.allNodes, Q x)
    (hq : ∀ n e, q.identifiers.get? n = some e → ∀ x ∈ e.nodes, Q x) :
    q.withoutTick.EachNode Q ∧ (S .ticking → q.EachNode Q) := by
  have hp := Program.forall_allNodes_iff.1 hp
  have hinterval : ∀ t' e', q.ticker = some t' → t'.interval = some e' → ∀ x ∈ e'.nodes, Q x := by
    intro t' e' ht' he'
    obtain ⟨t, ht, hrel, -⟩ := exists_of_optionRel h.ticker ht'
    obtain ⟨e, he, hee', -⟩ := exists_of_optionRel hrel he'
    exact hD .top htop hee' (hp.interval t e ht he)
  have hrest : q.withoutTick.EachNode Q := {
    identifiers := hq
    interval := fun t e ht he => by
      obtain ⟨t', ht', rfl⟩ := map_eq_some_iff.1 ht
      exact hinterval t' e ht' he
    actions := fun n a' ha' => by
      obtain ⟨⟨_, a⟩, hmem, rfl, sig, hsig, ha⟩ :=
        exists_of_forall₂ h.actions (NameMap.get?_eq_some_iff.1 ha')
      exact forall_nodes_of_lift hQ (hD _ (hparams _ sig hsig)) ha
        (hp.actions _ a (NameMap.get?_eq_some_iff.2 hmem))
    entries := fun es' hes' e' he' => by
      obtain ⟨es, hes, hforall⟩ := exists_of_optionRel h.entries hes'
      obtain ⟨e, he, hee'⟩ := exists_of_forall₂ hforall he'
      exact hD .top htop hee' (hp.entries es hes e he)
    tick := fun t ht => by
      obtain ⟨t', -, rfl⟩ := map_eq_some_iff.1 ht
      nofun
    display := fun es' hes' e' he' => by
      obtain ⟨es, hes, hforall⟩ := exists_of_optionRel h.display hes'
      obtain ⟨e, he, hee'⟩ := exists_of_forall₂ hforall he'
      exact forall_nodes_of_elementLift hQ (hD .top htop) hee' (hp.display es hes e he) }
  refine ⟨hrest, fun hticking => { hrest with interval := hinterval, tick := fun t' ht' => ?_ }⟩
  obtain ⟨t, ht, -, haction⟩ := exists_of_optionRel h.ticker ht'
  exact forall_nodes_of_lift hQ (hD .ticking hticking) haction (hp.tick t ht)

end Parts

section Shapes

theorem forall_actionNodesOf_iff {Q : Expr → Prop} {as : List Action} :
    (∀ x ∈ Action.nodesOf as, Q x) ↔ ∀ a ∈ as, ∀ x ∈ a.nodes, Q x := by
  induction as with
  | nil => simp [Action.nodesOf]
  | cons a as ih => rw [Action.nodesOf, forall_mem_append, ih, forall_mem_cons]

theorem forall_branchNodes_iff {Q : Expr → Prop} {arms : List (Expr × Action)} :
    (∀ x ∈ Action.branchNodes arms, Q x) ↔
      ∀ arm ∈ arms, (∀ x ∈ arm.1.nodes, Q x) ∧ ∀ x ∈ arm.2.nodes, Q x := by
  induction arms with
  | nil => simp [Action.branchNodes]
  | cons arm arms ih =>
    rw [Action.branchNodes, forall_mem_append, forall_mem_append, ih, forall_mem_cons]

variable {tokens : List Token} {P P' Q : Expr → Prop} (hQ : ∀ e, P e → ∀ x ∈ e.nodes, Q x)

include hQ

theorem forall_nodes_of_whole {a : Action} (h : a.Whole P) : ∀ x ∈ a.nodes, Q x := by
  induction h with
  | block _ ih => exact forall_actionNodesOf_iff.2 ih
  | update htarget hvalue => exact forall_mem_append.2 ⟨hQ _ htarget, hQ _ hvalue⟩
  | call hcallee hargs =>
    exact forall_mem_append.2
      ⟨hQ _ hcallee, Expr.forall_nodesOf_iff.2 fun e he => hQ e (hargs e he)⟩
  | conditional hconditions _ ih =>
    refine forall_mem_append.2 ⟨forall_branchNodes_iff.2 fun arm harm => ?_, nofun⟩
    exact ⟨hQ _ (hconditions arm harm), ih arm harm⟩
  | conditionalElse hconditions _ _ ih ihdefault =>
    refine forall_mem_append.2 ⟨forall_branchNodes_iff.2 fun arm harm => ?_, ihdefault⟩
    exact ⟨hQ _ (hconditions arm harm), ih arm harm⟩

theorem forall_nodes_of_wholeElement (hQ' : ∀ e, P' e → ∀ x ∈ e.nodes, Q x) {e : Element}
    (h : e.Whole P' P) : ∀ x ∈ e.nodes, Q x := by
  refine forall_mem_append.2 ⟨Expr.forall_nodesOf_iff.2 fun x hx => ?_, ?_⟩
  · obtain ⟨q, hq, hx⟩ := mem_filterMap.1 hx
    obtain ⟨y, rfl, hy⟩ := (Element.whole_iff.1 h).1 q hq
    cases hx
    exact hQ' _ hy
  · cases ha : e.click with
    | none => nofun
    | some a => exact forall_nodes_of_whole hQ (h.click a ha)

variable {p : Program}

/-- What holds of all parts of the expressions of a program holds of all of its parts. -/
theorem forall_nodes_of_wholeProgram (hQ' : ∀ e, P' e → ∀ x ∈ e.nodes, Q x) (h : p.Whole P' P) :
    ∀ x ∈ p.allNodes, Q x :=
  Program.forall_allNodes_iff.2 {
    identifiers := fun n e he => hQ e (h.identifiers n e he)
    interval := fun t e ht he => hQ e (h.interval t e ht he)
    actions := fun n a ha => forall_nodes_of_whole hQ (h.actions n a ha)
    entries := fun es hes e he => hQ e (h.entries es hes e he)
    tick := fun t ht => forall_nodes_of_whole hQ (h.tick t ht)
    display := fun es hes e he => forall_nodes_of_wholeElement hQ hQ' (h.display es hes e he) }

omit hQ in
theorem forall_nodes_of_shaped (hQ : ∀ e : Expr, e.Quantity tokens → ∀ x ∈ e.nodes, Q x)
    (h : p.Shaped tokens) : ∀ x ∈ p.allNodes, Q x :=
  forall_nodes_of_wholeProgram (fun e he => hQ e (.inl he)) hQ
    ⟨h.identifiers, h.actions, h.entries, h.interval, h.tick, h.display⟩

end Shapes

section Programs

variable {p q : Program}

theorem inherits_typed : Inherits fun x => x.Over P ∧ L.Allows x where
  update _ _ := ⟨⟨trivial, nofun⟩, nofun, nofun, nofun⟩
  call _ _ h := ⟨⟨h.1.ty, nofun⟩, nofun, nofun, nofun⟩

variable [L.Closed]

/-- An analyzed program is put together from typed parts, if its signatures were typed.  Only the
action of its ticker sees the time step. -/
theorem typed_of_analyze {tokens : List Token} (hp : p.Shaped tokens)
    (hnames : ∀ n, Token.Spells tokens n → L.name n)
    (hstart : ∀ n sig, p.signatures.get? n = some sig → SignatureTyped P n sig)
    (h : p.analyze.outcome = .ok q) :
    (∃ s, Grows (start p) s ∧ StateTyped P L s ∧ q.signatures = s.signatures ∧
      q.identifiers = s.identifiers) ∧
      (∀ x ∈ q.withoutTick.allNodes, x.Over P ∧ L.Allows x) ∧
      (L.time → ∀ x ∈ q.allNodes, x.Over P ∧ L.Allows x) := by
  have hkept : Kept fun s => Grows (start p) s ∧ StateTyped P L s := {
    refl := fun _ h => h
    trans := fun h h' hs => h' (h hs)
    notes := fun s _ hs => ⟨hs.1.trans { Grows.refl s with progress := { Progress.refl s with } },
      hs.2.signature, hs.2.definition⟩
    asked := fun h hs => ⟨hs.1.trans (grows_of_resolve h).1, keepsTyped_resolveAny h hs.2⟩ }
  have hbegin : Grows (start p) (start p) ∧ StateTyped P L (start p) :=
    ⟨.refl _, hstart, fun n e he => (hp.identifiers n e he).typed hnames⟩
  obtain ⟨s', hrun⟩ := analyze_eq_ok_iff.1 h
  obtain ⟨s₁, hforM, hrest⟩ := lift_of_inferProgram hkept
    (fun s hs => Reached.scopedBy hs.1.progress) hrun
  obtain ⟨⟨hgrows, htyped⟩, hsignatures, hidentifiers, hlift⟩ := hrest (hkept.forM hbegin hforM)
  have hD : ∀ scope : Scope, scope.Typed P L → NodesAlong (fun x => x.Over P ∧ L.Allows x)
      (Derived (fun s => Grows (start p) s ∧ StateTyped P L s) (.of resolveAny) scope) := by
    rintro scope hscope e e' ⟨t, t', ht, -, hderives⟩ he
    exact hderives.typed keepsTyped_resolveAny ht.2 hscope hscope he
  obtain ⟨hrest, hall⟩ := forall_nodes_of_programLift inherits_typed hD ⟨Scope.over_top, nofun⟩
    (fun n sig hsig => typed_bodyScope (hstart n sig hsig).params) hlift
    (forall_nodes_of_shaped (fun e he => he.typed hnames) hp)
    fun n e he => htyped.definition n e (hidentifiers ▸ he)
  refine ⟨⟨s', hgrows, htyped, hsignatures, hidentifiers⟩, ?_⟩
  simp only [Program.forall_allNodes_iff]
  exact ⟨hrest, fun hT => hall ⟨Scope.over_top, fun _ => hT⟩⟩

end Programs

end Typing

namespace Program

variable {tokens : List Token} {p q : Program} {t : Ty} {n : String}

theorem mem_allNodes_of_get? {n : String} {e : Expr} (h : q.identifiers.get? n = some e) :
    e ∈ q.allNodes :=
  mem_append_left _ (mem_append_left _
    (mem_flatMap.2 ⟨(n, e), NameMap.get?_eq_some_iff.1 h, Expr.mem_nodes_self e⟩))

theorem mem_signatureTypes_iff :
    t ∈ p.signatureTypes ↔ ∃ n sig, p.signatures.get? n = some sig ∧ t ∈ sig.types := by
  unfold signatureTypes
  rw [mem_flatMap]
  constructor
  · rintro ⟨⟨n, sig⟩, hmem, ht⟩
    exact ⟨n, sig, NameMap.get?_eq_some_iff.2 hmem, ht⟩
  · rintro ⟨n, sig, hget, ht⟩
    exact ⟨(n, sig), NameMap.get?_eq_some_iff.1 hget, ht⟩

/-- The enumerations that are declared, and those that are written in declarations. -/
def Knows (p : Program) (n : String) : Prop :=
  p.enums.contains n = true ∨ n ∈ p.signatureTypes.filterMap Ty.enumeration?

/-- The signatures of a program name what the program declares or what they write. -/
theorem WellMade.signatureTyped (hp : p.WellMade tokens)
    (hnames : ∀ n, p.signatures.contains n → P (.function n) ∧ P (.action n))
    (htypes : ∀ n, p.Knows n → P (.user n)) (hsig : p.signatures.get? n = some sig) :
    Typing.SignatureTyped P n sig := by
  obtain ⟨hfunction, haction⟩ := hnames n (NameMap.contains_eq_true_iff.2 ⟨sig, hsig⟩)
  have hname := hp.keyed n sig hsig
  have hwritten : ∀ t ∈ sig.types, (t.Over fun u => (∃ m, u = .user m) ∨ u = .action n) →
      t.Over P := by
    intro t ht hover
    refine Ty.over_of_enumeration? hover haction fun m hm => htypes m (.inr ?_)
    exact mem_filterMap.2 ⟨t, mem_signatureTypes_iff.2 ⟨n, sig, hsig, ht⟩, hm⟩
  have henum : sig.declares = .enum → P (.user n) := fun h =>
    htypes n (.inl ((hp.enumerates n).2 ⟨sig, hsig, by simp [h]⟩))
  refine ⟨hwritten _ mem_cons_self ?_, fun q hq => ?_, fun t ht => ?_, ?_, fun h => ?_⟩
  · exact hname ▸ (hp.written n sig hsig).ty
  · refine hwritten _ (mem_cons_of_mem _ (List.mem_map_of_mem hq)) ?_
    exact Ty.Over.mono (fun _ => .inl) ((hp.written n sig hsig).params q hq).1
  · unfold Signature.fixedTy? at ht
    split at ht
    · cases ht
      exact haction
    · rename_i hdeclares
      cases ht
      exact henum hdeclares
    · obtain ⟨-, ht⟩ := ite_none_right_eq_some.1 ht
      cases ht
      exact hfunction
  · rw [hname]
    exact haction
  · rw [hname]
    exact henum h

/-- The parts of an analyzed program are within limits that allow the names in its text.  Only the
action of its ticker sees the time step. -/
theorem allows_of_analyze {L : Expr.Limits} [L.Closed] (hparse : Program.parse tokens = .ok p)
    (hnames : ∀ n, Token.Spells tokens n → L.name n) (h : p.analyze.outcome = .ok q) :
    (∀ x ∈ q.withoutTick.allNodes, L.Allows x) ∧ (L.time → ∀ x ∈ q.allNodes, L.Allows x) := by
  obtain ⟨-, hrest, hall⟩ := Typing.typed_of_analyze (P := fun _ => True) (shaped_of_parse hparse)
    hnames (fun n sig hsig => (wellMade_of_parse hparse).signatureTyped
      (fun _ _ => ⟨trivial, trivial⟩) (fun _ _ => trivial) hsig) h
  exact ⟨fun x hx => (hrest x hx).2, fun htime x hx => (hall htime x hx).2⟩

/-- What a signature writes is still there after the analysis. -/
theorem mem_signatureTypes_of_grows {s : Typing.State} (hgrows : Typing.Grows (Typing.start p) s)
    (hq : q.signatures = s.signatures) (ht : t ∈ p.signatureTypes) (hn : t.enumeration? = some n) :
    t ∈ q.signatureTypes := by
  obtain ⟨m, sig, hsig, ht⟩ := mem_signatureTypes_iff.1 ht
  rcases mem_cons.1 ht with rfl | ht
  · -- A type that names something is known, so it is not inferred.
    have hknown : sig.ty.isUnknown = false := by
      cases hty : sig.ty <;> simp_all [Ty.isUnknown, Ty.enumeration?]
    have hget := hgrows.known m sig hsig hknown
    exact mem_signatureTypes_iff.2 ⟨m, sig, hq ▸ hget, mem_cons_self⟩
  · have hstatic := hgrows.progress.static m
    have hstart : (Typing.start p).signatures.get? m = some sig := hsig
    rw [hstart, map_some, map_eq_some_iff] at hstatic
    obtain ⟨sig', hsig', hbare⟩ := hstatic
    have hparams : sig'.bare.paramList = sig.bare.paramList := by rw [hbare]
    change sig'.paramList = sig.paramList at hparams
    refine mem_signatureTypes_iff.2 ⟨m, sig', hq ▸ hsig', mem_cons_of_mem _ ?_⟩
    rw [hparams]
    exact ht

/-- A type of an analyzed program names an enumeration that is not declared if and only if the
type of a declaration or of a parameter is written with its name. -/
theorem undeclared_iff_written (hparse : Program.parse tokens = .ok p)
    (h : p.analyze.outcome = .ok q) {n : String} (hn : q.enums.contains n = false) :
    n ∈ q.types.filterMap Ty.enumeration? ↔ n ∈ p.signatureTypes.filterMap Ty.enumeration? := by
  have hmade := wellMade_of_parse hparse
  obtain ⟨⟨s, hgrows, htyped, hsignatures, -⟩, -, hnodes⟩ := Typing.typed_of_analyze
    (shaped_of_parse hparse) (P := Ty.Among p.Knows) (L := ⟨True, fun _ => True, fun _ => True⟩)
    (fun _ _ => trivial) (fun n sig hsig => hmade.signatureTyped (fun _ _ => ⟨nofun, nofun⟩)
      (fun m hm k hk => Ty.user.inj hk ▸ hm) hsig) h
  have henums : q.enums = p.enums := by
    obtain ⟨-, -, -, -, hlift⟩ := Typing.exists_completed h
    exact hlift.enums
  constructor
  · intro hmem
    obtain ⟨t, ht, hname⟩ := mem_filterMap.1 hmem
    have hover : t.Over (Ty.Among p.Knows) := by
      rcases mem_append.1 ht with ht | ht
      · obtain ⟨m, sig, hsig, ht⟩ := mem_signatureTypes_iff.1 ht
        have hsigTyped := htyped.signature m sig (hsignatures ▸ hsig)
        rcases mem_cons.1 ht with rfl | ht
        · exact hsigTyped.ty
        · obtain ⟨param, hparam, rfl⟩ := List.mem_map.1 ht
          exact hsigTyped.params param hparam
      · obtain ⟨x, hx, rfl⟩ := List.mem_map.1 ht
        exact (hnodes trivial x hx).1.ty
    refine (Ty.over_among_iff.1 hover n hname).resolve_left fun hdeclared => ?_
    rw [henums, hdeclared] at hn
    cases hn
  · intro hmem
    obtain ⟨t, ht, hname⟩ := mem_filterMap.1 hmem
    refine mem_filterMap.2 ⟨t, mem_append_left _ ?_, hname⟩
    exact mem_signatureTypes_of_grows hgrows hsignatures ht hname

/-- A parameter of a misspelled type beside a value of the type that is declared. -/
theorem undeclared_iff_written_misspelled :
    let tokens := Token.ofText "enum Dir \x7b Up \x7d let f(a: Dri) = a; let d = Dir.Up;"
    ∃ p q, Program.parse tokens = .ok p ∧ p.analyze.outcome = .ok q ∧
      q.enums.contains "Dri" = false ∧
      q.types.filterMap Ty.enumeration? = ["Dir", "Dir", "Dri", "Dri", "Dir", "Dri"] ∧
      ("Dri" ∈ q.types.filterMap Ty.enumeration? ↔
        "Dri" ∈ p.signatureTypes.filterMap Ty.enumeration?) := by
  intro tokens
  obtain ⟨p, hp, q, hq, henums, htypes⟩ : ∃ p, Program.parse tokens = .ok p ∧
      ∃ q, p.analyze.outcome = .ok q ∧ q.enums.contains "Dri" = false ∧
        q.types.filterMap Ty.enumeration? = ["Dir", "Dir", "Dri", "Dri", "Dir", "Dri"] := by
    decide +kernel
  exact ⟨p, q, hp, hq, henums, htypes, undeclared_iff_written hp hq henums⟩

/-- A type that is not declared is the type of a parameter, a function and an expression. -/
theorem parameter_of_undeclared_type :
    let tokens := Token.ofText "let f(a: Foo) = a;"
    ∃ p q, Program.parse tokens = .ok p ∧ p.analyze.outcome = .ok q ∧
      q.enums.contains "Foo" = false ∧
      q.signatureTypes = [.user "Foo", .user "Foo"] ∧ q.allNodes.map Expr.ty = [.user "Foo"] := by
  intro tokens
  simp only [exists_and_left]
  decide +kernel

end Program

end Diagram
