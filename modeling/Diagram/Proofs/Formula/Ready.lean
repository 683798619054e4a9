import Diagram.Formula.OfExpr
import Diagram.Proofs.Program.Shape
import Mathlib.Data.List.Basic

/-!
# Trees that have a formula

An expression has a formula if each of its operations has as many operands as it takes and the
members of points have names; behind a body there are only bindings.  An action without holes has one
if its expressions do.

Main statements: `Expr.Ready.exists_ofExpr`, `Action.Whole.exists_ofAction`.
-/

namespace Diagram

open List Formula

theorem exists_single {α : Type} {as : List α} (h : (as.length == 1)) : ∃ a, as = [a] :=
  length_eq_one_iff.1 (beq_iff_eq.1 h)

theorem exists_pair {α : Type} {as : List α} (h : (as.length == 2)) : ∃ a b, as = [a, b] :=
  length_eq_two.1 (beq_iff_eq.1 h)

/-- The bindings behind a body: one of a name, or two groups of them. -/
inductive Expr.IsBindings : Expr → Prop
  | single {info target n value} : IsBindings (.operator info .assignment [.name target n, value])
  | group {info left right} (hleft : IsBindings left) (hright : IsBindings right) :
      IsBindings (.operator info .withBinding [left, right])

/-- The operands of an operation are as many as it takes, the member of a point has a name, and
what stands behind a body are bindings. -/
structure Operation.Fits (op : Operation) (operands : List Expr) : Prop where
  takes : op.takes operands.length = true
  member : op = .memberAccess → ∀ member ∈ operands[1]?, ∃ n, member.name? = some n ∧ n ≠ ""
  bindings : op = .withBinding → ∀ bindings ∈ operands[1]?, bindings.IsBindings

theorem Operation.fits_of_takes {op : Operation} {operands : List Expr}
    (htakes : op.takes operands.length) (hop : op ≠ .memberAccess ∧ op ≠ .withBinding) :
    op.Fits operands :=
  ⟨htakes, fun h => absurd h hop.1, fun h => absurd h hop.2⟩

/-- An expression all of whose operations fit their operands. -/
inductive Expr.Ready : Expr → Prop
  | literal {info v} : Ready (.literal info v)
  | name {info n} : Ready (.name info n)
  | timeStep {info} : Ready (.timeStep info)
  | operator {info op operands} (hfits : op.Fits operands) (hoperands : ∀ e ∈ operands, Ready e) :
      Ready (.operator info op operands)

/-- A computation that may fail succeeds if its first part does and what follows does. -/
theorem exists_ok_bind {ε α β : Type} {x : Except ε α} {f : α → Except ε β}
    (hx : ∃ a, x = .ok a) (hf : ∀ a, x = .ok a → ∃ b, f a = .ok b) : ∃ b, (x >>= f) = .ok b := by
  obtain ⟨a, rfl⟩ := hx
  exact hf a rfl

namespace Formula

variable {sigs : Signatures} {es operands : List Expr} {fs : List Formula} {op : Operation}
  {info : Info}

theorem exists_ofExprs (h : ∀ e ∈ es, ∃ c, clause sigs e = .ok c) :
    ∃ fs, ofExprs sigs es = .ok fs := by
  induction es with
  | nil => exact ⟨[], rfl⟩
  | cons e es ih =>
    obtain ⟨he, hes⟩ := forall_mem_cons.1 h
    exact exists_ok_bind he fun c _ => exists_ok_bind (ih hes) fun fs _ => ⟨_, rfl⟩

theorem length_ofExprs (h : ofExprs sigs es = .ok fs) : fs.length = es.length := by
  induction es generalizing fs with
  | nil =>
    cases h
    rfl
  | cons e es ih =>
    obtain ⟨c, -, h⟩ := bind_ok_iff.1 h
    obtain ⟨rest, hrest, h⟩ := bind_ok_iff.1 h
    cases h
    simp [ih hrest]

theorem exists_rangeItems {starts : List Formula} (h : starts ≠ []) (stop : Formula) :
    ∃ items, rangeItems starts stop = some items := by
  induction starts with
  | nil => exact absurd rfl h
  | cons a rest ih =>
    cases rest with
    | nil => exact ⟨_, rfl⟩
    | cons b rest =>
      obtain ⟨items, hitems⟩ := ih (by simp)
      exact ⟨a :: items, by simp [rangeItems, hitems]⟩

theorem exists_range (hlength : fs.length = operands.length) (hcount : 2 ≤ operands.length) :
    ∃ f, range op operands fs = .ok f := by
  have hoperands : operands ≠ [] := by
    rintro rfl
    simp at hcount
  have hfs : fs ≠ [] := by
    rintro rfl
    simp at hlength
    omega
  have hstarts : fs.dropLast ≠ [] := by
    intro hnil
    have hdrop : fs.dropLast.length = fs.length - 1 := length_dropLast
    rw [hnil] at hdrop
    simp at hdrop
    omega
  obtain ⟨items, hitems⟩ := exists_rangeItems hstarts
    (rangeEnd op (operands.getLast hoperands) (fs.getLast hfs))
  exact ⟨list items, by
    simp [range, getLast?_eq_some_getLast hoperands, getLast?_eq_some_getLast hfs, hitems]⟩

/-- The operations whose formula is made of those of their operands alone. -/
def isUniform : Operation → Bool
  | .listFill | .listMap | .listFilter | .exclusiveRange | .inclusiveRange | .memberAccess
  | .builtIn | .actionCall | .withBinding | .call => false
  | _ => true

theorem exists_operation (hop : isUniform op) (htakes : op.takes fs.length) :
    ∃ f, operation op fs = .ok f := by
  cases op with
  | pointLiteral | listLiteral | conditional => exact ⟨_, rfl⟩
  | posate | negate | not =>
    obtain ⟨a, rfl⟩ := exists_single htakes
    exact ⟨_, rfl⟩
  | index | exponent | multiply | divide | modulus | add | subtract | lessThan | greaterThan
  | lessEqual | greaterEqual | equal | notEqual | and | or | assignment | update =>
    obtain ⟨a, b, rfl⟩ := exists_pair htakes
    exact ⟨_, rfl⟩
  | other n => cases htakes
  | _ => cases hop

theorem clause_of_isUniform (hop : isUniform op) :
    clause sigs (.operator info op operands) = (do
      let fs ← ofExprs sigs operands
      let f ← operation op fs
      return .plain f) := by
  cases op <;> first | rfl | cases hop

theorem exists_clause_operator (hfits : op.Fits operands)
    (h : ∀ e ∈ operands, ∃ c, clause sigs e = .ok c) :
    ∃ c, clause sigs (.operator info op operands) = .ok c := by
  have htakes := hfits.takes
  -- Most operations only put the formulas of their operands together.
  by_cases huniform : isUniform op = true
  · rw [clause_of_isUniform huniform]
    refine exists_ok_bind (exists_ofExprs h) fun fs hfs => ?_
    have hcount : op.takes fs.length = true := by rw [length_ofExprs hfs]; exact htakes
    exact exists_ok_bind (exists_operation huniform hcount) fun f _ => ⟨_, rfl⟩
  cases op with
  | listFill =>
    obtain ⟨item, count, rfl⟩ := exists_pair htakes
    refine exists_ok_bind (h item (by simp)) fun _ _ => ?_
    exact exists_ok_bind (h count (by simp)) fun _ _ => ⟨_, rfl⟩
  | listMap =>
    obtain ⟨body, bound, source, rfl⟩ := length_eq_three.1 (beq_iff_eq.1 htakes)
    refine exists_ok_bind (h source (by simp)) fun _ _ => ?_
    exact exists_ok_bind (h body (by simp)) fun _ _ => ⟨_, rfl⟩
  | listFilter =>
    obtain ⟨list, condition, rfl⟩ := exists_pair htakes
    refine exists_ok_bind (h list (by simp)) fun _ _ => ?_
    exact exists_ok_bind (h condition (by simp)) fun _ _ => ⟨_, rfl⟩
  | exclusiveRange | inclusiveRange =>
    refine exists_ok_bind (exists_ofExprs h) fun fs hfs => ?_
    have hcount : 2 ≤ operands.length := of_decide_eq_true htakes
    exact exists_ok_bind (exists_range (length_ofExprs hfs) hcount) fun _ _ => ⟨_, rfl⟩
  | memberAccess =>
    obtain ⟨subject, member, rfl⟩ := exists_pair htakes
    -- A member is written by the first character of its name.
    obtain ⟨n, hname, hne⟩ := hfits.member rfl member rfl
    cases member with
    | name memberInfo n' =>
      cases hname
      refine exists_ok_bind (h subject (by simp)) fun _ _ => ?_
      cases hchars : n.toList with
      | nil => exact absurd (String.toList_eq_nil_iff.1 hchars) hne
      | cons c cs => exact ⟨_, by simp only [writtenName, hchars]; rfl⟩
    | _ => cases hname
  | builtIn =>
    obtain ⟨name, rfl⟩ := exists_single htakes
    exact ⟨_, rfl⟩
  | actionCall =>
    obtain ⟨callee, args, rfl⟩ := exists_cons_of_length_pos (of_decide_eq_true htakes)
    refine exists_ok_bind (exists_ofExprs (forall_mem_cons.1 h).2) fun fs _ => ?_
    dsimp only
    split <;> exact ⟨_, rfl⟩
  | withBinding =>
    obtain ⟨body, bindings, rfl⟩ := exists_pair htakes
    refine exists_ok_bind (h body (by simp)) fun _ _ => ?_
    exact exists_ok_bind (h bindings (by simp)) fun _ _ => ⟨_, rfl⟩
  | call =>
    obtain ⟨callee, args, rfl⟩ := exists_cons_of_length_pos (of_decide_eq_true htakes)
    refine exists_ok_bind (h callee (by simp)) fun _ _ => ?_
    exact exists_ok_bind (exists_ofExprs (forall_mem_cons.1 h).2) fun _ _ => ⟨_, rfl⟩
  | _ => exact absurd rfl huniform

end Formula

variable {e : Expr}

theorem Expr.Ready.exists_clause (h : e.Ready) (sigs : Signatures) :
    ∃ c, clause sigs e = .ok c := by
  induction h with
  | operator hfits _ ih => exact exists_clause_operator hfits ih
  | _ => exact ⟨_, rfl⟩

/-- Every expression whose operations fit their operands has a formula. -/
theorem Expr.Ready.exists_ofExpr (h : e.Ready) (sigs : Signatures) :
    ∃ f, ofExpr sigs e = .ok f := by
  obtain ⟨c, hc⟩ := h.exists_clause sigs
  exact ⟨c.formula, by simp [ofExpr, hc, Except.map]⟩

theorem Expr.Ready.exists_ofExprs {es : List Expr} (h : ∀ e ∈ es, e.Ready) (sigs : Signatures) :
    ∃ fs, ofExprs sigs es = .ok fs :=
  Formula.exists_ofExprs fun e he => (h e he).exists_clause sigs

namespace Formula

variable {sigs : Signatures}

theorem exists_ofActions {actions : List Action}
    (h : ∀ a ∈ actions, ∃ f, ofAction sigs a = .ok f) : ∃ fs, ofActions sigs actions = .ok fs := by
  induction actions with
  | nil => exact ⟨[], rfl⟩
  | cons a actions ih =>
    obtain ⟨ha, hactions⟩ := forall_mem_cons.1 h
    exact exists_ok_bind ha fun _ _ => exists_ok_bind (ih hactions) fun _ _ => ⟨_, rfl⟩

theorem exists_ofArms {arms : List (Expr × Action)} (hconditions : ∀ arm ∈ arms, arm.1.Ready)
    (hbodies : ∀ arm ∈ arms, ∃ f, ofAction sigs arm.2 = .ok f) :
    ∃ fs, ofArms sigs arms = .ok fs := by
  induction arms with
  | nil => exact ⟨[], rfl⟩
  | cons arm arms ih =>
    obtain ⟨hcondition, hconditions⟩ := forall_mem_cons.1 hconditions
    obtain ⟨hbody, hbodies⟩ := forall_mem_cons.1 hbodies
    refine exists_ok_bind (hcondition.exists_ofExpr sigs) fun _ _ => ?_
    refine exists_ok_bind hbody fun _ _ => ?_
    exact exists_ok_bind (ih hconditions hbodies) fun _ _ => ⟨_, rfl⟩

end Formula

theorem Action.Whole.exists_ofAction {a : Action} (h : a.Whole Expr.Ready) (sigs : Signatures) :
    ∃ f, ofAction sigs a = .ok f := by
  induction h with
  | block _ ih =>
    obtain ⟨fs, hfs⟩ := exists_ofActions ih
    exact ⟨_, by unfold ofAction; rw [hfs]; rfl⟩
  | update htarget hvalue =>
    refine exists_ok_bind (htarget.exists_ofExpr sigs) fun _ _ => ?_
    exact exists_ok_bind (hvalue.exists_ofExpr sigs) fun _ _ => ⟨_, rfl⟩
  | call _ hargs =>
    refine exists_ok_bind (Expr.Ready.exists_ofExprs hargs sigs) fun _ _ => ?_
    dsimp only
    split <;> exact ⟨_, rfl⟩
  | conditional hconditions _ ih =>
    exact exists_ok_bind (exists_ofArms hconditions ih) fun _ _ => ⟨_, rfl⟩
  | conditionalElse hconditions _ hdefault ih ihdefault =>
    unfold ofAction
    refine exists_ok_bind (exists_ofArms hconditions ih) fun _ _ => ?_
    split
    · nomatch hdefault
    · exact exists_ok_bind ihdefault fun _ _ => ⟨_, rfl⟩

/-- A program all of whose parts have formulas, and whose definitions and actions have
signatures. -/
structure Program.Ready (p : Program) : Prop where
  signed : ∀ n, p.identifiers.contains n = true → p.signatures.contains n = true
  actionSigned : ∀ n, p.actions.contains n = true → p.signatures.contains n = true
  identifiers : ∀ n e, p.identifiers.get? n = some e → e.Ready
  actions : ∀ n a, p.actions.get? n = some a → a.Whole Expr.Ready
  entries : ∀ es, p.entries = some es → ∀ e ∈ es, e.Ready
  interval : ∀ t e, p.ticker = some t → t.interval = some e → e.Ready
  tick : ∀ t, p.ticker = some t → t.action.Whole Expr.Ready
  display : ∀ es, p.display = some es → ∀ e ∈ es, e.Whole Expr.Ready Expr.Ready

end Diagram
