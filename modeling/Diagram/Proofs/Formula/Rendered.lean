import Diagram.Proofs.Formula.Ready

/-!
# What expressions and actions are rendered as

The formulas of expressions and actions, said once by the way they are put together.  What holds
of every formula follows by induction on `Rendered` and `Enacted`.

Main statements: `Rendered.of_clause`, `Enacted.of_ofAction`.
-/

namespace Diagram

namespace Formula

def Clause.filtering (list : Clause) (condition : Formula) : Formula :=
  match list with
  | .comprehension _ bindings => Formula.comprehension condition (sequence bindings)
  | _ => condition

/-- A call of an action.  One without parameters is written as the bare name. -/
def actionCall (sigs : Signatures) (name : String) (args : List Formula) : Formula :=
  if args.isEmpty && isBareCall sigs name then ofName name else call (ofName name) (sequence args)

mutual

inductive Rendered (sigs : Signatures) : Expr → Clause → Prop
  | literal {info v} : Rendered sigs (.literal info v) (.plain (ofValue v))
  | name {info n} : Rendered sigs (.name info n) (.plain (ofName n))
  | timeStep {info} : Rendered sigs (.timeStep info) (.plain (word Expr.timeStepName))
  | listFill {info item count i c} (hitem : Rendered sigs item i)
      (hcount : Rendered sigs count c) :
      Rendered sigs (.operator info .listFill [item, count]) (.plain (fill i.formula c.formula))
  | listMap {info body x source b s} (hsource : Rendered sigs source s)
      (hbody : Rendered sigs body b) :
      Rendered sigs (.operator info .listMap [body, x, source])
        (.comprehension b.item (equality (ofName (writtenName x)) s.formula :: b.equations))
  | listFilter {info list condition l c} (hlist : Rendered sigs list l)
      (hcondition : Rendered sigs condition c) :
      Rendered sigs (.operator info .listFilter [list, condition])
        (.plain (index l.formula (equality (l.filtering c.formula) (decimal 1))))
  | range {info op operands fs f} (hop : op = .exclusiveRange ∨ op = .inclusiveRange)
      (hoperands : RenderedAll sigs operands fs) (hrange : range op operands fs = .ok f) :
      Rendered sigs (.operator info op operands) (.plain f)
  | memberAccess {info subject member s c rest} (hsubject : Rendered sigs subject s)
      (hmember : (writtenName member).toList = c :: rest) :
      Rendered sigs (.operator info .memberAccess [subject, member])
        (.plain (joined .member s.formula (letter c)))
  | builtIn {info name rest} :
      Rendered sigs (.operator info .builtIn (name :: rest)) (.plain (command (writtenName name)))
  | actionCall {info callee args fs} (hargs : RenderedAll sigs args fs) :
      Rendered sigs (.operator info .actionCall (callee :: args))
        (.plain (actionCall sigs (writtenName callee) fs))
  | withBinding {info body bindings b bs} (hbody : Rendered sigs body b)
      (hbindings : Rendered sigs bindings bs) :
      Rendered sigs (.operator info .withBinding [body, bindings]) (.bound b.formula bs.bindings)
  | call {info callee args c fs} (hcallee : Rendered sigs callee c)
      (hargs : RenderedAll sigs args fs) :
      Rendered sigs (.operator info .call (callee :: args))
        (.plain (definitionCall sigs callee c.formula fs))
  | uniform {info op operands fs f} (hop : isUniform op = true)
      (hoperands : RenderedAll sigs operands fs) (hoperation : operation op fs = .ok f) :
      Rendered sigs (.operator info op operands) (.plain f)

inductive RenderedAll (sigs : Signatures) : List Expr → List Formula → Prop
  | nil : RenderedAll sigs [] []
  | cons {e es c fs} (hhead : Rendered sigs e c) (htail : RenderedAll sigs es fs) :
      RenderedAll sigs (e :: es) (c.formula :: fs)

end

variable {sigs : Signatures} {op : Operation} {fs : List Formula} {f : Formula} {es : List Expr}
  {c : Clause} {e : Expr}

theorem takes_of_operation (h : operation op fs = .ok f) (hop : op ≠ .pointLiteral) :
    op.takes fs.length := by
  unfold operation at h
  split at h <;> first | rfl | cases h
  exact absurd rfl hop

theorem RenderedAll.of_ofExprs (h : ∀ e ∈ es, ∀ c, clause sigs e = .ok c → Rendered sigs e c)
    (hfs : ofExprs sigs es = .ok fs) : RenderedAll sigs es fs := by
  induction es generalizing fs with
  | nil =>
    cases hfs
    exact .nil
  | cons e es ih =>
    obtain ⟨he, hes⟩ := List.forall_mem_cons.1 h
    obtain ⟨c, hc, hfs⟩ := bind_ok_iff.1 hfs
    obtain ⟨rest, hrest, hfs⟩ := bind_ok_iff.1 hfs
    cases hfs
    exact .cons (he c hc) (ih hes hrest)

theorem Rendered.of_clause_operator {info : Info} {operands : List Expr}
    (h : ∀ e ∈ operands, ∀ c, clause sigs e = .ok c → Rendered sigs e c)
    (hc : clause sigs (.operator info op operands) = .ok c) :
    Rendered sigs (.operator info op operands) c := by
  by_cases huniform : isUniform op = true
  · rw [clause_of_isUniform huniform] at hc
    obtain ⟨fs, hfs, hc⟩ := bind_ok_iff.1 hc
    obtain ⟨f, hf, hc⟩ := bind_ok_iff.1 hc
    cases hc
    exact .uniform huniform (.of_ofExprs h hfs) hf
  unfold clause at hc
  cases op with
  | listFill =>
    dsimp only at hc
    split at hc
    case h_2 => cases hc
    case h_1 item count =>
      obtain ⟨i, hi, hc⟩ := bind_ok_iff.1 hc
      obtain ⟨n, hn, hc⟩ := bind_ok_iff.1 hc
      cases hc
      exact .listFill (h item (by simp) i hi) (h count (by simp) n hn)
  | listMap =>
    dsimp only at hc
    split at hc
    case h_2 => cases hc
    case h_1 body x source =>
      obtain ⟨s, hs, hc⟩ := bind_ok_iff.1 hc
      obtain ⟨b, hb, hc⟩ := bind_ok_iff.1 hc
      cases hc
      exact .listMap (h source (by simp) s hs) (h body (by simp) b hb)
  | listFilter =>
    dsimp only at hc
    split at hc
    case h_2 => cases hc
    case h_1 list condition =>
      obtain ⟨l, hl, hc⟩ := bind_ok_iff.1 hc
      obtain ⟨b, hb, hc⟩ := bind_ok_iff.1 hc
      cases hc
      exact .listFilter (h list (by simp) l hl) (h condition (by simp) b hb)
  | exclusiveRange | inclusiveRange =>
    obtain ⟨fs, hfs, hc⟩ := bind_ok_iff.1 hc
    obtain ⟨f, hf, hc⟩ := bind_ok_iff.1 hc
    cases hc
    exact .range (by simp) (.of_ofExprs h hfs) hf
  | memberAccess =>
    dsimp only at hc
    split at hc
    case h_2 => cases hc
    case h_1 subject member =>
      obtain ⟨s, hs, hc⟩ := bind_ok_iff.1 hc
      split at hc
      case h_2 => cases hc
      case h_1 c rest hmember =>
        cases hc
        exact .memberAccess (h subject (by simp) s hs) hmember
  | builtIn =>
    dsimp only at hc
    split at hc
    case h_2 => cases hc
    case h_1 => cases hc; exact .builtIn
  | actionCall =>
    dsimp only at hc
    split at hc
    case h_2 => cases hc
    case h_1 callee args =>
      obtain ⟨fs, hfs, hc⟩ := bind_ok_iff.1 hc
      have hrendered : c = .plain (Formula.actionCall sigs (writtenName callee) fs) := by
        unfold Formula.actionCall
        split at hc <;> cases hc
        · rename_i hbare
          rw [if_pos hbare]
        · rename_i hbare
          rw [if_neg hbare]
      rw [hrendered]
      exact .actionCall (.of_ofExprs (List.forall_mem_cons.1 h).2 hfs)
  | withBinding =>
    dsimp only at hc
    split at hc
    case h_2 => cases hc
    case h_1 body bindings =>
      obtain ⟨b, hb, hc⟩ := bind_ok_iff.1 hc
      obtain ⟨bs, hbs, hc⟩ := bind_ok_iff.1 hc
      cases hc
      exact .withBinding (h body (by simp) b hb) (h bindings (by simp) bs hbs)
  | call =>
    dsimp only at hc
    split at hc
    case h_2 => cases hc
    case h_1 callee args =>
      obtain ⟨d, hd, hc⟩ := bind_ok_iff.1 hc
      obtain ⟨fs, hfs, hc⟩ := bind_ok_iff.1 hc
      cases hc
      exact .call (h callee (by simp) d hd) (.of_ofExprs (List.forall_mem_cons.1 h).2 hfs)
  | _ => exact absurd rfl huniform

theorem Rendered.of_clause (h : clause sigs e = .ok c) : Rendered sigs e c := by
  induction e using Expr.operandInduction generalizing c with
  | literal info v => cases h; exact .literal
  | name info n => cases h; exact .name
  | timeStep info => cases h; exact .timeStep
  | operator info op operands ih => exact .of_clause_operator (fun e he c => ih e he) h

theorem exists_rendered (h : ofExpr sigs e = .ok f) : ∃ c, Rendered sigs e c ∧ f = c.formula := by
  obtain ⟨c, hc, rfl⟩ := map_ok_iff.1 h
  exact ⟨c, .of_clause hc, rfl⟩

mutual

/-- What an action is rendered as. -/
inductive Enacted (sigs : Signatures) : Action → Formula → Prop
  | block {actions fs} (hactions : EnactedAll sigs actions fs) :
      Enacted sigs (.block actions) (tuple fs)
  | update {target value t v} (htarget : Rendered sigs target t) (hvalue : Rendered sigs value v) :
      Enacted sigs (.update target value) (joined .arrow t.formula v.formula)
  | call {callee args fs} (hargs : RenderedAll sigs args fs) :
      Enacted sigs (.call callee args) (actionCall sigs (writtenName callee) fs)
  | conditional {arms fs} (harms : EnactedArms sigs arms fs) :
      Enacted sigs (.conditional arms .hole) (piecewise fs)
  | conditionalElse {arms default fs f} (harms : EnactedArms sigs arms fs)
      (hdefault : Enacted sigs default f) :
      Enacted sigs (.conditional arms default) (piecewise (fs ++ [f]))

/-- What some actions are rendered as. -/
inductive EnactedAll (sigs : Signatures) : List Action → List Formula → Prop
  | nil : EnactedAll sigs [] []
  | cons {a as f fs} (hhead : Enacted sigs a f) (htail : EnactedAll sigs as fs) :
      EnactedAll sigs (a :: as) (f :: fs)

/-- What the branches of a conditional action are rendered as. -/
inductive EnactedArms (sigs : Signatures) : List (Expr × Action) → List Formula → Prop
  | nil : EnactedArms sigs [] []
  | cons {condition body rest c f fs} (hcondition : Rendered sigs condition c)
      (hbody : Enacted sigs body f) (hrest : EnactedArms sigs rest fs) :
      EnactedArms sigs ((condition, body) :: rest) (branch (equality c.formula (decimal 1)) f :: fs)

end

theorem renderedAll_of_ofExprs (h : ofExprs sigs es = .ok fs) : RenderedAll sigs es fs :=
  .of_ofExprs (fun _ _ _ => .of_clause) h

mutual

theorem Enacted.of_ofAction {a f} (h : ofAction sigs a = .ok f) : Enacted sigs a f := by
  match a with
  | .hole => cases h
  | .block actions =>
    obtain ⟨fs, hfs, rfl⟩ := map_ok_iff.1 h
    exact .block (.of_ofActions hfs)
  | .update target value =>
    obtain ⟨t, ht, h⟩ := bind_ok_iff.1 h
    obtain ⟨v, hv, h⟩ := bind_ok_iff.1 h
    obtain ⟨c, hc, rfl⟩ := exists_rendered ht
    obtain ⟨d, hd, rfl⟩ := exists_rendered hv
    cases h
    exact .update hc hd
  | .call callee args =>
    obtain ⟨fs, hfs, h⟩ := bind_ok_iff.1 h
    have hf : f = actionCall sigs (writtenName callee) fs := by
      unfold actionCall
      dsimp only at h
      split at h <;> cases h
      · rename_i hbare
        rw [if_pos hbare]
      · rename_i hbare
        rw [if_neg hbare]
    rw [hf]
    exact .call (renderedAll_of_ofExprs hfs)
  | .conditional arms default =>
    unfold ofAction at h
    obtain ⟨fs, hfs, h⟩ := bind_ok_iff.1 h
    split at h
    · cases h
      exact .conditional (.of_ofArms hfs)
    · obtain ⟨g, hg, h⟩ := bind_ok_iff.1 h
      cases h
      exact .conditionalElse (.of_ofArms hfs) (.of_ofAction hg)

theorem EnactedAll.of_ofActions {as fs} (h : ofActions sigs as = .ok fs) :
    EnactedAll sigs as fs := by
  match as with
  | [] =>
    cases h
    exact .nil
  | a :: as =>
    obtain ⟨f, hf, h⟩ := bind_ok_iff.1 h
    obtain ⟨fs, hfs, h⟩ := bind_ok_iff.1 h
    cases h
    exact .cons (.of_ofAction hf) (.of_ofActions hfs)

theorem EnactedArms.of_ofArms {arms fs} (h : ofArms sigs arms = .ok fs) :
    EnactedArms sigs arms fs := by
  match arms with
  | [] =>
    cases h
    exact .nil
  | (condition, body) :: rest =>
    obtain ⟨c, hc, h⟩ := bind_ok_iff.1 h
    obtain ⟨f, hf, h⟩ := bind_ok_iff.1 h
    obtain ⟨fs, hfs, h⟩ := bind_ok_iff.1 h
    obtain ⟨c', hc', rfl⟩ := exists_rendered hc
    cases h
    exact .cons hc' (.of_ofAction hf) (.of_ofArms hfs)

end

end Formula

end Diagram
