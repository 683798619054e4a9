import Diagram.Proofs.Formula.Rendered

/-!
# What holds of all formulas of expressions and actions

A property of formulas that passes from the parts of a formula to the whole holds of the formulas
of all expressions and actions, if it holds of what their names and constants are written as.

Main statements: `Formula.Built.operation`, `Formula.Composed.ofExpr`, `Formula.Composed.ofAction`.
-/

namespace Diagram

open List

mutual

/-- The strings of a constant, also inside of lists. -/
def Value.strings : Value → List String
  | .str s => [s]
  | .list _ items => Value.stringsOf items
  | _ => []

def Value.stringsOf : List Value → List String
  | [] => []
  | v :: vs => v.strings ++ Value.stringsOf vs

end

namespace Formula

/-- A property that passes from the parts of a formula to the whole, unless the whole binds a
name. -/
structure Built (P : Formula → Prop) : Prop where
  decimal : ∀ x, P (decimal x)
  command : ∀ name, name.toList.all Char.isAlphanum = true → P (command name)
  joined : ∀ {c f g}, c ∉ [.withBinding, .forEach, .adjacent] → P f → P g → P (joined c f g)
  ordered : ∀ {f r g}, P f → P g → P (ordered f r g [])
  positive : ∀ {f}, P f → P (positive f)
  negative : ∀ {f}, P f → P (negative f)
  call : ∀ {f g}, P f → P g → P (call f g)
  index : ∀ {f g}, P f → P g → P (index f g)
  bracketed : ∀ {b f}, P f → P (bracketed b f)
  superscript : ∀ {f g}, P f → P g → P (superscript f g)
  sequence : ∀ {fs}, (∀ f ∈ fs, P f) → P (sequence fs)
  fraction : ∀ {f g}, P f → P g → P (fraction f g)
  ellipsis : ∀ {f g}, P f → P g → P (ellipsis f (some g))

namespace Built

variable {P : Formula → Prop} (hP : Built P) {f g : Formula} {fs : List Formula} {op : Operation}

include hP

theorem equality (hf : P f) (hg : P g) : P (equality f g) :=
  hP.joined (by decide) hf hg

theorem branch (hf : P f) (hg : P g) : P (branch f g) :=
  hP.joined (by decide) hf hg

theorem commandCall {name : String} (hname : name.toList.all Char.isAlphanum)
    (hfs : ∀ f ∈ fs, P f) : P (commandCall name fs) :=
  hP.call (hP.command name hname) (hP.sequence hfs)

theorem ofVertex (v : Vertex) : P (ofVertex v) :=
  hP.bracketed (hP.sequence (by simp [hP.decimal]))

theorem branches (h : ∀ f ∈ fs, P f) : ∀ f ∈ branches fs, P f := by
  fun_induction Formula.branches fs with
  | case1 condition value rest ih =>
    simp only [forall_mem_cons] at h
    have hcondition := hP.equality h.1 (hP.decimal 1)
    exact forall_mem_cons.2 ⟨hP.branch hcondition h.2.1, ih h.2.2⟩
  | case2 rest _ => exact h

theorem operation (hfs : ∀ g ∈ fs, P g) (h : operation op fs = .ok f) : P f := by
  have hzero := hP.decimal 0
  have hone := hP.decimal 1
  have hcases : ∀ {f g : Formula}, P f → P g → P (piecewise [f, g]) :=
    fun hf hg => hP.bracketed (hP.sequence (by simpa using ⟨hf, hg⟩))
  have htakes := takes_of_operation h
  have hpair : op ≠ .pointLiteral → op.takes fs.length = (fs.length == 2) →
      ∃ a b, fs = [a, b] ∧ P a ∧ P b := by
    intro hop htwo
    obtain ⟨a, b, rfl⟩ := length_eq_two.1 (beq_iff_eq.1 (htwo.symm.trans (htakes hop)))
    exact ⟨a, b, rfl, by simpa using hfs⟩
  cases op with
  | pointLiteral | listLiteral =>
    cases h
    exact hP.bracketed (hP.sequence hfs)
  | conditional =>
    cases h
    exact hP.bracketed (hP.sequence (hP.branches hfs))
  | posate | negate | not =>
    obtain ⟨a, rfl⟩ := length_eq_one_iff.1 (beq_iff_eq.1 (htakes (by decide)))
    have ha := hfs a (by simp)
    cases h
    first
      | exact hP.bracketed (hP.positive ha)
      | exact hP.bracketed (hP.negative ha)
      | exact hcases (hP.equality ha hzero) hzero
  | multiply | add | subtract | divide | exponent | index | modulus | equal | notEqual | lessThan
  | greaterThan | lessEqual | greaterEqual | and | or | assignment | update =>
    obtain ⟨a, b, rfl, ha, hb⟩ := hpair (by decide) rfl
    cases h
    first
      | exact hP.bracketed (hP.joined (by decide) ha hb)
      | exact hP.fraction ha hb
      | exact hP.superscript ha hb
      | exact hP.index ha hb
      | exact hP.commandCall (by decide) hfs
      | exact hcases (hP.equality ha hb) hzero
      | exact hcases (hP.branch (hP.equality ha hb) hzero) hone
      | exact hcases (hP.ordered ha hb) hzero
      | exact hcases (hP.branch (hP.equality ha hzero) hzero) hb
      | exact hcases (hP.branch (hP.equality ha hone) hone) hb
      | exact hP.joined (by decide) ha hb
  | _ => cases h

theorem rangeEnd {last : Expr} (hf : P f) : P (rangeEnd op last f) := by
  unfold Formula.rangeEnd
  split
  · split
    · exact hP.decimal _
    · exact hP.bracketed (hP.joined (by decide) hf (hP.decimal 1))
  · exact hf

theorem rangeItems {starts items : List Formula} {stop : Formula} (hstarts : ∀ f ∈ starts, P f)
    (hstop : P stop) (h : rangeItems starts stop = some items) : ∀ f ∈ items, P f := by
  induction starts generalizing items with
  | nil => cases h
  | cons a rest ih =>
    obtain ⟨ha, hrest⟩ := forall_mem_cons.1 hstarts
    cases rest with
    | nil =>
      cases h
      exact forall_mem_singleton.2 (hP.ellipsis ha hstop)
    | cons b rest =>
      obtain ⟨items', hitems, rfl⟩ := Option.map_eq_some_iff.1 h
      exact forall_mem_cons.2 ⟨ha, ih hrest hitems⟩

theorem range {operands : List Expr} (hfs : ∀ g ∈ fs, P g) (h : range op operands fs = .ok f) :
    P f := by
  unfold Formula.range at h
  split at h
  case h_2 => cases h
  case h_1 last g _ hlast =>
    split at h
    case h_2 => cases h
    case h_1 items hitems =>
      cases h
      have hg := hfs g (mem_of_getLast? hlast)
      refine hP.bracketed (hP.sequence (hP.rangeItems ?_ (hP.rangeEnd hg) hitems))
      exact fun f hf => hfs f ((dropLast_sublist fs).subset hf)

variable {sigs : Signatures}

theorem definitionCall {callee : Expr} (hf : P f) (hfs : ∀ g ∈ fs, P g) :
    P (definitionCall sigs callee f fs) := by
  have hcall := hP.call hf (hP.sequence hfs)
  unfold Formula.definitionCall
  split
  · split
    · exact hf
    · exact hcall
  · exact hcall

theorem actionCall {name : String} (hname : P (ofName name)) (hfs : ∀ g ∈ fs, P g) :
    P (actionCall sigs name fs) := by
  unfold Formula.actionCall
  split
  · exact hname
  · exact hP.call hname (hP.sequence hfs)

end Built

variable {P : Formula → Prop} {sigs : Signatures}

mutual

theorem Built.ofValue (hP : Built P) : (v : Value) → (∀ s ∈ v.strings, P (word s)) → P (ofValue v)
  | .real _, _ | .int _, _ | .bool _, _ | .enum _ _ _, _ => hP.decimal _
  | .point v, _ => hP.ofVertex v
  | .ipoint _ _, _ => hP.ofVertex _
  | .color model a b c, _ => hP.commandCall (by cases model <;> decide) (by simp [hP.decimal])
  | .polygon vertices, _ => hP.commandCall (by decide) (by simp [hP.ofVertex])
  | .segment a b, _ => hP.commandCall (by decide) (by simp [hP.ofVertex])
  | .str s, h => h s (mem_singleton_self s)
  | .list _ items, h => hP.bracketed (hP.sequence (hP.ofValues items h))

theorem Built.ofValues (hP : Built P) : (vs : List Value) →
    (∀ s ∈ Value.stringsOf vs, P (word s)) → ∀ f ∈ ofValues vs, P f
  | [], _ => nofun
  | v :: vs, h => by
    obtain ⟨hv, hvs⟩ := forall_mem_append.1 h
    exact forall_mem_cons.2 ⟨hP.ofValue v hv, hP.ofValues vs hvs⟩

end

/-- A property that passes from the parts of a formula to the whole, whatever it binds. -/
structure Composed (P : Formula → Prop) : Prop extends Built P where
  withBinding : ∀ {f g}, P f → P g → P (.joined .withBinding f g)
  comprehension : ∀ {f gs}, P f → (∀ g ∈ gs, P g) → P (comprehension f (.sequence gs))
  fill : ∀ {f g}, P f → P g → P (fill f g)
  timeStep : P (word Expr.timeStepName)

/-- The property holds of what the name and the strings of a part of an expression are written
as. -/
structure Supplied (P : Formula → Prop) (x : Expr) : Prop where
  name : P (ofName (writtenName x))
  command : P (.command (writtenName x))
  letter : ∀ c ∈ (writtenName x).toList, P (.letter c)
  string : ∀ v, x.value? = some v → ∀ s ∈ v.strings, P (word s)

def Supplies (P : Formula → Prop) (e : Expr) : Prop :=
  ∀ x ∈ e.nodes, Supplied P x

def Clause.Has (P : Formula → Prop) : Clause → Prop
  | plain f => P f
  | comprehension f gs | bound f gs => P f ∧ ∀ g ∈ gs, P g

section Clauses

variable (hP : Composed P) {c : Clause} (h : c.Has P)

include hP h

theorem Clause.Has.formula : P c.formula := by
  cases c with
  | plain f => exact h
  | comprehension f gs => exact hP.comprehension h.1 h.2
  | bound f gs => exact hP.withBinding h.1 (hP.sequence h.2)

theorem Clause.Has.item : P c.item ∧ ∀ g ∈ c.equations, P g := by
  cases c with
  | comprehension f gs => exact h
  | _ => exact ⟨h.formula hP, nofun⟩

theorem Clause.Has.bindings : ∀ g ∈ c.bindings, P g := by
  cases c with
  | bound f gs => exact forall_mem_cons.2 h
  | _ => exact forall_mem_singleton.2 (h.formula hP)

theorem Clause.Has.filtering {f : Formula} (hf : P f) : P (c.filtering f) := by
  cases c with
  | comprehension g gs => exact hP.comprehension hf h.2
  | _ => exact hf

end Clauses

theorem Supplies.operands {info : Info} {op : Operation} {operands : List Expr}
    (h : Supplies P (.operator info op operands)) : ∀ e ∈ operands, Supplies P e :=
  Expr.forall_nodesOf_iff.1 (forall_mem_append.1 h).1

theorem Supplies.self {e : Expr} (h : Supplies P e) : Supplied P e :=
  h e (Expr.mem_nodes_self e)

mutual

/-- What an expression is rendered as has a property that its names and strings supply. -/
theorem Rendered.has (hP : Composed P) {e c} : Rendered sigs e c → Supplies P e → c.Has P
  | .literal, h => hP.ofValue _ (h.self.string _ rfl)
  | .name, h => h.self.name
  | .timeStep, _ => hP.timeStep
  | .listFill hitem hcount, h =>
      hP.fill ((hitem.has hP (h.operands _ (by simp))).formula hP)
        ((hcount.has hP (h.operands _ (by simp))).formula hP)
  | .listMap hsource hbody, h => by
    have hsource' := (hsource.has hP (h.operands _ (by simp))).formula hP
    have hbody' := (hbody.has hP (h.operands _ (by simp))).item hP
    have hname := (h.operands _ (mem_cons_of_mem _ mem_cons_self)).self.name
    exact ⟨hbody'.1, forall_mem_cons.2 ⟨hP.equality hname hsource', hbody'.2⟩⟩
  | .listFilter hlist hcondition, h => by
    have hlist' := hlist.has hP (h.operands _ (by simp))
    have hcondition' := (hcondition.has hP (h.operands _ (by simp))).formula hP
    exact hP.index (hlist'.formula hP)
      (hP.equality (hlist'.filtering hP hcondition') (hP.decimal 1))
  | .range _ hoperands hrange, h => hP.range (hoperands.has hP h.operands) hrange
  | .memberAccess hsubject hmember, h => by
    have hletter := (h.operands _ (by simp)).self.letter _ (hmember ▸ mem_cons_self)
    exact hP.joined (by decide) ((hsubject.has hP (h.operands _ (by simp))).formula hP) hletter
  | .builtIn, h => (h.operands _ mem_cons_self).self.command
  | .actionCall hargs, h => by
    obtain ⟨hcallee, hargs'⟩ := forall_mem_cons.1 h.operands
    exact hP.actionCall hcallee.self.name (hargs.has hP hargs')
  | .withBinding hbody hbindings, h =>
      ⟨(hbody.has hP (h.operands _ (by simp))).formula hP,
        (hbindings.has hP (h.operands _ (by simp))).bindings hP⟩
  | .call hcallee hargs, h => by
    obtain ⟨hcallee', hargs'⟩ := forall_mem_cons.1 h.operands
    exact hP.definitionCall ((hcallee.has hP hcallee').formula hP) (hargs.has hP hargs')
  | .uniform _ hoperands hoperation, h => hP.operation (hoperands.has hP h.operands) hoperation

theorem RenderedAll.has (hP : Composed P) {es fs} :
    RenderedAll sigs es fs → (∀ e ∈ es, Supplies P e) → ∀ f ∈ fs, P f
  | .nil, _ => nofun
  | .cons hhead htail, h => by
    obtain ⟨he, hes⟩ := forall_mem_cons.1 h
    exact forall_mem_cons.2 ⟨(hhead.has hP he).formula hP, htail.has hP hes⟩

end

mutual

/-- What an action is rendered as has a property that its names and strings supply. -/
theorem Enacted.has (hP : Composed P) {a f} : Enacted sigs a f → (∀ x ∈ a.nodes, Supplied P x) → P f
  | .block hactions, h => hP.bracketed (hP.sequence (hactions.has hP h))
  | .update htarget hvalue, h => by
    obtain ⟨ht, hv⟩ := forall_mem_append.1 h
    exact hP.joined (by decide) ((htarget.has hP ht).formula hP) ((hvalue.has hP hv).formula hP)
  | .call hargs, h => by
    obtain ⟨hcallee, hargs'⟩ := forall_mem_append.1 h
    exact hP.actionCall (Supplies.self hcallee).name
      (hargs.has hP (Expr.forall_nodesOf_iff.1 hargs'))
  | .conditional harms, h =>
      hP.bracketed (hP.sequence (harms.has hP (forall_mem_append.1 h).1))
  | .conditionalElse harms hdefault, h => by
    obtain ⟨harms', hdefault'⟩ := forall_mem_append.1 h
    refine hP.bracketed (hP.sequence (forall_mem_append.2 ⟨harms.has hP harms', ?_⟩))
    exact forall_mem_singleton.2 (hdefault.has hP hdefault')

theorem EnactedAll.has (hP : Composed P) {as fs} :
    EnactedAll sigs as fs → (∀ x ∈ Action.nodesOf as, Supplied P x) → ∀ f ∈ fs, P f
  | .nil, _ => nofun
  | .cons hhead htail, h => by
    obtain ⟨ha, has⟩ := forall_mem_append.1 h
    exact forall_mem_cons.2 ⟨hhead.has hP ha, htail.has hP has⟩

theorem EnactedArms.has (hP : Composed P) {arms fs} :
    EnactedArms sigs arms fs → (∀ x ∈ Action.branchNodes arms, Supplied P x) → ∀ f ∈ fs, P f
  | .nil, _ => nofun
  | .cons hcondition hbody hrest, h => by
    obtain ⟨harm, hrest'⟩ := forall_mem_append.1 h
    obtain ⟨hc, hb⟩ := forall_mem_append.1 harm
    have htruth := hP.equality ((hcondition.has hP hc).formula hP) (hP.decimal 1)
    exact forall_mem_cons.2 ⟨hP.branch htruth (hbody.has hP hb), hrest.has hP hrest'⟩

end

section Composed

variable (hP : Composed P) {f : Formula}

include hP

theorem Composed.ofExpr {e : Expr} (h : ∀ x ∈ e.nodes, Supplied P x)
    (hf : ofExpr sigs e = .ok f) : P f := by
  obtain ⟨c, hc, rfl⟩ := exists_rendered hf
  exact (hc.has hP h).formula hP

theorem Composed.ofAction {a : Action} (h : ∀ x ∈ a.nodes, Supplied P x)
    (hf : ofAction sigs a = .ok f) : P f :=
  (Enacted.of_ofAction hf).has hP h

end Composed

end Formula

end Diagram
