import Diagram.Proofs.Formula.Built
import Diagram.Proofs.Formula.Meaning
import Diagram.Proofs.Program.Scoped

/-!
# Target names of formulas

The target names that occur in a formula outside of the scope of a binding of that name.  The
equations behind `for` and `with` bind their left sides in what stands before them; their right
sides stand outside.

Main statements: `Formula.closed_ofExpr`, `Formula.closed_ofAction`.
-/

namespace Diagram.Formula

open List Option Clause

def target (w : String) : Formula :=
  subscript (letter baseLetter) (word w)

theorem ofName_eq_target (n : String) : ofName n = target (mangled n) := rfl

def target? : Formula → Option String
  | subscript (letter c) (word w) => if c = baseLetter then some w else none
  | _ => none

mutual

/-- The target names that equations bind. -/
def binders : Formula → List String
  | joined .equals lhs _ => lhs.target?.toList
  | joined .withBinding lhs rhs => lhs.binders ++ rhs.binders
  | sequence items => bindersOf items
  | _ => []

/-- The target names that some equations bind. -/
def bindersOf : List Formula → List String
  | [] => []
  | f :: fs => f.binders ++ bindersOf fs

end

mutual

/-- The target names that occur outside of the scope of a binding of that name.  The flag says
whether the formula stands where equations bind names. -/
def unbound (binding : Bool) : Formula → List String
  | joined .equals lhs rhs =>
    (if binding && lhs.target?.isSome then [] else lhs.unbound false) ++ rhs.unbound false
  | joined .withBinding lhs rhs =>
    if binding then lhs.unbound true ++ rhs.unbound true
    else (lhs.unbound false).filter (!rhs.binders.contains ·) ++ rhs.unbound true
  | joined .forEach lhs rhs =>
    (lhs.unbound false).filter (!rhs.binders.contains ·) ++ rhs.unbound true
  | joined _ lhs rhs => lhs.unbound false ++ rhs.unbound false
  | ordered lhs _ rhs links => lhs.unbound false ++ rhs.unbound false ++ unboundLinks links
  | positive value | negative value | factorial value | prime value => value.unbound false
  | call callee args => callee.unbound false ++ args.unbound false
  | index subject number => subject.unbound false ++ number.unbound false
  | bracketed _ content => content.unbound false
  | subscript base script =>
    match target? (subscript base script) with
    | some w => [w]
    | none => base.unbound false ++ script.unbound false
  | superscript base script => base.unbound false ++ script.unbound false
  | sequence items => unboundOf binding items
  | sqrt radicand => radicand.unbound false
  | nthRoot degree radicand => degree.unbound false ++ radicand.unbound false
  | fraction numerator denominator => numerator.unbound false ++ denominator.unbound false
  | mixed whole numerator denominator =>
    whole.unbound false ++ numerator.unbound false ++ denominator.unbound false
  | derivative differential body => differential.unbound false ++ body.unbound false
  | integral differential lower upper body =>
    differential.unbound false ++ lower.unbound false ++ upper.unbound false ++ unboundOptional body
  | sum bottom top body | product bottom top body =>
    bottom.unbound false ++ top.unbound false ++ body.unbound false
  | ellipsis lhs rhs => lhs.unbound false ++ unboundOptional rhs
  | letter _ | decimal _ | command _ | word _ => []

def unboundOf (binding : Bool) : List Formula → List String
  | [] => []
  | f :: fs => f.unbound binding ++ unboundOf binding fs

/-- The target names of the further links of a chain of inequalities. -/
def unboundLinks : List (Relation × Formula) → List String
  | [] => []
  | (_, f) :: rest => f.unbound false ++ unboundLinks rest

/-- The target names of a formula that may be missing. -/
def unboundOptional : Option Formula → List String
  | none => []
  | some f => f.unbound false

end

section Equations

variable (binding : Bool) (f g : Formula) (fs : List Formula)

theorem binders_equality : (equality f g).binders = f.target?.toList := rfl

theorem binders_withBinding : (joined .withBinding f g).binders = f.binders ++ g.binders := rfl

theorem binders_sequence : (sequence fs).binders = bindersOf fs := rfl

theorem bindersOf_cons : bindersOf (f :: fs) = f.binders ++ bindersOf fs := rfl

theorem unbound_equality : (equality f g).unbound binding =
    (if binding && f.target?.isSome then [] else f.unbound false) ++ g.unbound false := rfl

theorem unbound_withBinding : (joined .withBinding f g).unbound binding =
    if binding then f.unbound true ++ g.unbound true
    else (f.unbound false).filter (!g.binders.contains ·) ++ g.unbound true := rfl

theorem unbound_comprehension : (comprehension f g).unbound binding =
    (f.unbound false).filter (!g.binders.contains ·) ++ g.unbound true := rfl

theorem unbound_sequence : (sequence fs).unbound binding = unboundOf binding fs := rfl

theorem unboundOf_cons :
    unboundOf binding (f :: fs) = f.unbound binding ++ unboundOf binding fs := rfl

end Equations

variable {fs : List Formula} {w n : String} {b c : Clause} {f g : Formula} {op : Operation}
  {e : Expr} {names : List String}

theorem mem_unboundOf_iff {binding : Bool} :
    w ∈ unboundOf binding fs ↔ ∃ f ∈ fs, w ∈ f.unbound binding := by
  induction fs with
  | nil => exact ⟨nofun, nofun⟩
  | cons f fs ih =>
    rw [unboundOf_cons, mem_append, ih, exists_mem_cons_iff]

@[simp] theorem target?_ofName (n : String) : (ofName n).target? = some (mangled n) := by
  simp [ofName, target?, mangled]

@[simp] theorem unbound_ofName (binding : Bool) (n : String) :
    (ofName n).unbound binding = [mangled n] := rfl

/-- Every target name of a formula that is not bound in it satisfies `B`. -/
def Closed (B : String → Prop) (f : Formula) : Prop :=
  ∀ w ∈ f.unbound false, B w

variable {B : String → Prop}

theorem closed_of_append {h : Formula} (heq : h.unbound false = f.unbound false ++ g.unbound false)
    (hf : f.Closed B) (hg : g.Closed B) : h.Closed B := by
  intro w hw
  rw [heq] at hw
  exact (mem_append.1 hw).elim (hf w) (hg w)

theorem built_closed : Built (Closed B) where
  decimal _ := nofun
  command _ _ := nofun
  joined {c _ _} hc hf hg := by
    refine closed_of_append ?_ hf hg
    cases c <;> first | rfl | exact absurd (by decide) hc
  ordered hf hg := closed_of_append (append_nil _) hf hg
  positive h := h
  negative h := h
  call := closed_of_append rfl
  index := closed_of_append rfl
  bracketed h := h
  superscript := closed_of_append rfl
  sequence h w hw := by
    obtain ⟨f, hf, hw⟩ := mem_unboundOf_iff.1 hw
    exact h f hf w hw
  fraction := closed_of_append rfl
  ellipsis := closed_of_append rfl

theorem closed_fill {item count : Formula} (hitem : item.Closed B) (hcount : count.Closed B) :
    (fill item count).Closed B := by
  intro w hw
  rw [fill, unbound_comprehension, mem_append, mem_filter] at hw
  rcases hw with ⟨hw, -⟩ | hw
  · exact hitem w hw
  · exact hcount w hw

/-- The target names of some names, and those of the names that satisfy `D`. -/
def Known (D : String → Prop) (bound : List String) (w : String) : Prop :=
  ∃ n, (n ∈ bound ∨ D n) ∧ w = mangled n

variable {D : String → Prop} {outer bound : List String}

theorem closed_ofName (h : n ∈ bound ∨ D n) : (ofName n).Closed (Known D bound) := by
  simpa [Closed] using ⟨n, h, rfl⟩

/-- Every target name of a clause is bound by its equations or known around it. -/
def Clause.Closed (D : String → Prop) (outer bound : List String) (c : Clause) : Prop :=
  (∀ w ∈ c.item.unbound false, w ∈ bindersOf c.equations ∨ Known D bound w) ∧
    ∀ w ∈ unboundOf true c.equations, Known D outer w

theorem Clause.closed_plain (h : f.Closed (Known D bound)) :
    (plain f).Closed D outer bound :=
  ⟨fun w hw => .inr (h w hw), nofun⟩

theorem Clause.Closed.formula {c : Clause} (h : c.Closed D bound bound) :
    c.formula.Closed (Known D bound) := by
  cases c with
  | plain f | bound body bindings => exact fun w hw => (h.1 w hw).resolve_left nofun
  | comprehension item bindings =>
    intro w hw
    rw [Clause.formula, unbound_comprehension, mem_append, mem_filter, binders_sequence] at hw
    rcases hw with ⟨hw, hfree⟩ | hw
    · exact (h.1 w hw).resolve_left (by simpa [equations] using hfree)
    · exact h.2 w hw

variable {sigs : Signatures}

theorem Rendered.namesInside (h : Rendered sigs e c) :
    ∀ n ∈ e.namesInside bound, n ∈ bound ∨ mangled n ∈ bindersOf c.equations := by
  induction e using Expr.chainInduction generalizing bound c with
  | map info body x source ih =>
    cases x with
    | name xInfo n =>
      cases h with
      | listMap hsource hbody =>
        intro m hm
        simp only [equations, bindersOf_cons, binders_equality, writtenName,
          target?_ofName, toList_some, mem_append, mem_singleton]
        rcases ih hbody m hm with hm | hm
        · rcases mem_cons.1 hm with rfl | hm
          · exact .inr (.inl rfl)
          · exact .inl hm
        · exact .inr (.inr hm)
      | range hop => simp at hop
      | uniform hop => cases hop
    | _ => exact fun n hn => .inl hn
  | other e hother =>
    rw [Expr.namesInside_of_other hother]
    exact fun n hn => .inl hn

/-- What is known inside of bindings is bound by them or known around them. -/
theorem known_of_names {ws : List String} (h : ∀ n ∈ names, n ∈ bound ∨ mangled n ∈ ws)
    (hw : Known D names w) : w ∈ ws ∨ Known D bound w := by
  obtain ⟨n, hn | hn, rfl⟩ := hw
  · exact (h n hn).symm.imp id fun hn => ⟨n, .inl hn, rfl⟩
  · exact .inr ⟨n, .inr hn, rfl⟩

theorem Clause.bindersOf_bindings (c : Clause) : bindersOf c.bindings = c.formula.binders := by
  cases c with
  | bound => rfl
  | plain | comprehension => exact append_nil _

theorem Clause.unboundOf_bindings (c : Clause) :
    unboundOf true c.bindings = c.formula.unbound true := by
  cases c with
  | bound => rfl
  | plain | comprehension => exact append_nil _

theorem Rendered.namesWithBindings {e : Expr} {c : Clause} (h : Rendered sigs e c) :
    ∀ n ∈ e.namesWithBindings bound, n ∈ bound ∨ mangled n ∈ c.formula.binders := by
  fun_induction Expr.namesWithBindings bound e generalizing c with
  | case1 bound info left right ihleft ihright =>
    cases h with
    | range hop => simp at hop
    | uniform hop => cases hop
    | withBinding hleft hright =>
      intro n hn
      rw [formula, binders_withBinding, binders_sequence, bindersOf_bindings]
      simp only [mem_append]
      rcases ihright hright n hn with hn | hn
      · exact (ihleft hleft n hn).imp_right .inl
      · exact .inr (.inr hn)
  | case2 bound info target value n hn =>
    cases target with
    | name targetInfo n' =>
      cases hn
      cases h with
      | range hop => simp at hop
      | uniform hop hoperands hoperation =>
        cases hoperands with
        | cons htarget hvalues =>
          cases htarget
          cases hvalues with
          | cons hvalue hnil =>
            cases hnil
            cases hoperation
            intro m hm
            simpa [formula, binders_equality, or_comm] using
              (mem_cons.1 hm).imp_left (congrArg mangled)
    | _ => cases hn
  | case3 | case4 => exact fun n hn => .inl hn

theorem Clause.closed_listMap {s : Clause} (hs : s.Closed D outer outer)
    (hb : b.Closed D outer (n :: bound)) :
    (comprehension b.item (equality (ofName n) s.formula :: b.equations)).Closed D outer bound := by
  constructor
  · intro w hw
    simp only [equations, bindersOf_cons, binders_equality, target?_ofName,
      toList_some, mem_append, mem_singleton]
    rcases hb.1 w hw with hw | ⟨m, hm, rfl⟩
    · exact .inl (.inr hw)
    · rcases hm with hm | hm
      · rcases mem_cons.1 hm with rfl | hm
        · exact .inl (.inl rfl)
        · exact .inr ⟨m, .inl hm, rfl⟩
      · exact .inr ⟨m, .inr hm, rfl⟩
  · intro w hw
    simp only [equations, unboundOf_cons, unbound_equality, target?_ofName,
      isSome_some, Bool.and_self, if_true, nil_append, mem_append] at hw
    rcases hw with hw | hw
    · exact hs.formula w hw
    · exact hb.2 w hw

theorem Clause.closed_filtering {l : Clause} (hl : l.Closed D bound bound)
    (hc : c.Closed D names names)
    (hnames : ∀ n ∈ names, n ∈ bound ∨ mangled n ∈ bindersOf l.equations) :
    (l.filtering c.formula).Closed (Known D bound) := by
  intro w hw
  cases l with
  | plain f | bound body bindings =>
    exact (known_of_names hnames (hc.formula w hw)).resolve_left nofun
  | comprehension item bindings =>
    simp only [filtering, unbound_comprehension, binders_sequence, unbound_sequence,
      mem_append, mem_filter] at hw
    rcases hw with ⟨hw, hfree⟩ | hw
    · refine (known_of_names hnames (hc.formula w hw)).resolve_left ?_
      simpa [equations] using hfree
    · exact hl.2 w hw

theorem Clause.closed_withBinding {bs : Clause} (hb : b.Closed D names names)
    (hbs : ∀ w ∈ bs.formula.unbound true, Known D bound w)
    (hnames : ∀ n ∈ names, n ∈ bound ∨ mangled n ∈ bs.formula.binders) :
    (Clause.bound b.formula bs.bindings).Closed D outer bound := by
  refine ⟨fun w hw => .inr ?_, nofun⟩
  have hparts : w ∈ (b.formula.unbound false).filter (!bs.formula.binders.contains ·) ++
      bs.formula.unbound true := by
    simpa only [Clause.item, Clause.formula, unbound_withBinding, unbound_sequence,
      binders_sequence, Clause.bindersOf_bindings,
      Clause.unboundOf_bindings, Bool.false_eq_true, if_false] using hw
  simp only [mem_append, mem_filter] at hparts
  rcases hparts with ⟨hw, hfree⟩ | hw
  · exact (known_of_names hnames (hb.formula w hw)).resolve_left (by simpa using hfree)
  · exact hbs w hw

mutual

theorem Rendered.closed {e c outer bound} :
    Rendered sigs e c → e.Scoped D outer bound → c.Closed D outer bound
  | .literal, _ => closed_plain (built_closed.ofValue _ fun _ _ => nofun)
  | .name, hscoped => by
    cases hscoped with
    | name h => exact closed_plain (closed_ofName h)
  | .timeStep, _ => closed_plain nofun
  | .listFill hitem hcount, hscoped => by
    have hoperands := Expr.scoped_of_inPlace rfl hscoped
    have hitem' := (hitem.closed (hoperands _ (by simp))).formula
    have hcount' := (hcount.closed (hoperands _ (by simp))).formula
    exact closed_plain (closed_fill hitem' hcount')
  | .listMap hsource hbody, hscoped => by
    cases hscoped with
    | listMap hsource' hbody' =>
      exact closed_listMap (hsource.closed hsource') (hbody.closed hbody')
    | inPlace hop => cases hop
  | .listFilter hlist hcondition, hscoped => by
    cases hscoped with
    | listFilter hlist' hcondition' =>
      have hl := hlist.closed hlist'
      have hfiltering := closed_filtering hl (hcondition.closed hcondition') hlist.namesInside
      have htruth := built_closed.equality hfiltering (built_closed.decimal 1)
      exact closed_plain (built_closed.index hl.formula htruth)
    | inPlace hop => cases hop
  | .range hop hoperands hrange, hscoped => by
    have hplace := Expr.scoped_of_inPlace (by rcases hop with rfl | rfl <;> rfl) hscoped
    exact closed_plain (built_closed.range (hoperands.closed hplace) hrange)
  | .memberAccess hsubject _, hscoped => by
    cases hscoped with
    | memberAccess hsubject' =>
      have hclosed := (hsubject.closed hsubject').formula
      exact closed_plain (built_closed.joined (by decide) hclosed nofun)
    | inPlace hop => cases hop
  | .builtIn, _ => closed_plain nofun
  | .actionCall hargs, hscoped => by
    cases hscoped with
    | actionCall hn hargs' =>
      exact closed_plain (built_closed.actionCall (closed_ofName hn) (hargs.closed hargs'))
    | inPlace hop => cases hop
  | .withBinding hbody hbindings, hscoped => by
    cases hscoped with
    | withBinding hbindings' hbody' =>
      exact closed_withBinding (hbody.closed hbody') (hbindings.bindsClosed hbindings')
        hbindings.namesWithBindings
    | inPlace hop => cases hop
  | .call hcallee hargs, hscoped => by
    obtain ⟨hcallee', hargs'⟩ := forall_mem_cons.1 (Expr.scoped_of_inPlace rfl hscoped)
    exact closed_plain
      (built_closed.definitionCall (hcallee.closed hcallee').formula (hargs.closed hargs'))
  | .uniform hop hoperands hoperation, hscoped => by
    cases hscoped with
    | inPlace _ hplace =>
      exact closed_plain (built_closed.operation (hoperands.closed hplace) hoperation)
    | _ => cases hop

/-- The values of bindings have only names that are known around them. -/
theorem Rendered.bindsClosed {e c bound} :
    Rendered sigs e c → e.BindsScoped D bound → ∀ w ∈ c.formula.unbound true, Known D bound w
  | .withBinding hleft hright, hscoped => by
    cases hscoped with
    | both hleft' hright' =>
      intro w hw
      simp only [formula, unbound_withBinding, unbound_sequence, if_true,
        mem_append, unboundOf_bindings] at hw
      exact hw.elim (hleft.bindsClosed hleft' w) (hright.bindsClosed hright' w)
  | .uniform hop hoperands hoperation, hscoped => by
    cases hscoped with
    | both => cases hop
    | assignment hvalue' =>
      match hoperands with
      | .cons htarget (.cons hvalue .nil) =>
        cases htarget
        cases hoperation
        intro w hw
        simp only [formula, unbound_equality, target?_ofName, isSome_some,
          Bool.and_self, if_true, nil_append] at hw
        exact (hvalue.closed hvalue').formula w hw
  | .range hop _ _, hscoped => by
    rcases hop with rfl | rfl <;> cases hscoped
  | .literal, hscoped | .name, hscoped | .timeStep, hscoped | .listFill _ _, hscoped
  | .listMap _ _, hscoped | .listFilter _ _, hscoped | .memberAccess _ _, hscoped
  | .builtIn, hscoped | .actionCall _, hscoped | .call _ _, hscoped => by
    cases hscoped

theorem RenderedAll.closed {es fs bound} :
    RenderedAll sigs es fs → (∀ e ∈ es, e.Scoped D bound bound) → ∀ f ∈ fs, f.Closed (Known D bound)
  | .nil, _ => nofun
  | .cons hhead htail, hscoped => by
    obtain ⟨he, hes⟩ := forall_mem_cons.1 hscoped
    exact forall_mem_cons.2 ⟨(hhead.closed he).formula, htail.closed hes⟩

end

mutual

theorem Enacted.closed {a f bound} : Enacted sigs a f → a.Scoped D bound → f.Closed (Known D bound)
  | .block hactions, hscoped => by
    cases hscoped with
    | block hactions' =>
      exact built_closed.bracketed (built_closed.sequence (hactions.closed hactions'))
  | .update htarget hvalue, hscoped => by
    cases hscoped with
    | update htarget' hvalue' =>
      exact built_closed.joined (by decide) (htarget.closed htarget').formula
        (hvalue.closed hvalue').formula
  | .call hargs, hscoped => by
    cases hscoped with
    | call hn hargs' => exact built_closed.actionCall (closed_ofName hn) (hargs.closed hargs')
  | .conditional harms, hscoped => by
    cases hscoped with
    | conditional hconditions hbodies | conditionalElse hconditions hbodies =>
      exact built_closed.bracketed (built_closed.sequence (harms.closed hconditions hbodies))
  | .conditionalElse harms hdefault, hscoped => by
    cases hscoped with
    | conditional => cases hdefault
    | conditionalElse hconditions hbodies hdefault' =>
      refine built_closed.bracketed (built_closed.sequence (forall_mem_append.2 ⟨?_, ?_⟩))
      · exact harms.closed hconditions hbodies
      · simpa using hdefault.closed hdefault'

theorem EnactedAll.closed {as fs bound} :
    EnactedAll sigs as fs → (∀ a ∈ as, a.Scoped D bound) → ∀ f ∈ fs, f.Closed (Known D bound)
  | .nil, _ => nofun
  | .cons hhead htail, hscoped => by
    obtain ⟨ha, has⟩ := forall_mem_cons.1 hscoped
    exact forall_mem_cons.2 ⟨hhead.closed ha, htail.closed has⟩

theorem EnactedArms.closed {arms fs bound} :
    EnactedArms sigs arms fs → (∀ arm ∈ arms, arm.1.Scoped D bound bound) →
      (∀ arm ∈ arms, arm.2.Scoped D bound) → ∀ f ∈ fs, f.Closed (Known D bound)
  | .nil, _, _ => nofun
  | .cons hcondition hbody hrest, hconditions, hbodies => by
    obtain ⟨hc, hcs⟩ := forall_mem_cons.1 hconditions
    obtain ⟨hb, hbs⟩ := forall_mem_cons.1 hbodies
    have htruth := built_closed.equality (hcondition.closed hc).formula (built_closed.decimal 1)
    exact forall_mem_cons.2 ⟨built_closed.branch htruth (hbody.closed hb), hrest.closed hcs hbs⟩

end

theorem closed_ofExpr (hscoped : e.Scoped D bound bound) (h : ofExpr sigs e = .ok f) :
    f.Closed (Known D bound) := by
  obtain ⟨c, hc, rfl⟩ := exists_rendered h
  exact (hc.closed hscoped).formula

theorem closed_ofAction {a : Action} (hscoped : a.Scoped D bound) (h : ofAction sigs a = .ok f) :
    f.Closed (Known D bound) :=
  (Enacted.of_ofAction h).closed hscoped

end Diagram.Formula
