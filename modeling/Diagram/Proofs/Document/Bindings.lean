import Diagram.Proofs.Document.Definitions
import Diagram.Proofs.Formula.Grouping.Separated
import Diagram.Proofs.Typing.Declared

/-!
# Bindings behind a body

The analysis takes apart both sides of a group of bindings behind a body.  The formula follows the
right sides only, so it is made of one equation for each binding exactly if no left side is a group
of its own.

Main statement: `Program.ofExpr_withBinding_iff_isChain`.
-/

namespace Diagram

open List

namespace Expr

/-- The bindings behind a body, however they are grouped. -/
def flatBindings : Expr → List Expr
  | .operator _ .withBinding [left, right] => left.flatBindings ++ right.flatBindings
  | e => [e]

theorem flatBindings_group (info : Info) (left right : Expr) :
    (operator info .withBinding [left, right]).flatBindings =
      left.flatBindings ++ right.flatBindings := rfl

theorem bindings_group (info : Info) (left right : Expr) :
    (operator info .withBinding [left, right]).bindings = left :: right.bindings := rfl

/-- Whether no left side of a group of bindings is a group of its own. -/
def isChain : Expr → Bool
  | .operator _ .withBinding [left, right] => !left.isOp .withBinding && right.isChain
  | _ => true

namespace IsBindings

variable {e : Expr}

variable (h : e.IsBindings)

include h

theorem scopeWithBindings_eq (scope : Scope) :
    Typing.scopeWithBindings scope e = e.flatBindings.foldl Typing.scopeWithBindings scope := by
  induction h generalizing scope with
  | single => rfl
  | group _ _ ihleft ihright =>
    rw [flatBindings_group, foldl_append, ← ihleft, ← ihright, Typing.scopeWithBindings]

theorem length_flatBindings_pos : 0 < e.flatBindings.length := by
  induction h with
  | single => exact Nat.one_pos
  | group _ _ ihleft _ =>
    rw [flatBindings_group, length_append]
    omega

theorem length_bindings_le : e.bindings.length ≤ e.flatBindings.length := by
  induction h with
  | single => exact Nat.le_refl 1
  | group hleft _ _ ihright =>
    have hpos := hleft.length_flatBindings_pos
    rw [bindings_group, flatBindings_group, length_cons, length_append]
    omega

/-- A group of bindings on the left is one item behind a body, and more than one binding. -/
theorem length_bindings_lt (hchain : e.isChain = false) :
    e.bindings.length < e.flatBindings.length := by
  induction h with
  | single => cases hchain
  | group hleft hright _ ihright =>
    have hleft_pos := hleft.length_flatBindings_pos
    rw [bindings_group, flatBindings_group, length_cons, length_append]
    cases hleft with
    | single =>
      have hlt := ihright hchain
      omega
    | group hfirst hsecond =>
      have hpos := hfirst.length_flatBindings_pos
      have hpos' := hsecond.length_flatBindings_pos
      have hle := hright.length_bindings_le
      rw [flatBindings_group, length_append]
      omega

theorem bindings_eq_flatBindings (hchain : e.isChain) : e.bindings = e.flatBindings := by
  induction h with
  | single => rfl
  | group hleft _ _ ihright =>
    cases hleft with
    | single =>
      rw [bindings_group, ihright hchain]
      rfl
    | group => cases hchain

end IsBindings

end Expr

namespace Formula

variable {sigs : Signatures}

/-- The equation of a binding: the name is worth what the value is. -/
inductive IsEquation (sigs : Signatures) : Expr → Formula → Prop
  | intro {info target n value f} (hvalue : ofExpr sigs value = .ok f) :
      IsEquation sigs (.operator info .assignment [.name target n, value]) (.equality (ofName n) f)

variable {e body : Expr} {f : Formula}

theorem ofExpr_eq_ok_iff : ofExpr sigs e = .ok f ↔ ∃ c, clause sigs e = .ok c ∧ c.formula = f := by
  unfold ofExpr
  cases clause sigs e <;> simp [Except.map]

theorem IsEquation.clause_eq {b : Expr} (h : IsEquation sigs b f) : clause sigs b = .ok (.plain f) := by
  obtain ⟨hvalue⟩ := h
  obtain ⟨c, hc, rfl⟩ := ofExpr_eq_ok_iff.1 hvalue
  simp only [ofExprs, clause, hc]
  rfl

theorem clause_withBinding (info : Info) {c c' : Clause} (hbody : clause sigs body = .ok c)
    (h : clause sigs e = .ok c') :
    clause sigs (.operator info .withBinding [body, e]) = .ok (.bound c.formula c'.bindings) := by
  simp only [clause, hbody, h]
  rfl

section Bindings

variable (sigs) {e : Expr} (h : e.IsBindings) (hready : e.Ready)

include h hready

theorem exists_bindingEquations : ∃ items, Forall₂ (IsEquation sigs) e.flatBindings items := by
  induction h with
  | @single info target n value =>
    cases hready with
    | operator _ hoperands =>
      obtain ⟨f, hf⟩ := (hoperands value (by simp)).exists_ofExpr sigs
      exact ⟨_, .cons (.intro hf) .nil⟩
  | @group info left right _ _ ihleft ihright =>
    cases hready with
    | operator _ hoperands =>
      obtain ⟨lefts, hlefts⟩ := ihleft (hoperands left (by simp))
      obtain ⟨rights, hrights⟩ := ihright (hoperands right (by simp))
      exact ⟨lefts ++ rights, rel_append hlefts hrights⟩

theorem exists_clause_bindings : ∃ c, clause sigs e = .ok c ∧
    Forall₂ (fun x f => ofExpr sigs x = .ok f) e.bindings c.bindings := by
  induction h with
  | single =>
    obtain ⟨items, hitems⟩ := exists_bindingEquations sigs .single hready
    cases hitems with
    | cons hequates hnil =>
      exact ⟨_, hequates.clause_eq, .cons (ofExpr_eq_ok_iff.2 ⟨_, hequates.clause_eq, rfl⟩) .nil⟩
  | @group info left right _ _ _ ihright =>
    cases hready with
    | operator _ hoperands =>
      obtain ⟨c, hc⟩ := (hoperands left (by simp)).exists_clause sigs
      obtain ⟨c', hc', hfollow⟩ := ihright (hoperands right (by simp))
      exact ⟨_, clause_withBinding info hc hc', .cons (ofExpr_eq_ok_iff.2 ⟨c, hc, rfl⟩) hfollow⟩

end Bindings

theorem ofExpr_withBinding_iff {info : Info} {items : List Formula} (hbindings : e.IsBindings)
    (hready : e.Ready) (hf : ofExpr sigs body = .ok f)
    (hitems : Forall₂ (IsEquation sigs) e.flatBindings items) :
    ofExpr sigs (.operator info .withBinding [body, e]) =
      .ok (joined .withBinding f (sequence items)) ↔ e.isChain := by
  obtain ⟨c, hc, rfl⟩ := ofExpr_eq_ok_iff.1 hf
  obtain ⟨c', hc', hfollow⟩ := exists_clause_bindings sigs hbindings hready
  have hformula : ofExpr sigs (.operator info .withBinding [body, e]) =
      .ok (joined .withBinding c.formula (sequence c'.bindings)) :=
    ofExpr_eq_ok_iff.2 ⟨_, clause_withBinding info hc hc', rfl⟩
  rw [hformula]
  constructor
  · intro heq
    injection heq with heq
    injection heq with _ _ heq
    injection heq with heq
    by_contra hchain
    have hlt := hbindings.length_bindings_lt (Bool.eq_false_iff.2 hchain)
    rw [hfollow.length_eq, hitems.length_eq, heq] at hlt
    exact Nat.lt_irrefl _ hlt
  · intro hchain
    rw [hbindings.bindings_eq_flatBindings hchain] at hfollow
    have hsame := hitems.imp fun b item hitem => ofExpr_eq_ok_iff.2 ⟨_, hitem.clause_eq, rfl⟩
    have hunique : Relator.RightUnique fun x g => ofExpr sigs x = .ok g := fun x g g' hg hg' =>
      Except.ok.inj (hg.symm.trans hg')
    rw [right_unique_forall₂' hunique hfollow hsame]

end Formula

theorem Expr.Ready.nodes {e : Expr} (h : e.Ready) : ∀ x ∈ e.nodes, x.Ready := by
  induction h with
  | literal => exact forall_mem_singleton.2 .literal
  | name => exact forall_mem_singleton.2 .name
  | timeStep => exact forall_mem_singleton.2 .timeStep
  | operator hfits hoperands ih =>
    exact forall_mem_append.2 ⟨Expr.forall_nodesOf_iff.2 ih,
      forall_mem_singleton.2 (.operator hfits hoperands)⟩

namespace Program

variable {tokens : List Token} {p q : Program}

theorem Ready.allNodes (h : q.Ready) : ∀ x ∈ q.allNodes, x.Ready :=
  Typing.forall_nodes_of_wholeProgram (fun _ => Expr.Ready.nodes) (fun _ => Expr.Ready.nodes)
    ⟨h.identifiers, h.actions, h.entries, h.interval, h.tick, h.display⟩

/-- In an analyzed program the analysis takes the bindings behind every body one after the other,
and each has an equation of its name and the formula of its value.  The formula of the body with
these equations, in this order, is the formula of all of it exactly if the bindings form a chain. -/
theorem ofExpr_withBinding_iff_isChain (hparse : Program.parse tokens = .ok p)
    (h : p.analyze.outcome = .ok q) {info : Info} {operands : List Expr}
    (hmem : .operator info .withBinding operands ∈ q.allNodes) :
    ∃ body e, operands = [body, e] ∧
      (∀ scope, Typing.scopeWithBindings scope e =
        e.flatBindings.foldl Typing.scopeWithBindings scope) ∧
      ∃ f items, Formula.ofExpr q.signatures body = .ok f ∧
        List.Forall₂ (Formula.IsEquation q.signatures) e.flatBindings items ∧
        (Formula.ofExpr q.signatures (.operator info .withBinding operands) =
          .ok (.joined .withBinding f (.sequence items)) ↔ e.isChain = true) := by
  cases (ready_of_analyze hparse h).allNodes _ hmem with
  | operator hfits hoperands =>
    obtain ⟨body, e, rfl⟩ := exists_pair hfits.takes
    have hbindings : e.IsBindings := hfits.bindings rfl e rfl
    have hready : e.Ready := hoperands e (by simp)
    obtain ⟨f, hf⟩ := (hoperands body (by simp)).exists_ofExpr q.signatures
    obtain ⟨items, hitems⟩ := Formula.exists_bindingEquations q.signatures hbindings hready
    exact ⟨body, e, rfl, hbindings.scopeWithBindings_eq, f, items, hf, hitems,
      Formula.ofExpr_withBinding_iff hbindings hready hf hitems⟩

/-- Three bindings in a chain. -/
theorem ofExpr_withBinding_iff_isChain_three :
    let source := Text.Glyph.decode
      "let a = x + y + z with x = 1 with y = 2 with z = 3;".toUTF8.toList
    ∃ tokens p q info body e, Token.scan source = .ok tokens ∧ Program.parse tokens = .ok p ∧
      p.analyze.outcome = .ok q ∧ .operator info .withBinding [body, e] ∈ q.allNodes ∧
      ∃ f items, Formula.ofExpr q.signatures body = .ok f ∧
        List.Forall₂ (Formula.IsEquation q.signatures) e.flatBindings items ∧
        Formula.ofExpr q.signatures (.operator info .withBinding [body, e]) =
          .ok (.joined .withBinding f (.sequence items)) := by
  intro source
  obtain ⟨tokens, hscan, p, hp, q, hq, x, hx, hop, hchain⟩ :
      ∃ tokens, Token.scan source = .ok tokens ∧ ∃ p, Program.parse tokens = .ok p ∧
        ∃ q, p.analyze.outcome = .ok q ∧ ∃ e, q.identifiers.get? "a" = some e ∧
          e.isOp .withBinding = true ∧ e.isChain = true := by decide +kernel
  cases x with
  | operator info op operands =>
    obtain rfl : op = .withBinding := beq_iff_eq.1 hop
    have hmem := mem_allNodes_of_get? hx
    obtain ⟨body, e, rfl, -, f, items, hf, hitems, hiff⟩ :=
      ofExpr_withBinding_iff_isChain hp hq hmem
    rw [Expr.isChain, Bool.and_eq_true] at hchain
    exact ⟨tokens, p, q, info, body, e, hscan, hp, hq, hmem, f, items, hf, hitems,
      hiff.2 hchain.2⟩
  | _ => cases hop

/-- A group of two bindings in front of a third one becomes a formula with bindings of its own. -/
theorem ofExpr_of_grouped_bindings :
    let source := Text.Glyph.decode
      "let a = x + y + z with (x = 1 with y = 2) with z = 3;".toUTF8.toList
    ∃ tokens p q info body e f, Token.scan source = .ok tokens ∧ Program.parse tokens = .ok p ∧
      p.analyze.outcome = .ok q ∧
      q.identifiers.get? "a" = some (.operator info .withBinding [body, e]) ∧
      Formula.ofExpr q.signatures (.operator info .withBinding [body, e]) = .ok f ∧
      f.text = "\\left(\\left(X_\x7bx\x7d+X_\x7by\x7d\\right)+X_\x7bz\x7d\\right)" ++
        "\\operatorname\x7bwith\x7dX_\x7bx\x7d=1" ++
        "\\operatorname\x7bwith\x7dX_\x7by\x7d=2,X_\x7bz\x7d=3" ∧
      ¬∃ g items, Formula.ofExpr q.signatures body = .ok g ∧
        List.Forall₂ (Formula.IsEquation q.signatures) e.flatBindings items ∧
        f = .joined .withBinding g (.sequence items) := by
  intro source
  obtain ⟨tokens, hscan, p, hp, q, hq, x, hx, f, hf, htext, hop, hbody, hchain⟩ :
      ∃ tokens, Token.scan source = .ok tokens ∧ ∃ p, Program.parse tokens = .ok p ∧
        ∃ q, p.analyze.outcome = .ok q ∧ ∃ x, q.identifiers.get? "a" = some x ∧
          ∃ f, Formula.ofExpr q.signatures x = .ok f ∧
            f.text = "\\left(\\left(X_\x7bx\x7d+X_\x7by\x7d\\right)+X_\x7bz\x7d\\right)" ++
              "\\operatorname\x7bwith\x7dX_\x7bx\x7d=1" ++
              "\\operatorname\x7bwith\x7dX_\x7by\x7d=2,X_\x7bz\x7d=3" ∧
            x.isOp .withBinding = true ∧ x.bindings.head?.any (·.isOp .withBinding) = false ∧
            x.isChain = false := by
    decide +kernel
  cases (ready_of_analyze hp hq).allNodes _ (mem_allNodes_of_get? hx) with
  | @operator info op operands hfits hoperands =>
    obtain rfl : op = .withBinding := beq_iff_eq.1 hop
    obtain ⟨body, e, rfl⟩ := exists_pair hfits.takes
    refine ⟨tokens, p, q, info, body, e, f, hscan, hp, hq, hx, hf, htext, ?_⟩
    rintro ⟨g, items, hg, hitems, rfl⟩
    have he := (Formula.ofExpr_withBinding_iff (hfits.bindings rfl e rfl)
      (hoperands e (by simp)) hg hitems).1 hf
    change body.isOp .withBinding = false at hbody
    rw [Expr.isChain, hbody, he] at hchain
    cases hchain
  | _ => cases hop

end Program

end Diagram
