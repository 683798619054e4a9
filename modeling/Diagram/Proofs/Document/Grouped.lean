import Diagram.Proofs.Document.Definitions
import Diagram.Proofs.Formula.Grouping.Separated

/-!
# Reading the formulas of a program back

Every expression and every action of an analyzed program has a formula.  Its markup is read back as
the tree of the formula exactly if no operand binds more loosely than the place where it is written.

Main statement: `Program.read_markup_iff_separated`.
-/

namespace Diagram

open List

theorem Element.Whole.quantities {P Q : Expr → Prop} {e : Element} (h : e.Whole P Q) :
    ∀ x ∈ e.quantities.filterMap id, P x := by
  intro x hx
  obtain ⟨q, hq, hx⟩ := mem_filterMap.1 hx
  obtain ⟨y, rfl, hy⟩ := (whole_iff.1 h).1 q hq
  exact Option.some.inj hx ▸ hy

namespace Program

/-- The expressions of a program: the values of its names, its entries, the interval of its ticker
and the quantities of what it draws. -/
def expressions (p : Program) : List Expr :=
  p.identifiers.entries.map (·.2) ++ p.entries.getD [] ++
    p.ticker.toList.filterMap (·.interval) ++
    (p.display.getD []).flatMap (·.quantities.filterMap id)

/-- The actions of a program: those with names, the one of its ticker and those of clicks. -/
def acts (p : Program) : List Action :=
  p.actions.entries.map (·.2) ++ p.ticker.toList.map (·.action) ++
    (p.display.getD []).filterMap (·.click)

variable {tokens : List Token} {p q : Program}

theorem Ready.expressions (h : q.Ready) : ∀ e ∈ q.expressions, e.Ready := by
  intro e he
  simp only [Program.expressions, mem_append, or_assoc] at he
  rcases he with he | he | he | he
  · obtain ⟨⟨n, e⟩, hentry, rfl⟩ := mem_map.1 he
    exact h.identifiers n e (NameMap.get?_eq_some_iff.2 hentry)
  · cases hes : q.entries with
    | none => simp [hes] at he
    | some es => exact h.entries es hes e (by simpa [hes] using he)
  · obtain ⟨t, ht, he⟩ := mem_filterMap.1 he
    exact h.interval t e (Option.mem_toList.1 ht) he
  · obtain ⟨x, hx, he⟩ := mem_flatMap.1 he
    cases hes : q.display with
    | none => simp [hes] at hx
    | some es => exact (h.display es hes x (by simpa [hes] using hx)).quantities e he

theorem Ready.acts (h : q.Ready) : ∀ a ∈ q.acts, a.Whole Expr.Ready := by
  intro a ha
  simp only [Program.acts, mem_append, or_assoc] at ha
  rcases ha with ha | ha | ha
  · obtain ⟨⟨n, a⟩, hentry, rfl⟩ := mem_map.1 ha
    exact h.actions n a (NameMap.get?_eq_some_iff.2 hentry)
  · obtain ⟨t, ht, rfl⟩ := mem_map.1 ha
    exact h.tick t (Option.mem_toList.1 ht)
  · obtain ⟨x, hx, ha⟩ := mem_filterMap.1 ha
    cases hes : q.display with
    | none => simp [hes] at hx
    | some es => exact (h.display es hes x (by simpa [hes] using hx)).click a ha

/-- Every expression and every action of an analyzed program has a formula.  No part of it binds
more loosely than its place, and its markup is read back as it was meant, exactly if the expression
or the action is separated. -/
theorem read_markup_iff_separated (hparse : Program.parse tokens = .ok p)
    (h : p.analyze.outcome = .ok q) :
    (∀ e ∈ q.expressions, ∃ f g, Formula.ofExpr q.signatures e = .ok f ∧ f.grouping? = some g ∧
      (g.Grouped ↔ e.Separated) ∧ (Grouping.read f.markup = some g ↔ e.Separated)) ∧
    ∀ a ∈ q.acts, ∃ f g, Formula.ofAction q.signatures a = .ok f ∧ f.grouping? = some g ∧
      (g.Grouped ↔ a.Separated) ∧ (Grouping.read f.markup = some g ↔ a.Separated) := by
  have hready := ready_of_analyze hparse h
  constructor
  · intro e he
    obtain ⟨f, hf⟩ := (hready.expressions e he).exists_ofExpr q.signatures
    obtain ⟨g, hg, -, hgrouped⟩ := Formula.stands_ofExpr hf
    exact ⟨f, g, hf, hg, hgrouped, (Formula.read_markup_iff hg).trans hgrouped⟩
  · intro a ha
    obtain ⟨f, hf⟩ := (hready.acts a ha).exists_ofAction q.signatures
    obtain ⟨g, hg, -, hgrouped⟩ := (Formula.Enacted.of_ofAction hf).stands
    exact ⟨f, g, hf, hg, hgrouped, (Formula.read_markup_iff hg).trans hgrouped⟩

/-- The powers and the products of sums are separated, and so is what a click does. -/
theorem read_markup_iff_separated_brackets :
    let source := Text.Glyph.decode ("var p: real = 0; let a = (p + p) ** p; " ++
      "let f(t: real) = -(t * (a - p)); action step \x7b p := f(p) \x7d").toUTF8.toList
    ∃ tokens p q, Token.scan source = .ok tokens ∧ Program.parse tokens = .ok p ∧
      p.analyze.outcome = .ok q ∧ q.expressions.length = 3 ∧ q.acts.length = 1 ∧
      (∀ e ∈ q.expressions, ∃ f g, Formula.ofExpr q.signatures e = .ok f ∧ f.grouping? = some g ∧
        (g.Grouped ↔ e.Separated) ∧ (Grouping.read f.markup = some g ↔ e.Separated)) ∧
      ∀ a ∈ q.acts, ∃ f g, Formula.ofAction q.signatures a = .ok f ∧ f.grouping? = some g ∧
        (g.Grouped ↔ a.Separated) ∧ (Grouping.read f.markup = some g ↔ a.Separated) := by
  intro source
  obtain ⟨tokens, hscan, p, hp, q, hq, hexpressions, hacts⟩ :
      ∃ tokens, Token.scan source = .ok tokens ∧ ∃ p, Program.parse tokens = .ok p ∧
        ∃ q, p.analyze.outcome = .ok q ∧ q.expressions.length = 3 ∧ q.acts.length = 1 := by
    decide +kernel
  exact ⟨tokens, p, q, hscan, hp, hq, hexpressions, hacts, read_markup_iff_separated hp hq⟩

/-- A power that is the base of a power is written without brackets, and its markup is not read
back as the power of a power. -/
theorem read_markup_of_power :
    let source := Text.Glyph.decode "var p: real = 0; let a = (p ** p) ** p;".toUTF8.toList
    let name := Grouping.affixed .subscript (.atom (.symbol 'X')) (.atom (.run "p"))
    ∃ tokens p q e f, Token.scan source = .ok tokens ∧ Program.parse tokens = .ok p ∧
      p.analyze.outcome = .ok q ∧ q.identifiers.get? "a" = some e ∧
      Formula.ofExpr q.signatures e = .ok f ∧
      f.text = "X_\x7bp\x7d^\x7bX_\x7bp\x7d\x7d^\x7bX_\x7bp\x7d\x7d" ∧
      f.grouping? = some (.affixed .superscript (.affixed .superscript name name) name) ∧
      Grouping.read f.markup ≠ f.grouping? := by
  intro source name
  obtain ⟨tokens, hscan, p, hp, q, hq, e, he, f, hf, htext, hgrouping⟩ :
      ∃ tokens, Token.scan source = .ok tokens ∧ ∃ p, Program.parse tokens = .ok p ∧
        ∃ q, p.analyze.outcome = .ok q ∧ ∃ e, q.identifiers.get? "a" = some e ∧
          ∃ f, Formula.ofExpr q.signatures e = .ok f ∧
            f.text = "X_\x7bp\x7d^\x7bX_\x7bp\x7d\x7d^\x7bX_\x7bp\x7d\x7d" ∧
            f.grouping? = some (.affixed .superscript (.affixed .superscript name name) name) := by
    decide +kernel
  refine ⟨tokens, p, q, e, f, hscan, hp, hq, he, hf, htext, hgrouping, ?_⟩
  rw [hgrouping, Ne, Formula.read_markup_iff hgrouping]
  decide

end Program

end Diagram
