import Diagram.Document.OfProgram
import Diagram.Proofs.Json.Spelling
import Diagram.Proofs.Program.Judged
import Diagram.Proofs.Typing.Resolved

/-!
# Programs that are read are compiled

A program that was read from tokens is rejected at a place among the tokens, or it passes its
analysis and has a document whose text is JSON, whatever the settings.

Main statement: `Program.parse_compiles`.
-/

namespace Diagram

open Document

variable {ε α β : Type} {f : α → Except ε β}

theorem exists_ok_mapM {as : List α} (h : ∀ a ∈ as, ∃ b, f a = .ok b) :
    ∃ bs, as.mapM f = .ok bs := by
  induction as with
  | nil => exact ⟨[], rfl⟩
  | cons a as ih =>
    obtain ⟨ha, has⟩ := List.forall_mem_cons.1 h
    rw [List.mapM_cons]
    exact exists_ok_bind ha fun _ _ => exists_ok_bind (ih has) fun _ _ => ⟨_, rfl⟩

theorem exists_ok_optionMapM {a? : Option α} (h : ∀ a, a? = some a → ∃ b, f a = .ok b) :
    ∃ b?, a?.mapM f = .ok b? := by
  cases a? with
  | none => exact ⟨none, rfl⟩
  | some a =>
    obtain ⟨b, hb⟩ := h a rfl
    exact ⟨some b, by rw [Option.mapM_some, hb]; rfl⟩

namespace Document

variable {sigs : Signatures} {e : Expr} {q : Option Expr} {α : Type}

theorem exists_latex (h : e.Ready) : ∃ s, latex sigs e = .ok s := by
  obtain ⟨f, hf⟩ := h.exists_ofExpr sigs
  exact ⟨f.text, by simp [latex, hf, Except.map, Except.mapError]⟩

theorem exists_quantityLatex (h : ∀ e, q = some e → e.Ready) :
    ∃ s, quantityLatex sigs q = .ok s := by
  cases q with
  | none => exact ⟨"", rfl⟩
  | some e => exact exists_latex (h e rfl)

theorem exists_actionFormula {a : Action} (h : a.Whole Expr.Ready) :
    ∃ f, actionFormula sigs a = .ok f := by
  obtain ⟨f, hf⟩ := h.exists_ofAction sigs
  exact ⟨f, by simp [actionFormula, hf, Except.mapError]⟩

theorem exists_publicDraft (h : e.Ready) : ∃ d, publicDraft sigs e = .ok d := by
  unfold publicDraft
  split
  · exact ⟨_, rfl⟩
  · exact exists_ok_bind (exists_latex h) fun _ _ => ⟨_, rfl⟩

theorem exists_definitionDrafts {formula : α → Except Defect Formula} {m : NameMap α}
    (hsigned : ∀ n, m.contains n → sigs.contains n)
    (hformula : ∀ n a, m.get? n = some a → ∃ f, formula a = .ok f) :
    ∃ drafts, definitionDrafts sigs formula m = .ok drafts := by
  refine exists_ok_mapM ?_
  rintro ⟨n, a⟩ hentry
  have hget := NameMap.get?_eq_some_iff.2 hentry
  refine exists_ok_bind (hformula n a hget) fun f _ => ?_
  obtain ⟨sig, hsig⟩ := NameMap.contains_eq_true_iff.1
    (hsigned n (NameMap.contains_eq_true_iff.2 ⟨a, hget⟩))
  exact ⟨_, by unfold definitionDraft; rw [hsig]⟩

theorem exists_colorFields (h : ∀ e, q = some e → e.Ready) : ∃ c, colorFields sigs q = .ok c := by
  unfold colorFields
  split
  · exact ⟨_, rfl⟩
  · -- A constant color is written in digits and needs no formula.
    split
    · exact ⟨_, rfl⟩
    · obtain ⟨s, hs⟩ : ∃ s, latex sigs _ = .ok s := exists_latex (h _ rfl)
      exact ⟨_, by rw [hs]; rfl⟩

theorem ready_bind {attr : Option α} {quantity : α → Option Expr}
    (h : ∀ a, attr = some a → Given Expr.Ready (quantity a)) (e : Expr)
    (he : attr.bind quantity = some e) : e.Ready := by
  obtain ⟨a, ha, hquantity⟩ := Option.bind_eq_some_iff.1 he
  obtain ⟨e', he', hready⟩ := h a ha
  rw [hquantity] at he'
  cases he'
  exact hready

theorem exists_elementDraft {e : Element} (h : e.Whole Expr.Ready Expr.Ready) :
    ∃ d, elementDraft sigs e = .ok d := by
  have hgiven : ∀ {q : Option Expr}, Given Expr.Ready q → ∀ x, q = some x → x.Ready := by
    rintro q ⟨x, rfl, hx⟩ y hy
    exact Option.some.inj hy ▸ hx
  have hclick : ∃ f?, e.click.mapM (actionFormula sigs) = .ok f? :=
    exists_ok_optionMapM fun a ha => exists_actionFormula (h.click a ha)
  refine exists_ok_bind (exists_quantityLatex (hgiven h.what)) fun _ _ => ?_
  refine exists_ok_bind (exists_colorFields (hgiven h.color)) fun _ _ => ?_
  refine exists_ok_bind (exists_quantityLatex (ready_bind fun a ha => (h.point a ha).1))
    fun _ _ => ?_
  refine exists_ok_bind (exists_quantityLatex (ready_bind fun a ha => (h.point a ha).2))
    fun _ _ => ?_
  refine exists_ok_bind (exists_quantityLatex (ready_bind fun a ha => (h.stroke a ha).1))
    fun _ _ => ?_
  refine exists_ok_bind (exists_quantityLatex (ready_bind fun a ha => (h.stroke a ha).2))
    fun _ _ => ?_
  refine exists_ok_bind (exists_quantityLatex (ready_bind h.fill)) fun _ _ => ?_
  refine exists_ok_bind (exists_quantityLatex (ready_bind fun a ha => (h.label a ha).2.1))
    fun _ _ => ?_
  refine exists_ok_bind (exists_quantityLatex (ready_bind fun a ha => (h.label a ha).2.2))
    fun _ _ => ?_
  exact exists_ok_bind hclick fun _ _ => ⟨_, rfl⟩

end Document

theorem Program.Ready.exists_ofProgram {p : Program} (h : p.Ready) (settings : Settings) :
    ∃ d, ofProgram settings p = .ok d := by
  have hentries : ∀ e ∈ p.entries.getD [], e.Ready := by
    cases hp : p.entries with
    | none => simp
    | some es => exact h.entries es hp
  have hdisplay : ∀ es, p.display = some es →
      ∃ drafts, es.mapM (elementDraft p.signatures) = .ok drafts :=
    fun es hes => exists_ok_mapM fun e he => exists_elementDraft (h.display es hes e he)
  have hclock : ∀ t, p.ticker = some t →
      ∃ c, clock p.signatures settings.playing t = .ok c := fun t ht =>
    exists_ok_bind (exists_actionFormula (h.tick t ht)) fun _ _ =>
      exists_ok_bind (exists_quantityLatex (h.interval t · ht)) fun _ _ => ⟨_, rfl⟩
  refine exists_ok_bind (exists_ok_mapM fun e he => exists_publicDraft (hentries e he))
    fun _ _ => ?_
  refine exists_ok_bind (exists_definitionDrafts h.actionSigned fun n a ha =>
    exists_actionFormula (h.actions n a ha)) fun _ _ => ?_
  refine exists_ok_bind (exists_definitionDrafts h.signed fun n e he => ?_) fun _ _ => ?_
  · obtain ⟨f, hf⟩ := (h.identifiers n e he).exists_ofExpr p.signatures
    exact ⟨f, by rw [hf]; rfl⟩
  · refine exists_ok_bind (exists_ok_optionMapM hdisplay) fun _ _ => ?_
    exact exists_ok_bind (exists_ok_optionMapM hclock) fun _ _ => ⟨_, rfl⟩

theorem Document.spells_encode (d : Document) : Json.Spells d.toJson d.encode.toList := by
  unfold encode Json.encode
  rw [String.toList_ofList]
  exact Json.spells_chars d.toJson

/-- The analysis of a program that was read finds a fault at a place among the tokens, or it
passes and the program has a document that can be written, whatever the settings. -/
theorem Program.parse_compiles {tokens : List Token} {p : Program}
    (h : Program.parse tokens = .ok p) :
    (∃ q, p.analyze.outcome = .ok q ∧ ∀ settings, ∃ d, Document.ofProgram settings q = .ok d ∧
      Json.Spells d.toJson d.encode.toList) ∨
    ∃ e, p.analyze.outcome = .error (.rejected e) ∧ e.area.Among tokens := by
  rcases (Program.shaped_of_parse h).analyze_outcome with ⟨q, hq, hready⟩ | hrejected
  · refine .inl ⟨q, hq, fun settings => ?_⟩
    obtain ⟨d, hd⟩ := hready.exists_ofProgram settings
    exact ⟨d, hd, d.spells_encode⟩
  · exact .inr hrejected

/-- The words `enum E { A, B } let v: int = E.B; public { v; }` on one line. -/
theorem Program.parse_compiles_enum :
    let word (l : Lexeme) (start stop : Nat) : Token :=
      ⟨l, ⟨start, 1, start + 1⟩, ⟨stop, 1, stop + 1⟩⟩
    let tokens := [word (.keyword .enumDecl) 0 4, word (.name "E") 5 6,
      word (.symbol .curlyLeft) 7 8, word (.name "A") 9 10, word (.symbol .comma) 10 11,
      word (.name "B") 12 13, word (.symbol .curlyRight) 14 15,
      word (.keyword .letDecl) 16 19, word (.name "v") 20 21,
      word (.symbol .colon) 21 22, word (.name "int") 23 26, word (.symbol .equal) 27 28,
      word (.name "E") 29 30, word (.symbol .dot) 30 31, word (.name "B") 31 32,
      word (.symbol .semicolon) 32 33, word (.keyword .publicBlock) 34 40,
      word (.symbol .curlyLeft) 41 42, word (.name "v") 43 44, word (.symbol .semicolon) 44 45,
      word (.symbol .curlyRight) 46 47]
    ∃ p, Program.parse tokens = .ok p ∧
      ((∃ q, p.analyze.outcome = .ok q ∧ ∀ settings, ∃ d, ofProgram settings q = .ok d ∧
        Json.Spells d.toJson d.encode.toList) ∨
      ∃ e, p.analyze.outcome = .error (.rejected e) ∧ e.area.Among tokens) := by
  intro word tokens
  have hparse : ∃ p, Program.parse tokens = .ok p := ⟨_, rfl⟩
  obtain ⟨p, hp⟩ := hparse
  exact ⟨p, hp, Program.parse_compiles hp⟩

end Diagram
