import Diagram.Proofs.Document.Definitions
import Diagram.Proofs.Formula.Unbound

/-!
# The names of a document

The formulas of a document are those of the entries, of the definitions, of what is drawn, of the
click actions and of the ticker.  Every target name in one of them that is not bound there is
defined by an entry of the document, or it is the name of an enumeration: an enumeration is
declared, but a document does not define it.

Main statement: `Program.closed_ofProgram`.
-/

namespace Diagram

open List Formula Document

/-- A formula that is written into the document of a program, and the parameters around it. -/
inductive Program.Writes (q : Program) : Formula → List String → Prop
  | entry {es e f} (hes : q.entries = some es) (he : e ∈ es)
      (hf : ofExpr q.signatures e = .ok f) : Writes q f []
  | value {n e sig f} (he : q.identifiers.get? n = some e) (hsig : q.signatures.get? n = some sig)
      (hf : ofExpr q.signatures e = .ok f) :
      Writes q (equality (head sig) f) (q.paramNames n)
  | action {n a sig f} (ha : q.actions.get? n = some a) (hsig : q.signatures.get? n = some sig)
      (hf : ofAction q.signatures a = .ok f) :
      Writes q (equality (head sig) f) (q.paramNames n)
  | quantity {es x e f} (hes : q.display = some es) (hx : x ∈ es)
      (he : e ∈ x.quantities.filterMap id) (hf : ofExpr q.signatures e = .ok f) :
      Writes q f []
  | click {es x a f} (hes : q.display = some es) (hx : x ∈ es) (ha : x.click = some a)
      (hf : ofAction q.signatures a = .ok f) : Writes q f []
  | interval {t e f} (ht : q.ticker = some t) (he : t.interval = some e)
      (hf : ofExpr q.signatures e = .ok f) : Writes q f []
  | tick {t f} (ht : q.ticker = some t) (hf : ofAction q.signatures t.action = .ok f) :
      Writes q f []

namespace Document

/-- The texts of the formulas of an entry; an empty one is not set. -/
def Entry.formulas : Entry → List String
  | .expression x =>
    [x.latex, x.colorLatex, x.pointSize, x.pointOpacity, x.lineWidth, x.lineOpacity, x.fillOpacity,
      x.labelSize, x.labelAngle] ++ x.clickableInfo.toList.map (·.latex)
  | _ => []

def formulas (d : Document) : List String :=
  (d.entries.flatMap Entry.formulas ++
    d.ticker.toList.flatMap fun c => [c.handlerLatex, c.minStepLatex]).filter (· != "")

variable {sigs : Signatures} {α : Type} {e : Expr} {e? : Option Expr}

theorem exists_of_latex {s : String} (h : latex sigs e = .ok s) :
    ∃ f, ofExpr sigs e = .ok f ∧ f.text = s :=
  map_ok_iff.1 (mapError_ok_iff.1 h)

theorem exists_of_quantityLatex {s : String} (h : quantityLatex sigs e? = .ok s) (hs : s ≠ "") :
    ∃ e f, e? = some e ∧ ofExpr sigs e = .ok f ∧ f.text = s := by
  cases e? with
  | none =>
    cases h
    exact absurd rfl hs
  | some e =>
    obtain ⟨f, hf, hs⟩ := exists_of_latex h
    exact ⟨e, f, rfl, hf, hs⟩

theorem exists_of_colorFields {color s : String} (h : colorFields sigs e? = .ok (color, s))
    (hs : s ≠ "") : ∃ e f, e? = some e ∧ ofExpr sigs e = .ok f ∧ f.text = s := by
  unfold colorFields at h
  split at h
  case h_1 =>
    cases h
    exact absurd rfl hs
  case h_2 e =>
    split at h
    · cases h
      exact absurd rfl hs
    · obtain ⟨text, hlatex, heq⟩ := map_ok_iff.1 h
      cases heq
      obtain ⟨f, hf, htext⟩ := exists_of_latex hlatex
      exact ⟨e, f, rfl, hf, htext⟩

variable {entry : Entry} {s : String}

theorem exists_of_publicDraft (h : Drafted (publicDraft sigs e) entry) (hs : s ∈ entry.formulas)
    (hset : s ≠ "") : ∃ f, ofExpr sigs e = .ok f ∧ f.text = s := by
  obtain ⟨d, id, folderId, h, rfl⟩ := h
  unfold publicDraft at h
  split at h
  · cases h
    cases hs
  · obtain ⟨text, htext, h⟩ := bind_ok_iff.1 h
    cases h
    have hs : s = text := by simpa [Entry.formulas, Expression.plain, hset] using hs
    exact hs ▸ exists_of_latex htext

theorem exists_of_drafting {formula : α → Except Formula.Defect Formula} {e : String × α}
    (h : Drafted (drafting sigs (fun a => (formula a).mapError .formula) e) entry)
    (hs : s ∈ entry.formulas) (hset : s ≠ "") :
    ∃ sig f, sigs.get? e.1 = some sig ∧ formula e.2 = .ok f ∧ (equality (head sig) f).text = s := by
  obtain ⟨d, id, folderId, h, rfl⟩ := h
  obtain ⟨f, hf, h⟩ := bind_ok_iff.1 h
  unfold definitionDraft at h
  split at h
  case h_1 => cases h
  case h_2 sig hsig =>
    cases h
    have hs : s = (equality (head sig) f).text := by
      simpa [Entry.formulas, Expression.plain, hset] using hs
    exact ⟨sig, f, hsig, mapError_ok_iff.1 hf, hs.symm⟩

theorem Shows.exists_of_formulas {e : Element} {x : Expression} (h : Shows sigs e x)
    (hs : s ∈ (Entry.expression x).formulas) (hset : s ≠ "") :
    (∃ y ∈ e.quantities.filterMap id, ∃ f, ofExpr sigs y = .ok f ∧ f.text = s) ∨
      ∃ a f, e.click = some a ∧ ofAction sigs a = .ok f ∧ f.text = s := by
  have hquantity : ∀ {y f}, some y ∈ e.quantities → ofExpr sigs y = .ok f → f.text = s →
      ∃ y ∈ e.quantities.filterMap id, ∃ f, ofExpr sigs y = .ok f ∧ f.text = s :=
    fun hy hf htext => ⟨_, mem_filterMap.2 ⟨_, hy, rfl⟩, _, hf, htext⟩
  rcases mem_append.1 hs with hs | hs
  · left
    by_cases hcolor : s = x.colorLatex
    · subst hcolor
      obtain ⟨y, f, hy, hf, htext⟩ := exists_of_colorFields h.color hset
      exact hquantity (by simp [Element.quantities, hy]) hf htext
    · have hs : s ∈ [x.latex, x.pointSize, x.pointOpacity, x.lineWidth, x.lineOpacity,
          x.fillOpacity, x.labelSize, x.labelAngle] := by
        simpa [hcolor] using hs
      obtain ⟨y?, hy?, htext⟩ := exists_of_forall₂ h.quantities hs
      obtain ⟨y, f, rfl, hf, htext⟩ := exists_of_quantityLatex htext hset
      refine hquantity ?_ hf htext
      simp only [mem_cons, not_mem_nil, or_false, eq_comm (a := some y),
        Option.bind_eq_some_iff] at hy?
      rcases hy? with hy | ⟨a, ha, hy⟩ | ⟨a, ha, hy⟩ | ⟨a, ha, hy⟩ | ⟨a, ha, hy⟩ | ⟨a, ha, hy⟩ |
        ⟨a, ha, hy⟩ | ⟨a, ha, hy⟩ <;> simp [Element.quantities, *]
  · right
    obtain ⟨c, hc, rfl⟩ := List.mem_map.1 hs
    obtain ⟨a, ha, f, hf, rfl⟩ := exists_of_optionRel h.click (Option.mem_toList.1 hc)
    exact ⟨a, f, ha, mapError_ok_iff.1 hf, rfl⟩

end Document

namespace Program

variable {q : Program} {D : String → Prop}

theorem exists_writes {settings : Settings} {d : Document}
    (h : ofProgram settings q = .ok d) {s : String} (hs : s ∈ d.formulas) :
    ∃ f params, q.Writes f params ∧ f.text = s := by
  obtain ⟨_, _, _, entries, actions, values, display, hd, hentries, hactions, hvalues, hdisplay,
    hticker⟩ := exists_entries h
  obtain ⟨hs, hset⟩ := mem_filter.1 hs
  have hset : s ≠ "" := bne_iff_ne.1 hset
  rcases mem_append.1 hs with hs | hs
  · obtain ⟨entry, hentry, hs⟩ := mem_flatMap.1 hs
    rw [hd] at hentry
    simp only [mem_append, mem_cons, cons_append, or_assoc] at hentry
    rcases hentry with rfl | hentry | rfl | hentry | rfl | hentry | hentry
    · cases hs
    · obtain ⟨e, he, hdrafted⟩ := exists_of_forall₂ hentries hentry
      obtain ⟨f, hf, htext⟩ := exists_of_publicDraft hdrafted hs hset
      cases hes : q.entries with
      | none => simp [hes] at he
      | some es => exact ⟨f, [], .entry hes (by simpa [hes] using he) hf, htext⟩
    · cases hs
    · obtain ⟨⟨n, a⟩, ha, hdrafted⟩ := exists_of_forall₂ hactions hentry
      obtain ⟨sig, f, hsig, hf, htext⟩ := exists_of_drafting hdrafted hs hset
      exact ⟨_, _, .action (NameMap.get?_eq_some_iff.2 ha) hsig hf, htext⟩
    · cases hs
    · obtain ⟨⟨n, e⟩, he, hdrafted⟩ := exists_of_forall₂ hvalues hentry
      obtain ⟨sig, f, hsig, hf, htext⟩ := exists_of_drafting hdrafted hs hset
      exact ⟨_, _, .value (NameMap.get?_eq_some_iff.2 he) hsig hf, htext⟩
    · rcases hdisplay entry hentry with ⟨folder, rfl⟩ | ⟨es, x, hes, hx, hdrafted⟩
      · cases hs
      · obtain ⟨_, rfl, hshows⟩ := exists_of_elementDraft hdrafted
        rcases hshows.exists_of_formulas hs hset with ⟨y, hy, f, hf, htext⟩ | ⟨a, f, ha, hf, htext⟩
        · exact ⟨f, [], .quantity hes hx hy hf, htext⟩
        · exact ⟨f, [], .click hes hx ha hf, htext⟩
  · obtain ⟨c, hc, hs⟩ := mem_flatMap.1 hs
    obtain ⟨t, ht, hclock⟩ := exists_of_optionRel hticker (Option.mem_toList.1 hc)
    obtain ⟨f, hf, hclock⟩ := bind_ok_iff.1 hclock
    obtain ⟨step, hstep, hclock⟩ := bind_ok_iff.1 hclock
    cases hclock
    simp only [mem_cons, not_mem_nil, or_false] at hs
    rcases hs with rfl | rfl
    · exact ⟨f, [], .tick ht (mapError_ok_iff.1 hf), rfl⟩
    · obtain ⟨e, g, he, hg, htext⟩ := exists_of_quantityLatex hstep hset
      exact ⟨g, [], .interval ht he hg, htext⟩

variable {sig : Signature}

theorem closed_head (hsig : D sig.name) :
    (head sig).Closed (Formula.Known D (sig.paramList.map (·.name))) := by
  have hname : (ofName sig.name).Closed (Formula.Known D (sig.paramList.map (·.name))) :=
    closed_ofName (.inr hsig)
  unfold Document.head
  split
  · exact hname
  · refine built_closed.call hname (built_closed.sequence fun f hf => ?_)
    obtain ⟨r, hr, rfl⟩ := List.mem_map.1 hf
    exact closed_ofName (.inl (List.mem_map.2 ⟨r, hr, rfl⟩))

/-- The names that a formula of a document does not bind are parameters or declared. -/
theorem Writes.closed (hscoped : q.Scoped D)
    (hD : ∀ n sig, q.signatures.get? n = some sig → D sig.name) {f : Formula}
    {params : List String} (h : q.Writes f params) : f.Closed (Formula.Known D params) := by
  have hparams : ∀ {n sig}, q.signatures.get? n = some sig →
      q.paramNames n = sig.paramList.map (·.name) := by
    intro n sig hsig
    simp [paramNames, hsig]
  cases h with
  | entry hes he hf => exact closed_ofExpr (hscoped.entries _ hes _ he) hf
  | value he hsig hf =>
    have hvalue := closed_ofExpr (hscoped.identifiers _ _ he) hf
    rw [hparams hsig] at hvalue ⊢
    exact built_closed.equality (closed_head (hD _ _ hsig)) hvalue
  | action ha hsig hf =>
    have hvalue := closed_ofAction (hscoped.actions _ _ ha) hf
    rw [hparams hsig] at hvalue ⊢
    exact built_closed.equality (closed_head (hD _ _ hsig)) hvalue
  | quantity hes hx he hf => exact closed_ofExpr (hscoped.quantities _ hes _ hx _ he) hf
  | click hes hx ha hf => exact closed_ofAction (hscoped.click _ hes _ hx _ ha) hf
  | interval ht he hf => exact closed_ofExpr (hscoped.interval _ _ ht he) hf
  | tick ht hf => exact closed_ofAction (hscoped.tick _ ht) hf

variable {source : List Text.Glyph} {tokens : List Token} {p : Program}

theorem WellMade.defined_or_enum (h : p.WellMade tokens) {n : String}
    (hsig : p.signatures.get? n = some sig) : n ∈ p.definedNames ∨ p.enums.contains n := by
  rcases (h.written n sig hsig).kind with hkind | hkind | hkind
  · exact .inl (h.mem_definedNames_iff.2 ⟨sig, hsig, .inl hkind⟩)
  · exact .inl (h.mem_definedNames_iff.2 ⟨sig, hsig, .inr hkind⟩)
  · exact .inr ((h.enumerates n).2 ⟨sig, hsig, beq_iff_eq.2 hkind⟩)

/-- Every formula of the document of an analyzed program is written by the program, and every
target name in it that is neither bound there nor a parameter is defined by the document, unless
it is the name of an enumeration. -/
theorem closed_ofProgram (hscan : Token.scan source = .ok tokens)
    (hparse : Program.parse tokens = .ok p) (h : p.analyze.outcome = .ok q) (settings : Settings) :
    ∃ d, Document.ofProgram settings q = .ok d ∧
      (∀ s ∈ d.formulas, ∃ f params, q.Writes f params ∧ f.text = s) ∧
      ∀ f params, q.Writes f params → ∀ w ∈ f.unbound false,
        w ∈ params.map Formula.mangled ∨ (Formula.target w).text ∈ d.definedNames ∨
          ∃ m, p.enums.contains m = true ∧ w = Formula.mangled m := by
  have hmade := wellMade_of_parse hparse
  obtain ⟨d, hd⟩ := exists_document hparse h settings
  obtain ⟨-, hnames, -⟩ := leftSides_ofProgram hscan hparse h hd
  have hscoped : q.Scoped fun n => ∃ sig, p.signatures.get? n = some sig :=
    Typing.scoped_of_analyze h fun n sig hsig _ => ⟨sig, hsig⟩
  refine ⟨d, hd, fun s => exists_writes hd, fun f params hwrites w hw => ?_⟩
  have hdeclared : ∀ n sig, q.signatures.get? n = some sig →
      ∃ sig', p.signatures.get? sig.name = some sig' := by
    intro n sig hsig
    obtain ⟨rfl, -, sig', hsig', -⟩ := spelledOut_of_analyze hscan hparse h hsig
    exact ⟨sig', hsig'⟩
  obtain ⟨n, hn | ⟨sig, hsig⟩, rfl⟩ := hwrites.closed hscoped hdeclared w hw
  · exact .inl (List.mem_map_of_mem hn)
  · refine .inr ((hmade.defined_or_enum hsig).imp (fun hdefined => ?_) fun henum => ⟨n, henum, rfl⟩)
    rw [hnames]
    exact List.mem_map.2 ⟨n, hdefined, rfl⟩

/-- A parameter, a binding, a comprehension and an action around declared names. -/
theorem closed_ofProgram_bindings :
    let source := Text.Glyph.decode ("var x = 0; let f(a: int) = b + x with b = a; " ++
      "action step \x7b x := f(x) \x7d public \x7b [f(i) for i in [x, x]]; \x7d").toUTF8.toList
    ∃ tokens p q, Token.scan source = .ok tokens ∧ Program.parse tokens = .ok p ∧
      p.analyze.outcome = .ok q ∧ p.definedNames = ["step", "f", "x"] ∧ p.enums.names = [] ∧
      ∃ d, ofProgram .default q = .ok d ∧
        (∀ s ∈ d.formulas, ∃ f params, q.Writes f params ∧ f.text = s) ∧
        ∀ f params, q.Writes f params → ∀ w ∈ f.unbound false,
          w ∈ params.map mangled ∨ (target w).text ∈ d.definedNames ∨
            ∃ m, p.enums.contains m = true ∧ w = mangled m := by
  intro source
  obtain ⟨tokens, hscan, p, hp, q, hq, hdefined, henums⟩ :
      ∃ tokens, Token.scan source = .ok tokens ∧ ∃ p, Program.parse tokens = .ok p ∧
        ∃ q, p.analyze.outcome = .ok q ∧ p.definedNames = ["step", "f", "x"] ∧
          p.enums.names = [] := by decide +kernel
  exact ⟨tokens, p, q, hscan, hp, hq, hdefined, henums, closed_ofProgram hscan hp hq .default⟩

/-- The name of an enumeration that stands as a value is not defined. -/
theorem formulas_of_enum :
    let source := Text.Glyph.decode "enum Dir \x7b Up, Down \x7d public \x7b Dir; \x7d".toUTF8.toList
    ∃ tokens p q d, Token.scan source = .ok tokens ∧ Program.parse tokens = .ok p ∧
      p.analyze.outcome = .ok q ∧ ofProgram .default q = .ok d ∧
      d.formulas = ["X_\x7bDir\x7d"] ∧ d.definedNames = [] := by
  intro source
  simp only [exists_and_left]
  decide +kernel

end Program

end Diagram
