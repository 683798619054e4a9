import Diagram.Proofs.Document.Closed
import Diagram.Proofs.Formula.Balanced
import Diagram.Proofs.Typing.Declared

/-!
# Documents with balanced formulas

The names of a program are words, so nothing but a string constant can bring a brace or a backslash
into a formula.  A string is written as it is: the formulas of a document are balanced if the
strings of the program are, and a string with a brace of its own spoils the formula around it.

Main statement: `Program.balanced_ofProgram`.
-/

namespace Diagram

open List

open Mark

theorem IsWord.balanced {s : String} (h : IsWord s) : Balanced s.toList :=
  balanced_of_forall (by decide) h

namespace Formula

/-- A formula whose words are balanced, and may be empty. -/
abbrev Safe : Formula → Prop :=
  Tame true (Balanced ·.toList)

theorem safe_ofName {n : String} (h : IsWord n) : (ofName n).Safe := by
  have hmangled : IsWord (mangled n) := fun c hc => by
    rw [mangled_toList] at hc
    exact h c (mem_of_mem_filter hc)
  exact .subscript (.letter (by decide)) (.word hmangled.balanced fun _ => rfl)

theorem composed_safe : Composed Safe where
  decimal _ := .decimal
  command name h := .command (balanced_of_forall (by decide) (all_eq_true.1 h))
  joined hc hf hg := by
    refine .joined (fun _ hadjacent => hc ?_) hf hg
    simp [hadjacent]
  ordered hf hg := .ordered hf hg nofun
  positive := .positive
  negative := .negative
  call := .call
  index := .index
  bracketed := .bracketed
  superscript := .superscript
  sequence := .sequence
  fraction := .fraction
  ellipsis hf hg := .ellipsis hf fun _ h => Option.some.inj h ▸ hg
  withBinding := .joined fun _ => nofun
  comprehension hf hgs := .bracketed (.joined (fun _ => nofun) hf (.sequence hgs))
  fill {f g} hf hg := by
    have hcount : (ellipsis (decimal 1) (some g)).Safe :=
      .ellipsis .decimal fun _ h => Option.some.inj h ▸ hg
    have hname : (ofName fillName).Safe := safe_ofName (by decide)
    exact .bracketed
      (.joined (fun _ => nofun) hf (.joined (fun _ => nofun) hname (.bracketed hcount)))
  timeStep := .word (by decide) fun _ => rfl

/-- A part of a program whose name is a word and whose strings are balanced. -/
theorem supplied_safe {x : Expr} (hname : ∀ n, x.name? = some n → IsWord n)
    (hstrings : ∀ v, x.value? = some v → ∀ s ∈ v.strings, Balanced s.toList) :
    Supplied Safe x := by
  have hword : IsWord (writtenName x) := by
    cases x with
    | name info n => exact hname n rfl
    | timeStep info => exact (by decide : IsWord Expr.timeStepName)
    | _ => exact (by decide : IsWord "")
  refine ⟨safe_ofName hword, .command hword.balanced, fun c hc => .letter ?_, fun v hv s hs =>
    .word (hstrings v hv s hs) fun _ => rfl⟩
  rintro rfl
  exact absurd (hword _ hc) (by decide)

end Formula

namespace Program

variable {q : Program} {P : Formula → Prop}

/-- A property of formulas that the parts of a program supply holds of all that is written into its
document. -/
theorem Writes.has (hP : Formula.Composed P) (hnodes : ∀ x ∈ q.allNodes, Formula.Supplied P x)
    (hheads : ∀ n sig, q.signatures.get? n = some sig → P (Document.head sig)) {f : Formula}
    {params : List String} (h : q.Writes f params) : P f := by
  have hnodes := forall_allNodes_iff.1 hnodes
  cases h with
  | entry hes he hf => exact hP.ofExpr (hnodes.entries _ hes _ he) hf
  | value he hsig hf =>
    exact hP.equality (hheads _ _ hsig) (hP.ofExpr (hnodes.identifiers _ _ he) hf)
  | action ha hsig hf =>
    exact hP.equality (hheads _ _ hsig) (hP.ofAction (hnodes.actions _ _ ha) hf)
  | quantity hes hx he hf =>
    have hquantities := (forall_mem_append.1 (hnodes.display _ hes _ hx)).1
    exact hP.ofExpr (Expr.forall_nodesOf_iff.1 hquantities _ he) hf
  | click hes hx ha hf =>
    have hclick := (forall_mem_append.1 (hnodes.display _ hes _ hx)).2
    rw [ha] at hclick
    exact hP.ofAction hclick hf
  | interval ht he hf => exact hP.ofExpr (hnodes.interval _ _ ht he) hf
  | tick ht hf => exact hP.ofAction (hnodes.tick _ ht) hf

theorem safe_head {sig : Signature} (h : Document.SpelledOut sig) : (Document.head sig).Safe := by
  unfold Document.head
  split
  · exact Formula.safe_ofName h.1
  · refine .call (Formula.safe_ofName h.1) (.sequence fun f hf => ?_)
    obtain ⟨r, hr, rfl⟩ := mem_map.1 hf
    exact Formula.safe_ofName (h.2 r hr)

variable {source : List Text.Glyph} {tokens : List Token} {p : Program}

/-- The formulas of the document of an analyzed program are balanced, if its strings are. -/
theorem balanced_ofProgram (hscan : Token.scan source = .ok tokens)
    (hparse : Program.parse tokens = .ok p) (h : p.analyze.outcome = .ok q)
    (hstrings : ∀ x ∈ q.allNodes, ∀ v, x.value? = some v → ∀ s ∈ v.strings, Balanced s.toList)
    (settings : Settings) :
    ∃ d, Document.ofProgram settings q = .ok d ∧ ∀ s ∈ d.formulas, Balanced s.toList := by
  obtain ⟨d, hd⟩ := exists_document hparse h settings
  obtain ⟨-, hallows⟩ := allows_of_analyze (L := ⟨True, fun _ => True, IsWord⟩) hparse
    (fun n hn => hn.isWord hscan) h
  refine ⟨d, hd, fun s hs => ?_⟩
  obtain ⟨f, params, hwrites, rfl⟩ := exists_writes hd hs
  have hsafe : f.Safe := by
    refine hwrites.has Formula.composed_safe (fun x hx => ?_) fun n sig hsig => ?_
    · exact Formula.supplied_safe (hallows trivial x hx).name (hstrings x hx)
    · exact safe_head (spelledOut_of_analyze hscan hparse h hsig).2.1
  rw [Formula.text, Markup.text, String.toList_ofList]
  exact (hsafe.neat fun _ => id).balanced false

/-- An empty string, and one that closes what it opens, in a list, a call and an update. -/
theorem balanced_ofProgram_strings :
    let source := Text.Glyph.decode ("var a = [\"\", \"\\\\left(x\\\\right)\"]; " ++
      "let f(b: str) = [b; 2]; action g \x7b a := f(\"\x7by\x7d\") \x7d").toUTF8.toList
    ∃ tokens p q, Token.scan source = .ok tokens ∧ Program.parse tokens = .ok p ∧
      p.analyze.outcome = .ok q ∧
      (∀ x ∈ q.allNodes, ∀ v, x.value? = some v → ∀ s ∈ v.strings, Balanced s.toList) ∧
      ∃ d, Document.ofProgram .default q = .ok d ∧ ∀ s ∈ d.formulas, Balanced s.toList := by
  intro source
  obtain ⟨tokens, hscan, p, hp, q, hq, hvalues⟩ :
      ∃ tokens, Token.scan source = .ok tokens ∧ ∃ p, Program.parse tokens = .ok p ∧
        ∃ q, p.analyze.outcome = .ok q ∧
          ∀ v ∈ q.allNodes.filterMap Expr.value?, ∀ s ∈ v.strings, Balanced s.toList := by
    decide +kernel
  have hstrings : ∀ x ∈ q.allNodes, ∀ v, x.value? = some v →
      ∀ s ∈ v.strings, Balanced s.toList :=
    fun x hx v hv => hvalues v (mem_filterMap.2 ⟨x, hx, hv⟩)
  exact ⟨tokens, p, q, hscan, hp, hq, hstrings, balanced_ofProgram hscan hp hq hstrings .default⟩

/-- A string that is a brace closes nothing. -/
theorem formulas_of_brace :
    let source := Text.Glyph.decode "let a = \"\x7d\";".toUTF8.toList
    ∃ tokens p q d, Token.scan source = .ok tokens ∧ Program.parse tokens = .ok p ∧
      p.analyze.outcome = .ok q ∧ Document.ofProgram .default q = .ok d ∧
      d.formulas = ["X_\x7ba\x7d=\x7d"] ∧ ∀ s ∈ d.formulas, ¬Balanced s.toList := by
  intro source
  simp only [exists_and_left]
  decide +kernel

end Program

end Diagram
