import Diagram.Formula
import Diagram.Proofs.Markup.Balanced

/-!
# Formulas with balanced markup

Every form of formula closes what it opens.  What is written as it is must do so by itself: words
and the names of commands.

Main statement: `Formula.balanced_text`.
-/

namespace Diagram

open List

open Mark

theorem Decimal.isDigit_or_of_mem_positionalText {d : Decimal} {c : Char}
    (h : c ∈ d.positionalText) : (c.isDigit || c == '.') := by
  have hmem : c ∈ d.digits ∨ c = '0' ∨ c = '.' := by
    unfold positionalText at h
    grind [mem_of_mem_take, mem_of_mem_drop]
  rcases hmem with hc | rfl | rfl
  · simp [Nat.isDigit_of_mem_toDigits (by decide) (by decide) hc]
  · decide
  · decide

theorem Decimal.positionalText_ne_nil (d : Decimal) : d.positionalText ≠ [] := by
  have hdigits : d.digits ≠ [] := Nat.toDigits_ne_nil
  unfold positionalText
  dsimp only
  split
  · split <;> simp [hdigits]
  · split <;> simp

variable {hollow : Bool}

theorem balanced_positionalText (d : Decimal) : Balanced d.positionalText :=
  balanced_of_forall (by decide) fun _ => d.isDigit_or_of_mem_positionalText

namespace Formula

theorem neat_decimalMarkup (x : Float) : Neat hollow (decimalMarkup x) := by
  have hzero : Neat hollow [.symbol '0'] := neat_symbol (by decide)
  have hinfty : Neat hollow [.control "infty"] := neat_control (by decide)
  unfold decimalMarkup
  split
  · exact neat_fraction hzero hzero
  · exact hinfty
  · exact (neat_symbol (by decide)).cons nofun hinfty
  · rename_i negative m q hx
    have htext : (Decimal.Layout.positional.text x).toList =
        if negative then '-' :: (Decimal.shortest m q).positionalText
        else (Decimal.shortest m q).positionalText := by
      simp [Decimal.Layout.text, hx, Decimal.Layout.usesExponent, Decimal.Layout.positional]
    have hne := Decimal.positionalText_ne_nil (Decimal.shortest m q)
    have hbalanced := balanced_positionalText (Decimal.shortest m q)
    refine neat_run ?_ fun hempty => ?_
    · rw [htext]
      split
      · exact hbalanced.cons (by decide)
      · exact hbalanced
    · rw [hempty] at htext
      split at htext
      · cases htext
      · exact absurd htext.symm hne

section Tame

variable (hollow : Bool) (W : String → Prop)

/-- A formula whose words and names of commands satisfy `W`.  A word is empty only if it may be
`hollow`, and then no letter may follow a formula at once. -/
inductive Tame : Formula → Prop
  | joined {c lhs rhs} (hc : hollow = true → c ≠ .adjacent) (hlhs : Tame lhs) (hrhs : Tame rhs) :
      Tame (.joined c lhs rhs)
  | ordered {lhs r rhs links} (hlhs : Tame lhs) (hrhs : Tame rhs) (hlinks : ∀ l ∈ links, Tame l.2) :
      Tame (.ordered lhs r rhs links)
  | positive {f} (h : Tame f) : Tame (.positive f)
  | negative {f} (h : Tame f) : Tame (.negative f)
  | factorial {f} (h : Tame f) : Tame (.factorial f)
  | prime {f} (h : Tame f) : Tame (.prime f)
  | call {f g} (hf : Tame f) (hg : Tame g) : Tame (.call f g)
  | index {f g} (hf : Tame f) (hg : Tame g) : Tame (.index f g)
  | bracketed {b f} (h : Tame f) : Tame (.bracketed b f)
  | subscript {f g} (hf : Tame f) (hg : Tame g) : Tame (.subscript f g)
  | superscript {f g} (hf : Tame f) (hg : Tame g) : Tame (.superscript f g)
  | sequence {items} (h : ∀ f ∈ items, Tame f) : Tame (.sequence items)
  | sqrt {f} (h : Tame f) : Tame (.sqrt f)
  | nthRoot {f g} (hf : Tame f) (hg : Tame g) : Tame (.nthRoot f g)
  | fraction {f g} (hf : Tame f) (hg : Tame g) : Tame (.fraction f g)
  | mixed {f g h} (hf : Tame f) (hg : Tame g) (hh : Tame h) : Tame (.mixed f g h)
  | derivative {f g} (hf : Tame f) (hg : Tame g) : Tame (.derivative f g)
  | integral {f g h body} (hfull : hollow = false) (hf : Tame f) (hg : Tame g) (hh : Tame h)
      (hbody : ∀ f ∈ body, Tame f) : Tame (.integral f g h body)
  | sum {f g h} (hf : Tame f) (hg : Tame g) (hh : Tame h) : Tame (.sum f g h)
  | product {f g h} (hf : Tame f) (hg : Tame g) (hh : Tame h) : Tame (.product f g h)
  | ellipsis {f g} (hf : Tame f) (hg : ∀ h ∈ g, Tame h) : Tame (.ellipsis f g)
  | letter {c} (hc : c ≠ '\\') : Tame (.letter c)
  | decimal {x} : Tame (.decimal x)
  | command {name} (h : W name) : Tame (.command name)
  | word {s} (h : W s) (hs : s = "" → hollow = true) : Tame (.word s)

end Tame

section Parts

variable {f : Formula} {items : List Formula} {links : List (Relation × Formula)}
  {body : Option Formula} {c : Connector}

theorem neat_itemsMarkup (h : ∀ f ∈ items, Neat hollow f.markup) :
    Neat hollow (itemsMarkup items) := by
  induction items with
  | nil => exact neat_nil
  | cons f items ih =>
    obtain ⟨hf, hitems⟩ := forall_mem_cons.1 h
    cases items with
    | nil => exact hf
    | cons g items => exact hf.behind ((neat_symbol (by decide)).cons nofun (ih hitems)) rfl

theorem neat_relation (r : Relation) : Neat hollow [r.mark] := by
  cases r <;> exact neat_control (by decide)

theorem neat_linksMarkup (h : ∀ l ∈ links, Neat hollow l.2.markup) :
    Neat hollow (linksMarkup links) ∧ headIsLetter (charsOf false (linksMarkup links)) = false := by
  induction links with
  | nil => exact ⟨neat_nil, rfl⟩
  | cons l links ih =>
    obtain ⟨hl, hlinks⟩ := forall_mem_cons.1 h
    obtain ⟨hrest, hhead⟩ := ih hlinks
    obtain ⟨r, f⟩ := l
    have hlink : Neat hollow (r.mark :: f.markup) :=
      (neat_relation r).cons (by cases r <;> nofun) hl
    exact ⟨hlink.behind hrest hhead, by cases r <;> rfl⟩

theorem neat_optionalMarkup (h : ∀ f ∈ body, Neat hollow f.markup) :
    Neat hollow (optionalMarkup body) := by
  cases body with
  | none => exact neat_nil
  | some f => exact h f rfl

theorem neat_connector (c : Connector) : Neat hollow c.marks := by
  cases c with
  | adjacent => exact neat_nil
  | dotTimes | crossTimes | arrow => exact neat_control (by decide)
  | forEach | withBinding => exact neat_operatorName (by decide)
  | percentOf => exact (neat_symbol (by decide)).cons nofun (neat_operatorName (by decide))
  | _ => exact neat_symbol (by decide)

end Parts

theorem Tame.neat {W : String → Prop} (hW : ∀ s, W s → Balanced s.toList) {f : Formula}
    (h : f.Tame hollow W) : Neat hollow f.markup := by
  -- Each form is put together from its parts, and every mark between them begins with no letter.
  have hd : Neat hollow [.symbol 'd'] := neat_symbol (by decide)
  induction h with
  | @joined c _ _ hc _ _ hlhs hrhs =>
    rw [markup]
    by_cases hadjacent : c = .adjacent
    · subst hadjacent
      have hfull : ¬hollow = true := fun hhollow => hc hhollow rfl
      exact (hlhs.append neat_nil (absurd · hfull)).append hrhs (absurd · hfull)
    · refine (hlhs.behind (neat_connector c) (by cases c <;> rfl)).append hrhs fun _ => .inl ?_
      cases c <;> simp [Connector.marks] at hadjacent ⊢
  | @ordered _ r _ _ _ _ _ hlhs hrhs hlinks =>
    obtain ⟨hrest, hhead⟩ := neat_linksMarkup hlinks
    have hfirst := (neat_relation r).cons (by cases r <;> simp [Relation.mark]) hrhs
    exact (hlhs.behind hfirst (by cases r <;> rfl)).behind hrest hhead
  | positive _ h | negative _ h => exact (neat_symbol (by decide)).cons (by simp) h
  | factorial _ h | prime _ h => exact h.behind (neat_symbol (by decide)) rfl
  | call _ _ hf hg => simpa [markup] using hf.behind (hg.bracketed .paren) rfl
  | index _ _ hf hg => simpa [markup] using hf.behind (hg.bracketed .square) rfl
  | bracketed _ h => exact h.bracketed _
  | subscript _ _ hf hg => exact hf.behind (neat_subscript hg) rfl
  | superscript _ _ hf hg => exact hf.behind (neat_superscript hg) rfl
  | sequence _ h => exact neat_itemsMarkup h
  | sqrt _ h => exact neat_root h
  | nthRoot _ _ hf hg => exact neat_nthRoot hf hg
  | fraction _ _ hf hg => exact neat_fraction hf hg
  | mixed _ _ _ hf hg hh => exact hf.behind (neat_fraction hg hh) rfl
  | derivative _ _ hf hg => exact (neat_fraction hd (hd.cons (by simp) hf)).cons (by simp) hg
  | integral hfull _ _ _ _ hf hg hh hbody =>
    have hinside := (neat_optionalMarkup hbody).append (hd.cons (by simp) hf) fun hhollow =>
      absurd (hfull.symm.trans hhollow) (by simp)
    refine (neat_control (by decide)).cons (by simp) ?_
    exact (neat_subscript hg).cons (by simp) ((neat_superscript hh).cons (by simp) hinside)
  | sum _ _ _ hf hg hh | product _ _ _ hf hg hh =>
    refine (neat_control (by decide)).cons (by simp) ?_
    exact (neat_subscript hf).cons (by simp) ((neat_superscript hg).cons (by simp) hh)
  | ellipsis _ _ hf hg =>
    have hdots : Neat hollow [.run "..."] := neat_run (by decide) (by simp)
    exact hf.behind (hdots.cons (by simp) (neat_optionalMarkup hg)) rfl
  | letter hc => exact neat_symbol hc
  | decimal => exact neat_decimalMarkup _
  | command h => exact neat_operatorName (hW _ h)
  | word h hs => exact neat_run (hW _ h) hs

/-- The text of a formula closes what it opens in order, if its words are not empty and neither they
nor the names of its commands have a brace or a backslash. -/
theorem balanced_text {f : Formula}
    (h : f.Tame false fun s => ∀ c ∈ s.toList, c ∉ ['\x7b', '\x7d', '\\']) :
    Balanced f.text.toList := by
  rw [text, Markup.text, String.toList_ofList]
  exact (h.neat fun _ => balanced_of_plain).balanced false

/-- A relation in front of a word is not taken for the beginning of a bracket. -/
theorem balanced_text_relation :
    let f := bracketed .curly (ordered (word "a1") .lessEqual
      (joined .adjacent (word "ft") (nthRoot (letter 'n') (call (command "mean") (ofName "x_y")))) [])
    (f.Tame false fun s => ∀ c ∈ s.toList, c ∉ ['\x7b', '\x7d', '\\']) ∧
      f.text = "\\left\\\x7ba1\\le ft\\sqrt[n]\x7b\\operatorname\x7bmean\x7d" ++
        "\\left(X_\x7bxy\x7d\\right)\x7d\\right\\\x7d" ∧ Balanced f.text.toList := by
  intro f
  have hf : f.Tame false fun s => ∀ c ∈ s.toList, c ∉ ['\x7b', '\x7d', '\\'] := by
    refine .bracketed (.ordered (.word ?_ ?_) (.joined ?_ (.word ?_ ?_) (.nthRoot (.letter ?_)
      (.call (.command ?_) (.subscript (.letter ?_) (.word ?_ ?_))))) nofun) <;> simp [baseLetter]
  exact ⟨hf, by decide, balanced_text hf⟩

end Formula

end Diagram
