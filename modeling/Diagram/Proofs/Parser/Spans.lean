import Diagram.Proofs.Parser.Shape

/-!
# Spans of expressions that are read

Where tokens stand one after another in a source, none of them empty, so do the operands of every
operation that grows from them, and the operation covers them all.

Main statement: `expr_spans`.
-/

namespace Diagram

open List

/-- Tokens, none of them empty, one after another between two places of a source. -/
def Token.Spread : Nat → List Token → Nat → Prop
  | lo, [], hi => lo ≤ hi
  | lo, t :: ts, hi => lo ≤ t.start.index ∧ t.start.index < t.stop.index ∧ Spread t.stop.index ts hi

/-- Expressions, none of them empty, one after another between two places of a source, each with its
operands inside it. -/
inductive Expr.Spread : Nat → List Expr → Nat → Prop
  | nil {lo hi} (hle : lo ≤ hi) : Spread lo [] hi
  | cons {lo hi e es start stop} (harea : e.area = .between start stop) (hlo : lo ≤ start.index)
      (hne : start.index < stop.index) (hinside : Spread start.index e.operands stop.index)
      (hbehind : Spread stop.index es hi) : Spread lo (e :: es) hi

/-- Both ends of an area are known, and the other area lies between them. -/
def Area.Contains (a b : Area) : Prop :=
  ∃ start stop start' stop', a = .between start stop ∧ b = .between start' stop' ∧
    start.index ≤ start'.index ∧ stop'.index ≤ stop.index

def Area.Before (a b : Area) : Prop :=
  ∃ stop start, a.stop = some stop ∧ b.start = some start ∧ stop.index ≤ start.index

/-- An expression has a start and an end behind it, and its operands stand one after another between
the two. -/
structure Expr.Nests (e : Expr) : Prop where
  span : ∃ start stop, e.area = .between start stop ∧ start.index < stop.index
  inside : ∀ x ∈ e.operands, e.area.Contains x.area
  apart : e.operands.Pairwise fun x y => x.area.Before y.area

variable {lo lo' mid hi hi' : Nat} {ts us : List Token} {e : Expr} {es fs : List Expr}

namespace Token

theorem Spread.split (h : Spread lo (ts ++ us) hi) :
    ∃ mid, Spread lo ts mid ∧ Spread mid us hi := by
  induction ts generalizing lo with
  | nil => exact ⟨lo, Nat.le_refl lo, h⟩
  | cons t ts ih =>
    obtain ⟨hlo, hne, hrest⟩ := h
    obtain ⟨mid, hts, hus⟩ := ih hrest
    exact ⟨mid, ⟨hlo, hne, hts⟩, hus⟩

theorem exists_spread (hne : ∀ t ∈ ts, t.start.index < t.stop.index)
    (hordered : ts.Pairwise fun t u => t.stop.index ≤ u.start.index)
    (hlo : ∀ t ∈ ts, lo ≤ t.start.index) : ∃ hi, Spread lo ts hi := by
  induction ts generalizing lo with
  | nil => exact ⟨lo, Nat.le_refl lo⟩
  | cons t ts ih =>
    obtain ⟨hbehind, hordered⟩ := pairwise_cons.1 hordered
    obtain ⟨ht, hts⟩ := forall_mem_cons.1 hne
    obtain ⟨hi, hrest⟩ := ih hts hordered hbehind
    exact ⟨hi, hlo t mem_cons_self, ht, hrest⟩

end Token

namespace Expr

namespace Spread

theorem le (h : Spread lo es hi) : lo ≤ hi := by
  induction h with
  | nil hle => exact hle
  | cons _ hlo hne _ _ _ ih => omega

theorem mono (h : Spread lo es hi) (hlo : lo' ≤ lo) (hhi : hi ≤ hi') : Spread lo' es hi' := by
  induction h generalizing lo' with
  | nil hle => exact .nil (by omega)
  | cons harea hstart hne hinside _ _ ih =>
    exact .cons harea (by omega) hne hinside (ih (Nat.le_refl _) hhi)

theorem append (h : Spread lo es mid) (h' : Spread mid fs hi) : Spread lo (es ++ fs) hi := by
  induction h with
  | nil hle => exact h'.mono hle (Nat.le_refl _)
  | cons harea hlo hne hinside _ _ ih => exact .cons harea hlo hne hinside (ih h')

theorem mem (h : Spread lo es hi) : ∀ e ∈ es, ∃ start stop, e.area = .between start stop ∧
    lo ≤ start.index ∧ stop.index ≤ hi := by
  induction h with
  | nil => simp
  | @cons lo hi e es start stop harea hlo hne _ hbehind _ ih =>
    intro x hx
    rcases mem_cons.1 hx with rfl | hx
    · exact ⟨start, stop, harea, hlo, hbehind.le⟩
    · obtain ⟨start', stop', hx, hstart, hstop⟩ := ih x hx
      exact ⟨start', stop', hx, by omega, hstop⟩

theorem pairwise (h : Spread lo es hi) : es.Pairwise fun x y => x.area.Before y.area := by
  induction h with
  | nil => exact .nil
  | @cons lo hi e es start stop harea hlo hne _ hbehind _ ih =>
    refine pairwise_cons.2 ⟨fun x hx => ?_, ih⟩
    obtain ⟨start', stop', hx, hle, -⟩ := hbehind.mem x hx
    exact ⟨stop, start', by rw [harea]; rfl, by rw [hx]; rfl, hle⟩

/-- Expressions in a row stand between the start of the first and the end of the last. -/
theorem tight (h : Spread lo es hi) (hne : es ≠ []) :
    ∃ start stop, es.head?.bind (·.area.start) = some start ∧
      es.getLast?.bind (·.area.stop) = some stop ∧ lo ≤ start.index ∧ start.index < stop.index ∧
      stop.index ≤ hi ∧ Spread start.index es stop.index := by
  induction h with
  | nil => exact absurd rfl hne
  | @cons lo hi e es start stop harea hlo hlt hinside hbehind _ ih =>
    have hstart : e.area.start = some start := by rw [harea]; rfl
    have hstop : e.area.stop = some stop := by rw [harea]; rfl
    cases es with
    | nil =>
      refine ⟨start, stop, hstart, hstop, hlo, hlt, hbehind.le, ?_⟩
      exact .cons harea (Nat.le_refl _) hlt hinside (.nil (Nat.le_refl _))
    | cons x xs =>
      obtain ⟨start', stop', -, hlast, hle, hlt', hhi, hrest⟩ := ih (by simp)
      refine ⟨start, stop', hstart, by simpa using hlast, hlo, by omega, hhi, ?_⟩
      exact .cons harea (Nat.le_refl _) hlt hinside (hrest.mono hle (Nat.le_refl _))

/-- All nodes of expressions in a row nest, since the rows of their operands do. -/
theorem nests (h : Spread lo es hi) : ∀ x ∈ nodesOf es, x.Nests := by
  induction h with
  | nil => simp [nodesOf]
  | @cons lo hi e es start stop harea _ hlt hinside _ ihinside ih =>
    have hself : e.Nests := by
      refine ⟨⟨start, stop, harea, hlt⟩, fun x hx => ?_, hinside.pairwise⟩
      obtain ⟨start', stop', hx, hstart, hstop⟩ := hinside.mem x hx
      exact ⟨start, stop, start', stop', harea, hx, hstart, hstop⟩
    rw [nodesOf, forall_mem_append]
    refine ⟨fun x hx => ?_, ih⟩
    cases e with
    | operator info op operands =>
      rcases mem_append.1 hx with hx | hx
      · exact ihinside x hx
      · exact mem_singleton.1 hx ▸ hself
    | _ => exact mem_singleton.1 hx ▸ hself

end Spread

end Expr

namespace Parser

theorem Row.spread (h : Row (fun ts e => ∀ lo hi, Token.Spread lo ts hi → Expr.Spread lo [e] hi) ts es) :
    ∀ {lo}, Token.Spread lo ts hi → Expr.Spread lo es hi := by
  induction h with
  | nil => exact fun hle => .nil hle
  | skip _ ih =>
    rintro lo ⟨hlo, hne, hrest⟩
    exact (ih hrest).mono (by omega) (Nat.le_refl _)
  | cons hfirst _ ih =>
    intro lo hall
    obtain ⟨mid, hts, hus⟩ := hall.split
    exact (hfirst lo mid hts).append (ih hus)

/-- What grows from tokens that stand in order keeps to their order. -/
theorem Grows.spread (h : Grows ts e) (hts : Token.Spread lo ts hi) : Expr.Spread lo [e] hi := by
  refine Grows.rowInduction
    (motive := fun ts e => ∀ lo hi, Token.Spread lo ts hi → Expr.Spread lo [e] hi) ?_ ?_ ?_ h lo hi hts
  · intro t e hleaf lo hi hts
    obtain ⟨hlo, hne, hhi⟩ := hts
    have hnode : e.area = t.area ∧ e.operands = [] := by
      unfold operand? at hleaf
      split at hleaf <;> cases hleaf <;> exact ⟨rfl, rfl⟩
    exact .cons hnode.1 hlo hne (by rw [hnode.2]; exact .nil (by omega)) (.nil hhi)
  · intro ts op operands _ hne hrow lo hi hts
    obtain ⟨start, stop, hstart, hstop, hlo, hlt, hhi, hinside⟩ := (hrow.spread hts).tight hne
    have harea : (Expr.apply op operands).area = .between start stop := by
      show Area.mk _ _ = _
      rw [hstart, hstop]
      rfl
    exact .cons harea hlo hlt hinside (.nil hhi)
  · -- The brackets stand around the operands.
    intro ts opener closer op operands _ hrow lo hi hts
    obtain ⟨mid, ⟨hlo, hopener, hinner⟩, hmid, hcloser, hhi⟩ := hts.split
    have hinside := hrow.spread hinner
    have hle := hinside.le
    have harea : (enclosed opener closer (Expr.apply op operands)).area =
        .between opener.start closer.stop := rfl
    exact .cons harea hlo (by omega) (hinside.mono (by omega) (by omega)) (.nil hhi)

/-- In every expression that is read from tokens in order, none of them empty, each node has a start
and an end, covers its operands, and has them one after another. -/
theorem expr_spans {tokens : List Token} {last : Option Location} {ends : Ends} {d : Cursor}
    (hne : ∀ t ∈ tokens, t.start.index < t.stop.index)
    (hordered : tokens.Pairwise fun t u => t.stop.index ≤ u.start.index)
    (h : (expr ends).run ⟨tokens, last⟩ = .ok e d) : ∀ x ∈ e.nodes, x.Nests := by
  obtain ⟨us, t, rest, rfl, -, -, hgrown⟩ := expr_grown h
  obtain ⟨hi, hspread⟩ := Token.exists_spread hne hordered fun t _ => Nat.zero_le t.start.index
  obtain ⟨mid, hus, -⟩ := hspread.split
  have hrow : Expr.Spread 0 [e] mid := (hgrown.mono fun h lo hi hts => Grows.spread h hts).spread hus
  exact Expr.forall_nodesOf_iff.1 hrow.nests e (mem_singleton_self e)

/-- The tokens of `a * [1, -b];`. -/
theorem expr_spans_product :
    let place (i : Nat) : Location := ⟨i, 1, i + 1⟩
    let tokens : List Token :=
      [⟨.name "a", place 0, place 1⟩, ⟨.symbol .star, place 2, place 3⟩,
        ⟨.symbol .squareLeft, place 4, place 5⟩, ⟨.int 1, place 5, place 6⟩,
        ⟨.symbol .comma, place 6, place 7⟩, ⟨.symbol .minus, place 8, place 9⟩,
        ⟨.name "b", place 9, place 10⟩, ⟨.symbol .squareRight, place 10, place 11⟩,
        ⟨.symbol .semicolon, place 11, place 12⟩]
    ∃ e d, (expr (.ofSymbols [.semicolon])).run ⟨tokens, none⟩ = .ok e d ∧
      e.area = .between (place 0) (place 11) ∧ ∀ x ∈ e.nodes, x.Nests := by
  intro place tokens
  have hrun : (expr (.ofSymbols [.semicolon])).run ⟨tokens, none⟩ = .ok _ _ := rfl
  exact ⟨_, _, hrun, rfl, expr_spans (by simp [tokens, place]) (by simp [tokens, place]) hrun⟩

end Parser

end Diagram
