import Diagram.Proofs.Formula.Grouping.OfFormula
import Diagram.Proofs.Formula.Rendered

/-!
# Expressions that are read back

Only some operations are written in brackets, so what the operands of the others are decides
whether the markup of an expression is read as it was meant.  An expression is separated if no
operand binds more loosely than the place where it is written: a constant with a minus sign or a
power that is the base of a power, and bindings that stand beside anything else, are not.

Main statements: `Formula.Rendered.stands`, `Formula.Enacted.stands`.
-/

namespace Diagram

open List Grouping Link

/-- Whether a constant is written with a minus sign in front. -/
def Value.isSigned (v : Value) : Bool :=
  (Mark.piecesOf (Formula.ofValue v).markup).head? == some (.symbol '-')

/-- How tightly what an operation is written as holds together. -/
def Operation.level : Operation → Nat
  | .exponent => powerLevel
  | .withBinding => Link.withBinding.level
  | .assignment => Link.equals.level
  | .update => Link.arrow.level
  | _ => tightLevel

namespace Expr

/-- How tightly what an expression is written as holds together. -/
def level : Expr → Nat
  | literal _ v => if v.isSigned then signLevel else tightLevel
  | operator _ op _ => op.level
  | _ => tightLevel

/-- The innermost item of a chain of comprehensions. -/
def item : Expr → Expr
  | operator _ .listMap [body, _, _] => body.item
  | e => e

def sources : Expr → List Expr
  | operator _ .listMap [body, _, source] => source :: body.sources
  | _ => []

def bindings : Expr → List Expr
  | operator _ .withBinding [left, right] => left :: right.bindings
  | e => [e]

end Expr

/-- The least levels of some items.  Several items have commas between them. -/
def itemPlaces (es : List Expr) : List (Nat × Expr) :=
  es.map fun e => (if es.length ≤ 1 then 0 else comma.left, e)

/-- The least levels of the sources of comprehensions, each of which ends an equation. -/
def sourcePlaces (sources : List Expr) : List (Nat × Expr) :=
  sources.map (equals.right, ·)

/-- The least levels of the two sides of a connector. -/
def Link.places (k : Link) (a b : Expr) : List (Nat × Expr) :=
  [(k.left, a), (k.right, b)]

/-- The least levels of the conditions and values of a case distinction, and of its default. -/
def casePlaces : List Expr → List (Nat × Expr)
  | condition :: value :: rest =>
    (equals.left, condition) :: (colon.right, value) :: casePlaces rest
  | rest => rest.map (comma.left, ·)

/-- The least levels of the starting values of a range and of its end. -/
def rangePlaces : List Expr → List (Nat × Expr)
  | a :: b :: c :: rest => (comma.left, a) :: rangePlaces (b :: c :: rest)
  | rest => rest.map (ellipsis.left, ·)

/-- The places where the operands of an operation are written, each with the least level of what
may stand there. -/
def Operation.places : Operation → List Expr → List (Nat × Expr)
  | .pointLiteral, es | .listLiteral, es | .modulus, es => itemPlaces es
  | .listFill, [item, count] => [(forEach.left, item), (ellipsis.right, count)]
  | .listMap, [body, _, source] =>
    (forEach.left, body.item) :: sourcePlaces (source :: body.sources)
  | .listFilter, [list, condition] =>
    [(powerLevel, list), (if list.sources.isEmpty then equals.left else forEach.left, condition)]
  | .memberAccess, subject :: _ => [(powerLevel, subject)]
  | .call, callee :: args => (powerLevel, callee) :: itemPlaces args
  | .actionCall, _ :: args => itemPlaces args
  | .index, [a, b] => [(powerLevel, a), (0, b)]
  | .posate, [a] | .negate, [a] => [(signLevel, a)]
  | .not, [a] => [(equals.left, a)]
  | .exponent, [a, b] => [(tightLevel, a), (0, b)]
  | .multiply, [a, b] => times.places a b
  | .divide, [a, b] => [(0, a), (0, b)]
  | .add, [a, b] => plus.places a b
  | .subtract, [a, b] => minus.places a b
  | .lessThan, [a, b] | .greaterThan, [a, b] | .lessEqual, [a, b] | .greaterEqual, [a, b]
  | .equal, [a, b] | .notEqual, [a, b] | .assignment, [a, b] | .update, [a, b] =>
    equals.places a b
  | .and, [a, b] | .or, [a, b] => [(equals.left, a), (comma.left, b)]
  | .exclusiveRange, es | .inclusiveRange, es => rangePlaces es
  | .conditional, [e] => [(0, e)]
  | .conditional, es => casePlaces es
  | .withBinding, [body, bindings] =>
    (Link.withBinding.left, body) :: bindings.bindings.map (Link.comma.left, ·)
  | _, _ => []

/-- No operand binds more loosely than the place where it is written. -/
inductive Expr.Separated : Expr → Prop
  | literal {info v} : Separated (.literal info v)
  | name {info n} : Separated (.name info n)
  | timeStep {info} : Separated (.timeStep info)
  | operator {info op operands}
      (hlevels : ∀ place ∈ Operation.places op operands, place.1 ≤ place.2.level)
      (hplaced : ∀ place ∈ Operation.places op operands, Separated place.2) :
      Separated (.operator info op operands)

/-- What stands in some places is separated and binds tightly enough. -/
def Fill (places : List (Nat × Expr)) : Prop :=
  ∀ place ∈ places, place.1 ≤ place.2.level ∧ place.2.Separated

@[simp] theorem fill_nil : Fill [] := nofun

@[simp] theorem fill_cons {n : Nat} {e : Expr} {places : List (Nat × Expr)} :
    Fill ((n, e) :: places) ↔ (n ≤ e.level ∧ e.Separated) ∧ Fill places :=
  forall_mem_cons

variable {operands : List Expr}

theorem separated_operator_iff {info : Info} {op : Operation} :
    (Expr.operator info op operands).Separated ↔ Fill (op.places operands) := by
  constructor
  · rintro (_ | _ | _ | ⟨hlevels, hplaced⟩) place hplace
    exact ⟨hlevels place hplace, hplaced place hplace⟩
  · intro h
    exact .operator (fun place hplace => (h place hplace).1) fun place hplace => (h place hplace).2

/-- An expression is bindings, an equation, or nothing looser than a sign. -/
theorem Expr.level_cases (e : Expr) : e.level = 1 ∨ e.level = 5 ∨ 9 ≤ e.level := by
  cases e with
  | literal info v =>
    rw [level]
    split <;> simp
  | operator info op operands => cases op <;> simp [level, Operation.level, Link.level]
  | _ => simp [level]

theorem Expr.level_ne_three (e : Expr) : e.level ≠ 3 := by
  have := e.level_cases
  omega

theorem Expr.three_le_level_iff (e : Expr) : 3 ≤ e.level ↔ 4 ≤ e.level := by
  have := e.level_ne_three
  omega

namespace Grouping

variable {gs : List Grouping} {g : Grouping}

/-- Items are grouped if each of them is, and if several of them bind more tightly than commas. -/
theorem grouped_sequence (h : ∀ g ∈ gs, g.level ≠ 3) :
    (sequence gs).Grouped ↔ (∀ g ∈ gs, g.Grouped) ∧ (2 ≤ gs.length → ∀ g ∈ gs, 4 ≤ g.level) := by
  fun_induction sequence gs with
  | case1 => simp [Grouped]
  | case2 g => simp
  | case3 g g' rest ih =>
    obtain ⟨-, hrest⟩ := forall_mem_cons.1 h
    have hlast : 3 ≤ (sequence (g' :: rest)).level ↔ (rest = [] → 4 ≤ g'.level) := by
      have hg' := hrest g' (by simp)
      cases rest with
      | nil => simp [sequence]; omega
      | cons => simp [sequence, Link.level]
    change (4 ≤ g.level ∧ 3 ≤ (sequence (g' :: rest)).level ∧ g.Grouped ∧
      (sequence (g' :: rest)).Grouped) ↔ _
    rw [ih hrest]
    cases rest <;> simp <;> grind

/-- Items that bind more tightly than commas. -/
theorem grouped_sequence_of_le (h : ∀ g ∈ gs, 4 ≤ g.level) :
    (sequence gs).Grouped ↔ ∀ g ∈ gs, g.Grouped := by
  rw [grouped_sequence fun g hg => by have := h g hg; omega]
  exact ⟨And.left, fun hgs => ⟨hgs, fun _ => h⟩⟩

theorem three_le_sequence (hne : gs ≠ []) (h : ∀ g ∈ gs, 4 ≤ g.level) :
    3 ≤ (sequence gs).level := by
  fun_cases sequence gs with
  | case1 => exact absurd rfl hne
  | case2 g => exact Nat.le_of_succ_le (h g (by simp))
  | case3 => simp [Link.level]

/-- Several items are as loose as a comma, a single one as it is. -/
theorem two_le_sequence_iff (h : ∀ g ∈ gs, g.level ≠ 2 ∧ g.level ≠ 3) (hpos : 0 < gs.length) :
    2 ≤ (sequence gs).level ↔ (gs.length = 1 → ∀ g ∈ gs, 4 ≤ g.level) := by
  fun_cases sequence gs with
  | case1 => simp at hpos
  | case2 g =>
    have := h g (by simp)
    simp
    omega
  | case3 => simp [Link.level]

/-- A grouped part with a sign in front, or one that nothing is attached to. -/
def Plain (g : Grouping) : Prop :=
  g.Grouped ∧ g.level = if g.pieces.head? == some (.symbol '-') then signLevel else tightLevel

theorem plain_ofRun (s : String) : (ofRun s).Plain := by
  refine ⟨grouped_ofRun s, ?_⟩
  unfold ofRun
  cases unsigned? s <;> simp [pieces, Piece.sign]

theorem plain_ofDecimal (x : Float) : (ofDecimal x).Plain := by
  refine ⟨grouped_ofDecimal x, ?_⟩
  unfold ofDecimal
  cases Decimal.Binary.ofFloat x with
  | nan => simp [fraction, pieces, Frame.around, Frame.level]
  | infinite negative => cases negative <;> simp [pieces, Piece.sign]
  | finite => exact (plain_ofRun _).2

theorem plain_enclosed (h : g.Grouped) (b : Bracket) : (enclosed (.bracket b) g).Plain :=
  ⟨⟨rfl, h⟩, by simp [pieces, Frame.around]⟩

theorem plain_call (h : g.Grouped) (name : String) :
    (affixed (.bracket .paren) (atom (.name name)) g).Plain :=
  ⟨by simp [Grouped, Frame.isAffix, Frame.left, Piece.isAtom, h],
    by simp [pieces, Frame.around, Frame.level]⟩

theorem Plain.signLevel_le (h : g.Plain) : signLevel ≤ g.level := by
  rw [h.2]
  split <;> simp

theorem grouped_sequence_of_plain (h : ∀ g ∈ gs, g.Plain) : (sequence gs).Grouped :=
  (grouped_sequence_of_le fun g hg => Nat.le_trans (by decide) (h g hg).signLevel_le).2
    fun g hg => (h g hg).1

end Grouping

attribute [local simp] Grouping.Grouped Frame.isPrimary Frame.isAffix Frame.left Piece.isAtom
  Operation.places Link.places Link.left Link.right Link.level and_assoc and_left_comm

namespace Formula

theorem exists_groupings_map {α : Type} {f : α → Formula} {P : Grouping → Prop} {as : List α}
    (h : ∀ a ∈ as, ∃ g, (f a).grouping? = some g ∧ P g) :
    ∃ gs, groupings? (as.map f) = some gs ∧ ∀ g ∈ gs, P g := by
  induction as with
  | nil => exact ⟨[], rfl, nofun⟩
  | cons a as ih =>
    obtain ⟨ha, has⟩ := forall_mem_cons.1 h
    obtain ⟨g, hg, hP⟩ := ha
    obtain ⟨gs, hgs, hPs⟩ := ih has
    exact ⟨g :: gs, by simp [groupings?, hg, hgs], forall_mem_cons.2 ⟨hP, hPs⟩⟩

theorem exists_ofVertex (v : Vertex) : ∃ g, (ofVertex v).grouping? = some g ∧ g.Plain := by
  refine ⟨_, grouping?_bracketed (grouping?_pair rfl rfl) .paren, plain_enclosed ?_ _⟩
  simp

variable {f a : Formula} {fs : List Formula} {gs : List Grouping} {info : Info} {op : Operation}
  {g : Grouping} {es sources args : List Expr} {b : Clause} {e item body : Expr}

theorem exists_sequence_of_plain (hgs : groupings? fs = some gs) (h : ∀ g ∈ gs, g.Plain) :
    ∃ g, (sequence fs).grouping? = some g ∧ g.Grouped :=
  ⟨.sequence gs, grouping?_sequence hgs, grouped_sequence_of_plain h⟩

theorem exists_commandCall {name : String} (hgs : groupings? fs = some gs) (h : ∀ g ∈ gs, g.Plain) :
    ∃ g, (commandCall name fs).grouping? = some g ∧ g.Plain := by
  obtain ⟨g, hg, hgrouped⟩ := exists_sequence_of_plain hgs h
  exact ⟨_, grouping?_call rfl hg, plain_call hgrouped name⟩

mutual

theorem exists_ofValue : (v : Value) → ∃ g, (ofValue v).grouping? = some g ∧ g.Plain
  | .real _ | .int _ | .bool _ | .enum _ _ _ => ⟨_, rfl, plain_ofDecimal _⟩
  | .point v => exists_ofVertex v
  | .ipoint x y => exists_ofVertex ⟨Value.floatOfInteger x, Value.floatOfInteger y⟩
  | .color model a b c => by
    have hgs : groupings? [decimal a, decimal b, decimal c] =
        some [.ofDecimal a, .ofDecimal b, .ofDecimal c] := rfl
    exact exists_commandCall hgs (by simp [plain_ofDecimal])
  | .polygon vertices => by
    obtain ⟨gs, hgs, hplain⟩ := exists_groupings_map fun v (_ : v ∈ vertices) => exists_ofVertex v
    exact exists_commandCall hgs hplain
  | .segment a b => by
    obtain ⟨gs, hgs, hplain⟩ := exists_groupings_map fun v (_ : v ∈ [a, b]) => exists_ofVertex v
    exact exists_commandCall hgs hplain
  | .str s => ⟨_, rfl, plain_ofRun s⟩
  | .list _ items => by
    obtain ⟨gs, hgs, hplain⟩ := exists_ofValues items
    obtain ⟨g, hg, hgrouped⟩ := exists_sequence_of_plain hgs hplain
    exact ⟨_, grouping?_bracketed hg .square, plain_enclosed hgrouped _⟩

theorem exists_ofValues : (vs : List Value) →
    ∃ gs, groupings? (ofValues vs) = some gs ∧ ∀ g ∈ gs, g.Plain
  | [] => ⟨[], rfl, nofun⟩
  | v :: vs => by
    obtain ⟨g, hg, hplain⟩ := exists_ofValue v
    obtain ⟨gs, hgs, hplains⟩ := exists_ofValues vs
    exact ⟨g :: gs, by simp [ofValues, groupings?, hg, hgs], forall_mem_cons.2 ⟨hplain, hplains⟩⟩

end

/-- A formula is grouped as tightly as an expression, and correctly if the expression is
separated. -/
def Stands (e : Expr) (f : Formula) : Prop :=
  ∃ g, f.grouping? = some g ∧ g.level = e.level ∧ (g.Grouped ↔ e.Separated)

theorem stands_operator (hg : f.grouping? = some g) (hlevel : g.level = op.level)
    (hgrouped : g.Grouped ↔ Fill (op.places operands)) :
    Stands (.operator info op operands) f :=
  ⟨g, hg, hlevel, hgrouped.trans separated_operator_iff.symm⟩

variable (h : Forall₂ Stands es fs)

include h

theorem exists_groupings :
    ∃ gs, groupings? fs = some gs ∧ gs.length = es.length ∧
      (∀ g ∈ gs, g.level ≠ 2 ∧ g.level ≠ 3) ∧
      ((∀ g ∈ gs, g.Grouped) ↔ ∀ e ∈ es, e.Separated) ∧
      ((∀ g ∈ gs, 4 ≤ g.level) ↔ ∀ e ∈ es, 4 ≤ e.level) := by
  induction h with
  | nil => exact ⟨[], rfl, rfl, nofun, by simp, by simp⟩
  | @cons e f _ _ hhead _ ih =>
    obtain ⟨g, hg, hlevel, hgrouped⟩ := hhead
    obtain ⟨gs, hgs, hlength, hcommas, hseparated, hlevels⟩ := ih
    refine ⟨g :: gs, by simp [groupings?, hg, hgs], by simp [hlength], ?_, ?_, ?_⟩
    · have := e.level_cases
      exact forall_mem_cons.2 ⟨by omega, hcommas⟩
    · rw [forall_mem_cons, forall_mem_cons, hgrouped, hseparated]
    · rw [forall_mem_cons, forall_mem_cons, hlevel, hlevels]

theorem exists_sequence :
    ∃ g, (sequence fs).grouping? = some g ∧ (g.Grouped ↔ Fill (itemPlaces es)) := by
  obtain ⟨gs, hgs, hlength, hcommas, hseparated, hlevels⟩ := exists_groupings h
  refine ⟨.sequence gs, grouping?_sequence hgs, ?_⟩
  rw [grouped_sequence fun g hg => (hcommas g hg).2]
  simp only [Fill, itemPlaces, forall_mem_map, left]
  split <;> grind

theorem exists_bindings (hne : es ≠ []) :
    ∃ g, (sequence fs).grouping? = some g ∧
      (2 ≤ g.level ∧ g.Grouped ↔ Fill (es.map (comma.left, ·))) := by
  obtain ⟨gs, hgs, hlength, hcommas, hseparated, hlevels⟩ := exists_groupings h
  refine ⟨_, grouping?_sequence hgs, ?_⟩
  have hpos : 0 < es.length := length_pos_iff.2 hne
  rw [grouped_sequence fun g hg => (hcommas g hg).2, two_le_sequence_iff hcommas (hlength ▸ hpos)]
  simp only [Fill, forall_mem_map, left]
  grind

theorem stands_single (hlength : (fs.length == 1)) : ∃ x a, es = [x] ∧ fs = [a] ∧ Stands x a := by
  obtain ⟨a, rfl⟩ := exists_single hlength
  cases h with
  | cons ha hnil =>
    cases hnil
    exact ⟨_, _, rfl, rfl, ha⟩

theorem stands_pair (hlength : (fs.length == 2)) :
    ∃ x y a b, es = [x, y] ∧ fs = [a, b] ∧ Stands x a ∧ Stands y b := by
  obtain ⟨a, b, rfl⟩ := exists_pair hlength
  cases h with
  | cons ha hb =>
    cases hb with
    | cons hb hnil =>
      cases hnil
      exact ⟨_, _, _, _, rfl, rfl, ha, hb⟩

/-- The branches of a case distinction.  Only a default that stands alone may be loose. -/
theorem exists_branches :
    ∃ gs, groupings? (branches fs) = some gs ∧ (∀ g ∈ gs, g.level ≠ 3) ∧
      ((∀ g ∈ gs, 4 ≤ g.level ∧ g.Grouped) ↔ Fill (casePlaces es)) ∧
      (es.length ≠ 1 → gs.length ≤ 1 → ∀ g ∈ gs, 4 ≤ g.level) := by
  fun_induction casePlaces es generalizing fs with
  | case1 c v rest ih =>
    cases h with
    | cons hc h =>
      cases h with
      | cons hv hrest =>
        obtain ⟨gc, hgc, hlc, hgc'⟩ := hc
        obtain ⟨gv, hgv, hlv, hgv'⟩ := hv
        obtain ⟨gs, hgs, hcommas, hfill, -⟩ := ih hrest
        have hbranch := grouping?_branch (grouping?_equality hgc (grouping?_decimal 1)) hgv
        refine ⟨_, by rw [branches, groupings?, hbranch, hgs]; rfl, ?_, ?_, ?_⟩
        · simpa using hcommas
        · rw [forall_mem_cons, hfill]
          simp [hlc, hlv, hgc', hgv']
        · intro _ hlength
          obtain rfl : gs = [] := length_eq_zero_iff.1 (by simpa using hlength)
          simp
  | case2 rest hshort =>
    cases h with
    | nil => exact ⟨[], rfl, by simp, by simp, by simp⟩
    | cons he hrest =>
      cases hrest with
      | cons => exact absurd rfl (hshort _ _ _)
      | nil =>
        obtain ⟨g, hg, hlevel, hgrouped⟩ := he
        refine ⟨[g], by simp [branches, groupings?, hg], ?_, ?_, by simp⟩
        · simp [hlevel, Expr.level_ne_three]
        · simp [hlevel, hgrouped]

theorem stands_conditional : Stands (.operator info .conditional es) (piecewise (branches fs)) := by
  by_cases hsingle : es.length = 1
  · obtain ⟨e, rfl⟩ := length_eq_one_iff.1 hsingle
    obtain ⟨f, rfl⟩ := length_eq_one_iff.1 (h.length_eq ▸ hsingle)
    cases h with
    | cons he hnil =>
      obtain ⟨g, hg, -, hgrouped⟩ := he
      have hgs : groupings? (branches [f]) = some [g] := by simp [branches, groupings?, hg]
      refine stands_operator (grouping?_bracketed (grouping?_sequence hgs) _) rfl ?_
      simp [Grouping.sequence, hgrouped]
  · obtain ⟨gs, hgs, hcommas, hfill, hlong⟩ := exists_branches h
    refine stands_operator (grouping?_bracketed (grouping?_sequence hgs) _) rfl ?_
    have hplaces : Operation.conditional.places es = casePlaces es := by
      unfold Operation.places
      split <;> simp_all
    rw [hplaces, Grouping.Grouped, Grouping.grouped_sequence hcommas]
    simp only [Frame.isPrimary]
    grind

omit h

theorem stands_unary {x : Expr} (h : operation op [a] = .ok f) (hx : Stands x a)
    (hop : op ∉ [.pointLiteral, .listLiteral, .conditional]) : Stands (.operator info op [x]) f := by
  obtain ⟨gx, hgx, hlx, hx⟩ := hx
  have hzero := grouping?_decimal 0
  cases op with
  | posate =>
    cases h
    refine stands_operator (grouping?_bracketed (grouping?_positive hgx) _) rfl ?_
    simp [hlx, hx]
  | negate =>
    cases h
    refine stands_operator (grouping?_bracketed (grouping?_negative hgx) _) rfl ?_
    simp [hlx, hx]
  | not =>
    cases h
    refine stands_operator (grouping?_piecewise (grouping?_equality hgx hzero) hzero) rfl ?_
    simp [hlx, hx]
  | _ => first | exact absurd hop (by decide) | cases h

theorem stands_binary {x y : Expr} {b : Formula} (h : operation op [a, b] = .ok f)
    (hx : Stands x a) (hy : Stands y b)
    (hop : op ∉ [.pointLiteral, .listLiteral, .conditional, .modulus]) :
    Stands (.operator info op [x, y]) f := by
  obtain ⟨gx, hgx, hlx, hx⟩ := hx
  obtain ⟨gy, hgy, hly, hy⟩ := hy
  have hzero := grouping?_decimal 0
  have hone := grouping?_decimal 1
  cases op with
  | index =>
    cases h
    refine stands_operator (grouping?_index hgx hgy) rfl ?_
    simp [hlx, hx, hy]
  | exponent =>
    cases h
    refine stands_operator (grouping?_superscript hgx hgy) rfl ?_
    simp [hlx, hx, hy]
  | divide =>
    cases h
    refine stands_operator (grouping?_fraction hgx hgy) rfl ?_
    simp [Grouping.fraction, hx, hy]
  | multiply | add | subtract =>
    cases h
    refine stands_operator (grouping?_bracketed (grouping?_joined hgx hgy rfl) _) rfl ?_
    simp [hlx, hly, hx, hy]
  | assignment | update =>
    cases h
    refine stands_operator (grouping?_joined hgx hgy rfl) rfl ?_
    simp [hlx, hly, hx, hy]
  | lessThan | greaterThan | lessEqual | greaterEqual =>
    cases h
    refine stands_operator (grouping?_piecewise (grouping?_ordered hgx hgy _) hzero) rfl ?_
    simp [hlx, hly, hx, hy]
  | equal =>
    cases h
    refine stands_operator (grouping?_piecewise (grouping?_equality hgx hgy) hzero) rfl ?_
    simp [hlx, hly, hx, hy]
  | notEqual =>
    cases h
    refine stands_operator (grouping?_piecewise
      (grouping?_branch (grouping?_equality hgx hgy) hzero) hone) rfl ?_
    simp [hlx, hly, hx, hy]
  | and =>
    cases h
    refine stands_operator (grouping?_piecewise
      (grouping?_branch (grouping?_equality hgx hzero) hzero) hgy) rfl ?_
    simp [hlx, hly, hx, hy, y.three_le_level_iff]
  | or =>
    cases h
    refine stands_operator (grouping?_piecewise
      (grouping?_branch (grouping?_equality hgx hone) hone) hgy) rfl ?_
    simp [hlx, hly, hx, hy, y.three_le_level_iff]
  | _ => first | exact absurd hop (by decide) | cases h

theorem stands_operation (hfs : Forall₂ Stands es fs) (h : operation op fs = .ok f) :
    Stands (.operator info op es) f := by
  have htakes := takes_of_operation h
  cases op with
  | pointLiteral | listLiteral =>
    cases h
    obtain ⟨g, hg, hgrouped⟩ := exists_sequence hfs
    refine stands_operator (grouping?_bracketed hg _) rfl ?_
    simpa using hgrouped
  | modulus =>
    obtain ⟨a, b, rfl⟩ := length_eq_two.1 (beq_iff_eq.1 (htakes (by decide)))
    cases h
    obtain ⟨g, hg, hgrouped⟩ := exists_sequence hfs
    refine stands_operator (grouping?_call rfl hg) rfl ?_
    simpa using hgrouped
  | conditional =>
    cases h
    exact stands_conditional hfs
  | posate | negate | not =>
    obtain ⟨x, a, rfl, rfl, hx⟩ := stands_single hfs (htakes (by decide))
    exact stands_unary h hx (by decide)
  | other => cases h
  | _ =>
    first
    | cases h
    | obtain ⟨x, y, a, b, rfl, rfl, hx, hy⟩ := stands_pair hfs (htakes (by decide))
      exact stands_binary h hx hy (by decide)

theorem stands_ofValue (v : Value) : Stands (.literal info v) (ofValue v) := by
  obtain ⟨g, hg, hgrouped, hlevel⟩ := exists_ofValue v
  refine ⟨g, hg, ?_, fun _ => .literal, fun _ => hgrouped⟩
  rw [hlevel, Expr.level, Value.isSigned, piecesOf_markup _ hg]

theorem exists_ofName (n : String) :
    ∃ g, (ofName n).grouping? = some g ∧ g.Grouped ∧ g.level = tightLevel := by
  have hletter : baseLetter.isAlphanum = true := by decide
  refine ⟨_, rfl, ?_, rfl⟩
  simp [hletter]

theorem stands_ofName (n : String) : Stands (.name info n) (ofName n) := by
  obtain ⟨g, hg, hgrouped, hlevel⟩ := exists_ofName n
  exact ⟨g, hg, hlevel, fun _ => .name, fun _ => hgrouped⟩

theorem level_timeStepName : (ofRun Expr.timeStepName).level = tightLevel := by
  decide

theorem exists_rangeEnd (op : Operation) (h : Stands e f) :
    ∃ g, (rangeEnd op e f).grouping? = some g ∧
      (7 ≤ g.level ∧ g.Grouped ↔ 7 ≤ e.level ∧ e.Separated) := by
  obtain ⟨g, hg, hlevel, hgrouped⟩ := h
  unfold rangeEnd
  split
  · split
    case h_1 x hx =>
      -- The end is a constant, and so is the number before it.
      obtain ⟨v, hv, -⟩ := Option.bind_eq_some_iff.1 hx
      cases e with
      | literal info v' =>
        refine ⟨_, grouping?_decimal _, ?_⟩
        have hloose : 7 ≤ (Expr.literal info v').level := by
          rw [Expr.level]
          split <;> simp
        simp [hloose, Expr.Separated.literal]
      | _ => cases hv
    case h_2 =>
      refine ⟨_, grouping?_bracketed (grouping?_joined hg (grouping?_decimal 1) rfl) _, ?_⟩
      simp [hlevel, hgrouped]
  · exact ⟨g, hg, by rw [hlevel, hgrouped]⟩

theorem exists_groupings_rangeItems {starts : List Expr} {stop : Expr} {items : List Formula}
    (hstarts : Forall₂ Stands starts fs) (hg : f.grouping? = some g)
    (hstop : 7 ≤ g.level ∧ g.Grouped ↔ 7 ≤ stop.level ∧ stop.Separated)
    (h : rangeItems fs f = some items) :
    ∃ gs, groupings? items = some gs ∧ 3 ≤ (Grouping.sequence gs).level ∧
      ((Grouping.sequence gs).Grouped ↔ Fill (rangePlaces (starts ++ [stop]))) := by
  induction hstarts generalizing items with
  | nil => cases h
  | @cons e f₀ starts fs he hrest ih =>
    obtain ⟨g₀, hg₀, hlevel, hgrouped⟩ := he
    cases hrest with
    | nil =>
      cases h
      have hrange := grouping?_ellipsis hg₀ hg
      refine ⟨[_], by rw [groupings?, hrange]; rfl, ?_, ?_⟩
      · simp [Grouping.sequence]
      · simp only [Grouping.sequence, Grouping.Grouped, rangePlaces, singleton_append,
          map_cons, map_nil, fill_cons, fill_nil, Link.left, Link.right, hlevel,
          hgrouped, ← hstop]
        grind
    | @cons e' f' starts fs he' hrest =>
      obtain ⟨items', hitems, rfl⟩ := Option.map_eq_some_iff.1 h
      obtain ⟨gs, hgs, hloose, hfill⟩ := ih hitems
      have hplaces : rangePlaces (e :: e' :: starts ++ [stop]) =
          (Link.comma.left, e) :: rangePlaces (e' :: starts ++ [stop]) := by
        cases starts <;> rfl
      cases gs with
      | nil => cases hloose
      | cons g' gs =>
        refine ⟨g₀ :: g' :: gs, by rw [groupings?, hg₀, hgs]; rfl, ?_, ?_⟩
        · simp [Grouping.sequence]
        · rw [hplaces, fill_cons, ← hfill, ← hlevel, ← hgrouped, Grouping.sequence,
            Grouping.Grouped]
          simp only [Link.right, hloose, true_and, and_assoc]

theorem stands_concat (h : Forall₂ Stands (es ++ [e]) (fs ++ [f])) :
    Forall₂ Stands es fs ∧ Stands e f := by
  have hlength : fs.length = es.length := by simpa using h.length_eq.symm
  have hinit := forall₂_take_append _ _ _ h
  have hlast := forall₂_drop_append _ _ _ h
  rw [hlength, take_left] at hinit
  rw [hlength, drop_left] at hlast
  cases hlast with
  | cons hlast _ => exact ⟨hinit, hlast⟩

theorem stands_range (hop : op = .exclusiveRange ∨ op = .inclusiveRange)
    (hfs : Forall₂ Stands es fs) (h : range op es fs = .ok f) :
    Stands (.operator info op es) f := by
  unfold range at h
  split at h
  case h_2 => cases h
  case h_1 last f₀ hlast hf₀ =>
    split at h
    case h_2 => cases h
    case h_1 items hitems =>
      cases h
      obtain ⟨starts, rfl⟩ := getLast?_eq_some_iff.1 hlast
      obtain ⟨fs, rfl⟩ := getLast?_eq_some_iff.1 hf₀
      have hparts := stands_concat hfs
      rw [dropLast_concat] at hitems
      obtain ⟨g, hg, hstop⟩ := exists_rangeEnd op hparts.2
      obtain ⟨gs, hgs, -, hfill⟩ := exists_groupings_rangeItems hparts.1 hg hstop hitems
      have hplaces : op.places (starts ++ [last]) = rangePlaces (starts ++ [last]) := by
        rcases hop with rfl | rfl <;> rfl
      have hlevel : op.level = tightLevel := by
        rcases hop with rfl | rfl <;> rfl
      refine stands_operator (grouping?_bracketed (grouping?_sequence hgs) _) hlevel.symm ?_
      rw [hplaces, ← hfill]
      simp

theorem stands_fill {count : Expr} {i c : Formula} (hitem : Stands item i) (hcount : Stands count c) :
    Stands (.operator info .listFill [item, count]) (fill i c) := by
  obtain ⟨gi, hgi, hli, hi⟩ := hitem
  obtain ⟨gc, hgc, hlc, hc⟩ := hcount
  obtain ⟨gn, hgn, hn, hln⟩ := exists_ofName fillName
  have hrange := grouping?_bracketed (grouping?_ellipsis (grouping?_decimal 1) hgc) .square
  have hequation := grouping?_equality hgn hrange
  refine stands_operator (grouping?_bracketed (grouping?_joined hgi hequation rfl) _) rfl ?_
  simp [hli, hlc, hi, hc, hn, hln]

/-- The equations of a chain of comprehensions stand for its sources. -/
def Equates (source : Expr) (equation : Formula) : Prop :=
  ∃ n f, equation = equality (ofName n) f ∧ Stands source f

theorem exists_equations (h : Forall₂ Equates sources fs) :
    ∃ gs, groupings? fs = some gs ∧ gs.length = sources.length ∧ (∀ g ∈ gs, 4 ≤ g.level) ∧
      ((∀ g ∈ gs, g.Grouped) ↔ Fill (sourcePlaces sources)) := by
  induction h with
  | nil => exact ⟨[], rfl, rfl, nofun, by simp [sourcePlaces]⟩
  | cons hhead _ ih =>
    obtain ⟨n, f, rfl, g, hg, hlevel, hgrouped⟩ := hhead
    obtain ⟨gs, hgs, hlength, hlevels, hfill⟩ := ih
    obtain ⟨gn, hgn, hn, hln⟩ := exists_ofName n
    have hequation := grouping?_equality hgn hg
    refine ⟨_ :: gs, by rw [groupings?, hequation, hgs]; rfl, by simp [hlength], ?_, ?_⟩
    · exact forall_mem_cons.2 ⟨by simp, hlevels⟩
    · rw [forall_mem_cons, hfill]
      simp [sourcePlaces, hlevel, hgrouped, hn, hln]

/-- What the clause of an expression stands for: the parts that may be taken over into the clause
around it stand for the same parts of the expression. -/
structure Clause.Stands (e : Expr) (c : Clause) : Prop where
  formula : Formula.Stands e c.formula
  item : Formula.Stands e.item c.item
  equations : Forall₂ Equates e.sources c.equations
  sources : ∀ f fs, c = .comprehension f fs → e.sources ≠ []
  bindings : Forall₂ Formula.Stands e.bindings c.bindings

theorem exists_comprehension (hitem : Stands item f) (hequations : Forall₂ Equates sources fs)
    (hne : sources ≠ []) :
    ∃ g, (comprehension f (sequence fs)).grouping? = some g ∧ g.level = tightLevel ∧
      (g.Grouped ↔ Fill ((forEach.left, item) :: sourcePlaces sources)) := by
  obtain ⟨gi, hgi, hli, hi⟩ := hitem
  obtain ⟨gs, hgs, hlength, hlevels, hfill⟩ := exists_equations hequations
  have hgs' : gs ≠ [] := by
    rintro rfl
    exact hne (length_eq_zero_iff.1 hlength.symm)
  have hthree := three_le_sequence hgs' hlevels
  refine ⟨_, grouping?_bracketed (grouping?_joined hgi (grouping?_sequence hgs) rfl) _, rfl, ?_⟩
  rw [fill_cons, ← hfill, Grouping.Grouped, Grouping.Grouped,
    grouped_sequence_of_le hlevels]
  simp only [Frame.isPrimary, right, hthree, true_and, hli, hi, and_assoc]

theorem fill_sources (h : e.Separated) : Fill (sourcePlaces e.sources) := by
  unfold Expr.sources
  split
  · exact (fill_cons.1 (separated_operator_iff.1 h)).2
  · exact fill_nil

theorem Clause.stands_plain (h : Formula.Stands e f) (hitem : e.item = e)
    (hsources : e.sources = []) (hbindings : e.bindings = [e]) : Clause.Stands e (.plain f) := by
  refine ⟨h, ?_, ?_, nofun, ?_⟩
  · rw [hitem]
    exact h
  · rw [hsources]
    exact .nil
  · rw [hbindings]
    exact .cons h .nil

theorem Clause.stands_operator (h : Formula.Stands (.operator info op es) f) (hmap : op ≠ .listMap)
    (hwith : op ≠ .withBinding) : Clause.Stands (.operator info op es) (.plain f) := by
  refine Clause.stands_plain h ?_ ?_ ?_
  · unfold Expr.item
    split <;> simp_all
  · unfold Expr.sources
    split <;> simp_all
  · unfold Expr.bindings
    split <;> simp_all

theorem Clause.stands_listMap {x source : Expr} {s : Clause} (hs : s.Stands source)
    (hb : b.Stands body) :
    Clause.Stands (.operator info .listMap [body, x, source])
      (.comprehension b.item (equality (ofName (writtenName x)) s.formula :: b.equations)) := by
  have hequations : Forall₂ Equates (source :: body.sources)
      (equality (ofName (writtenName x)) s.formula :: b.equations) :=
    .cons ⟨_, _, rfl, hs.formula⟩ hb.equations
  obtain ⟨g, hg, hlevel, hfill⟩ := exists_comprehension hb.item hequations (by simp)
  have hformula : Formula.Stands (.operator info .listMap [body, x, source]) _ :=
    Formula.stands_operator hg hlevel hfill
  exact ⟨hformula, hb.item, hequations, fun _ _ _ => cons_ne_nil _ _, .cons hformula .nil⟩

theorem Clause.filtering_cases (l : Clause) :
    (∃ f fs, l = .comprehension f fs) ∨ l.equations = [] ∧ ∀ f, l.filtering f = f := by
  cases l with
  | comprehension f fs => exact .inl ⟨f, fs, rfl⟩
  | plain f | bound f fs => exact .inr ⟨rfl, fun _ => rfl⟩

theorem stands_listFilter {list condition : Expr} {l c : Clause} (hl : l.Stands list)
    (hc : c.Stands condition) :
    Stands (.operator info .listFilter [list, condition])
      (index l.formula (equality (l.filtering c.formula) (decimal 1))) := by
  obtain ⟨gl, hgl, hll, hgrouped⟩ := hl.formula
  rcases l.filtering_cases with ⟨f, fs, rfl⟩ | ⟨hequations, hfiltering⟩
  · have hne := hl.sources f fs rfl
    have hempty : list.sources.isEmpty = false := by simpa using hne
    obtain ⟨g, hg, hlevel, hfill⟩ := exists_comprehension hc.formula hl.equations hne
    refine stands_operator (grouping?_index hgl (grouping?_equality hg (grouping?_decimal 1))) rfl ?_
    have hsources := @fill_sources list
    simp [hempty, hlevel, hfill, hll, hgrouped]
    grind
  · have hempty : list.sources.isEmpty = true := by
      have hnil := hl.equations
      rw [hequations] at hnil
      cases hnil' : list.sources with
      | nil => rfl
      | cons => rw [hnil'] at hnil; cases hnil
    obtain ⟨g, hg, hlevel, hcondition⟩ := hc.formula
    rw [hfiltering]
    refine stands_operator (grouping?_index hgl (grouping?_equality hg (grouping?_decimal 1))) rfl ?_
    simp [hempty, hlevel, hcondition, hll, hgrouped]

theorem bindings_ne_nil (e : Expr) : e.bindings ≠ [] := by
  unfold Expr.bindings
  split <;> simp

theorem Clause.stands_withBinding {bindings : Expr} {bs : Clause} (hb : b.Stands body)
    (hbs : bs.Stands bindings) :
    Clause.Stands (.operator info .withBinding [body, bindings]) (.bound b.formula bs.bindings) := by
  obtain ⟨g, hg, hlevel, hgrouped⟩ := hb.formula
  obtain ⟨gs, hgs, hfill⟩ := exists_bindings hbs.bindings (bindings_ne_nil bindings)
  have hformula : Formula.Stands (.operator info .withBinding [body, bindings])
      (joined .withBinding b.formula (sequence bs.bindings)) := by
    refine Formula.stands_operator (grouping?_joined hg hgs rfl) rfl ?_
    rw [Operation.places, fill_cons, Grouping.Grouped]
    simp only [Link.right]
    grind
  exact ⟨hformula, hformula, .nil, by simp, .cons hb.formula hbs.bindings⟩

theorem exists_actionCall {sigs : Signatures} (h : Forall₂ Stands args fs) (name : String) :
    ∃ g, (actionCall sigs name fs).grouping? = some g ∧ g.level = tightLevel ∧
      (g.Grouped ↔ Fill (itemPlaces args)) := by
  obtain ⟨gn, hgn, hn, hln⟩ := exists_ofName name
  unfold actionCall
  split
  case isTrue hbare =>
    obtain rfl : fs = [] := by
      simp only [Bool.and_eq_true, List.isEmpty_iff] at hbare
      exact hbare.1
    cases h
    exact ⟨gn, hgn, hln, by simp [hn, itemPlaces]⟩
  case isFalse =>
    obtain ⟨g, hg, hfill⟩ := exists_sequence h
    refine ⟨_, grouping?_call hgn hg, rfl, ?_⟩
    simp [hn, hln, hfill]

theorem stands_definitionCall {sigs : Signatures} {callee : Expr} (hcallee : Stands callee f)
    (hargs : Forall₂ Stands args fs) :
    Stands (.operator info .call (callee :: args)) (definitionCall sigs callee f fs) := by
  obtain ⟨g, hg, hlevel, hgrouped⟩ := hcallee
  obtain ⟨gs, hgs, hfill⟩ := exists_sequence hargs
  have hcall : Stands (.operator info .call (callee :: args)) (call f (sequence fs)) := by
    refine stands_operator (grouping?_call hg hgs) rfl ?_
    simp [hlevel, hgrouped, hfill]
  unfold definitionCall
  split
  case h_2 => exact hcall
  case h_1 name hname =>
    split
    case isFalse => exact hcall
    case isTrue hbare =>
      obtain rfl : fs = [] := by
        simp only [Bool.and_eq_true, List.isEmpty_iff] at hbare
        exact hbare.1
      cases hargs
      cases callee with
      | name calleeInfo n =>
        refine stands_operator hg hlevel ?_
        simp [hgrouped, itemPlaces, Expr.level, Expr.Separated.name]
      | _ => cases hname

variable {sigs : Signatures}

mutual

theorem Rendered.stands {e c} : Rendered sigs e c → c.Stands e
  | .literal => Clause.stands_plain (stands_ofValue _) rfl rfl rfl
  | .name => Clause.stands_plain (stands_ofName _) rfl rfl rfl
  | .timeStep =>
    Clause.stands_plain ⟨_, rfl, level_timeStepName, fun _ => .timeStep,
      fun _ => grouped_ofRun _⟩ rfl rfl rfl
  | .listFill hitem hcount =>
    Clause.stands_operator (stands_fill hitem.stands.formula hcount.stands.formula) nofun nofun
  | .listMap hsource hbody => Clause.stands_listMap hsource.stands hbody.stands
  | .listFilter hlist hcondition =>
    Clause.stands_operator (stands_listFilter hlist.stands hcondition.stands) nofun nofun
  | .range hop hoperands hrange =>
    Clause.stands_operator (stands_range hop hoperands.stands hrange)
      (by rcases hop with rfl | rfl <;> nofun) (by rcases hop with rfl | rfl <;> nofun)
  | .memberAccess hsubject _ => by
    obtain ⟨g, hg, hlevel, hgrouped⟩ := hsubject.stands.formula
    refine Clause.stands_operator (stands_operator (grouping?_member hg _) rfl ?_) nofun nofun
    simp [hlevel, hgrouped]
  | .builtIn =>
    Clause.stands_operator (stands_operator rfl rfl ⟨fun _ => nofun, fun _ => rfl⟩) nofun nofun
  | .actionCall hargs => by
    obtain ⟨g, hg, hlevel, hfill⟩ := exists_actionCall hargs.stands _
    exact Clause.stands_operator (stands_operator hg hlevel hfill) nofun nofun
  | .withBinding hbody hbindings => Clause.stands_withBinding hbody.stands hbindings.stands
  | .call hcallee hargs =>
    Clause.stands_operator (stands_definitionCall hcallee.stands.formula hargs.stands) nofun nofun
  | .uniform hop hoperands hoperation =>
    Clause.stands_operator (stands_operation hoperands.stands hoperation)
      (by rintro rfl; cases hop) (by rintro rfl; cases hop)

theorem RenderedAll.stands {es fs} : RenderedAll sigs es fs → Forall₂ Stands es fs
  | .nil => .nil
  | .cons hhead htail => .cons hhead.stands.formula htail.stands

end

theorem stands_ofExpr (h : ofExpr sigs e = .ok f) : Stands e f := by
  obtain ⟨c, hc, rfl⟩ := exists_rendered h
  exact hc.stands.formula

end Formula

mutual

/-- No expression in an action binds more loosely than the place where it is written. -/
def Action.Separated : Action → Prop
  | .hole => True
  | .block actions => Action.SeparatedAll actions
  | .update target value => Fill (arrow.places target value)
  | .call _ args => Fill (itemPlaces args)
  | .conditional arms default => Action.SeparatedArms arms ∧ default.Separated

def Action.SeparatedAll : List Action → Prop
  | [] => True
  | a :: as => a.Separated ∧ Action.SeparatedAll as

def Action.SeparatedArms : List (Expr × Action) → Prop
  | [] => True
  | (condition, body) :: rest =>
    Fill [(equals.left, condition)] ∧ body.Separated ∧ Action.SeparatedArms rest

end

namespace Formula

variable {sigs : Signatures}

mutual

theorem Enacted.stands {a f} :
    Enacted sigs a f → ∃ g, f.grouping? = some g ∧ 5 ≤ g.level ∧ (g.Grouped ↔ a.Separated)
  | .block hactions => by
    obtain ⟨gs, hgs, hlevels, hgrouped⟩ := hactions.stands
    refine ⟨_, grouping?_bracketed (grouping?_sequence hgs) _, by simp, ?_⟩
    rw [Grouping.Grouped, grouped_sequence_of_le hlevels, hgrouped, Action.Separated]
    simp
  | .update htarget hvalue => by
    obtain ⟨gt, hgt, hlt, ht⟩ := htarget.stands.formula
    obtain ⟨gv, hgv, hlv, hv⟩ := hvalue.stands.formula
    refine ⟨_, grouping?_joined hgt hgv rfl, by simp, ?_⟩
    simp [Action.Separated, hlt, hlv, ht, hv]
  | .call hargs => by
    obtain ⟨g, hg, hlevel, hfill⟩ := exists_actionCall hargs.stands _
    exact ⟨g, hg, by simp [hlevel], hfill.trans (by rw [Action.Separated])⟩
  | .conditional harms => by
    obtain ⟨gs, hgs, hlevels, hgrouped⟩ := harms.stands
    refine ⟨_, grouping?_bracketed (grouping?_sequence hgs) _, by simp, ?_⟩
    rw [Grouping.Grouped, grouped_sequence_of_le hlevels, hgrouped]
    simp [Action.Separated]
  | .conditionalElse harms hdefault => by
    obtain ⟨gs, hgs, hlevels, hgrouped⟩ := harms.stands
    obtain ⟨g, hg, hlevel, hgrouped'⟩ := hdefault.stands
    refine ⟨_, grouping?_bracketed (grouping?_sequence (groupings?_concat hgs hg)) _, by simp, ?_⟩
    have hlevels' : ∀ g' ∈ gs ++ [g], 4 ≤ g'.level := by
      simpa [or_imp, forall_and] using ⟨hlevels, Nat.le_of_succ_le hlevel⟩
    rw [Grouping.Grouped, grouped_sequence_of_le hlevels', forall_mem_append, hgrouped]
    simp [Action.Separated, hgrouped']

theorem EnactedAll.stands {as fs} :
    EnactedAll sigs as fs →
    ∃ gs, groupings? fs = some gs ∧ (∀ g ∈ gs, 4 ≤ g.level) ∧
      ((∀ g ∈ gs, g.Grouped) ↔ Action.SeparatedAll as)
  | .nil => ⟨[], rfl, nofun, by simp [Action.SeparatedAll]⟩
  | .cons hhead htail => by
    obtain ⟨g, hg, hlevel, hgrouped⟩ := hhead.stands
    obtain ⟨gs, hgs, hlevels, hgrouped'⟩ := htail.stands
    refine ⟨g :: gs, by simp [groupings?, hg, hgs],
      forall_mem_cons.2 ⟨Nat.le_of_succ_le hlevel, hlevels⟩, ?_⟩
    rw [forall_mem_cons, hgrouped, hgrouped', Action.SeparatedAll]

theorem EnactedArms.stands {arms fs} :
    EnactedArms sigs arms fs →
    ∃ gs, groupings? fs = some gs ∧ (∀ g ∈ gs, 4 ≤ g.level) ∧
      ((∀ g ∈ gs, g.Grouped) ↔ Action.SeparatedArms arms)
  | .nil => ⟨[], rfl, nofun, by simp [Action.SeparatedArms]⟩
  | .cons hcondition hbody hrest => by
    obtain ⟨gc, hgc, hlc, hc⟩ := hcondition.stands.formula
    obtain ⟨gb, hgb, hlb, hb⟩ := hbody.stands
    obtain ⟨gs, hgs, hlevels, hgrouped⟩ := hrest.stands
    have hbranch := grouping?_branch (grouping?_equality hgc (grouping?_decimal 1)) hgb
    refine ⟨_ :: gs, by rw [groupings?, hbranch, hgs]; rfl,
      forall_mem_cons.2 ⟨by simp, hlevels⟩, ?_⟩
    rw [forall_mem_cons, hgrouped, Action.SeparatedArms]
    simp [hlc, hc, hb, hlb]

end

end Formula

end Diagram
