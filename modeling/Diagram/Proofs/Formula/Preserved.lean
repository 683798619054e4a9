import Diagram.Proofs.Formula.Meaning

/-!
# Formulas keep the values of expressions

The calculator has no truth values, and each logical operator has a case distinction of its own.
The formula of an expression with names, constants, arithmetic, comparisons, logical operators
and conditionals has the value of the expression, with one for true and zero for false.  The
induction is on the typing: that an operand of type bool is only ever worth zero or one is what
makes the tests of the case distinctions right.

Main statement: `ofExpr_value`.
-/

namespace Diagram

open List Meaning Expr

namespace Formula

/-- The value `x` of a formula is that of an expression, `m`.  Where the expression has none, the
formula has none either, as long as undecided conditions leave a case distinction without one. -/
def Agrees (undecided : Option Bool) (x : Option Rat) (m : Option Meaning) : Prop :=
  (∀ v, m = some v → x = some v.rational) ∧ (undecided = none → m = none → x = none)

/-- The value of an expression is a truth value, if it has one. -/
def IsTruth (m : Option Meaning) : Prop :=
  ∀ v, m = some v → ∃ b, v = .truth b

variable {g : Bool → Option Meaning}

section Agreement

variable {undecided : Option Bool} {x y v r : Option Rat} {a b mv mr : Option Meaning}

theorem agrees_some (m : Meaning) : Agrees undecided (some m.rational) (some m) := by
  constructor
  · intro v hv
    cases hv
    rfl
  · intro _ hv
    cases hv

theorem agrees_none (h : undecided = none → x = none) : Agrees undecided x none := by
  refine ⟨?_, fun hundecided _ => h hundecided⟩
  intro v hv
  cases hv

theorem Agrees.cases (h : Agrees undecided x a) :
    (∃ m, a = some m ∧ x = some m.rational) ∨ (a = none ∧ (undecided = none → x = none)) := by
  cases a with
  | none => exact .inr ⟨rfl, fun hundecided => h.2 hundecided rfl⟩
  | some m => exact .inl ⟨m, rfl, h.1 m rfl⟩

theorem Agrees.map (f : Rat → Rat) (h : Agrees undecided x a) :
    Agrees undecided (x.map f) (a.map fun m => .number (f m.rational)) := by
  rcases h.cases with ⟨m, rfl, rfl⟩ | ⟨rfl, hx⟩
  · exact agrees_some (.number (f m.rational))
  · exact agrees_none fun hundecided => by rw [hx hundecided]; rfl

theorem Agrees.arithmetic (f : Rat → Rat → Rat) (ha : Agrees undecided x a)
    (hb : Agrees undecided y b) :
    Agrees undecided (do return f (← x) (← y)) (arithmetic f a b) := by
  rcases ha.cases with ⟨m, rfl, rfl⟩ | ⟨rfl, hx⟩
  · rcases hb.cases with ⟨n, rfl, rfl⟩ | ⟨rfl, hy⟩
    · exact agrees_some (.number (f m.rational n.rational))
    · exact agrees_none fun hundecided => by rw [hy hundecided]; rfl
  · exact agrees_none fun hundecided => by rw [hx hundecided]; rfl

/-- A case distinction on a comparison of two values. -/
theorem Agrees.choose {p : Rat → Rat → Bool} {g : Meaning → Meaning → Option Meaning}
    (ha : Agrees undecided x a) (hb : Agrees undecided y b)
    (hv : ∀ m n, p m.rational n.rational → Agrees undecided v (g m n))
    (hr : ∀ m n, p m.rational n.rational = false → Agrees undecided r (g m n)) :
    Agrees undecided (Formula.choose (outcome undecided p x y) v r) (do g (← a) (← b)) := by
  rcases ha.cases with ⟨m, rfl, rfl⟩ | ⟨rfl, hx⟩
  · rcases hb.cases with ⟨n, rfl, rfl⟩ | ⟨rfl, hy⟩
    · change Agrees undecided (if p m.rational n.rational then v else r) (g m n)
      split
      case isTrue hp => exact hv m n hp
      case isFalse hp => exact hr m n (Bool.eq_false_iff.2 hp)
    · refine agrees_none fun hundecided => ?_
      subst hundecided
      rw [hy rfl]
      rfl
  · refine agrees_none fun hundecided => ?_
    subst hundecided
    rw [hx rfl]
    rfl

theorem Agrees.comparison {p q : Rat → Rat → Bool} (k : Bool) (hq : ∀ x y, q x y = (p x y == k))
    (ha : Agrees undecided x a) (hb : Agrees undecided y b) :
    Agrees undecided (Formula.choose (outcome undecided p x y) (some (truth k).rational)
      (some (Meaning.truth !k).rational)) (Meaning.comparison q a b) := by
  refine ha.choose (g := fun m n => some (.truth (q m.rational n.rational))) hb
    (fun m n hp => ?_) fun m n hp => ?_
  · rw [hq, hp, Bool.true_beq]
    exact agrees_some (.truth k)
  · rw [hq, hp, Bool.false_beq]
    exact agrees_some (.truth !k)

/-- A case distinction on whether a condition has a truth value. -/
theorem Agrees.choose_truth (k : Bool) (ha : Agrees undecided x a) (htruth : IsTruth a)
    (hv : Agrees undecided v (g k)) (hr : Agrees undecided r (g !k)) :
    Agrees undecided
      (Formula.choose (outcome undecided (· == ·) x (some (truth k).rational)) v r)
      (do g (← (← a).truth?)) := by
  rcases ha.cases with ⟨m, rfl, rfl⟩ | ⟨rfl, hx⟩
  · obtain ⟨b, rfl⟩ := htruth m rfl
    -- Of two truth values, the numbers are equal just if they are.
    have hequal : ((truth b).rational == (truth k).rational) = (b == k) := by
      cases b <;> cases k <;> decide
    change Agrees undecided (if (truth b).rational == (truth k).rational then v
      else r) (g b)
    cases b <;> cases k <;> first | exact hv | exact hr
  · refine agrees_none fun hundecided => ?_
    subst hundecided
    rw [hx rfl]
    rfl

end Agreement

mutual

/-- The expressions over names, exact constants, arithmetic, comparisons, logical operators and
conditionals, with whether they are of type bool.  What a logical operator or a condition looks
at has to be. -/
inductive Logical : Expr → Bool → Prop
  | int {info i} (hexact : rationalOf (Value.floatOfInteger i) = some i.toInt) :
      Logical (.literal info (.int i)) false
  | real {info x} (hexact : (rationalOf x).isSome = true) : Logical (.literal info (.real x)) false
  | bool {info b} : Logical (.literal info (.bool b)) true
  | name {info n} : Logical (.name info n) (info.ty == .bool)
  | negate {info e t} (he : Logical e t) : Logical (.operator info .negate [e]) false
  | arithmetic {info op e₁ e₂ t₁ t₂} (hop : op ∈ [.add, .subtract, .multiply])
      (he₁ : Logical e₁ t₁) (he₂ : Logical e₂ t₂) : Logical (.operator info op [e₁, e₂]) false
  | comparison {info op e₁ e₂ t₁ t₂}
      (hop : op ∈ [.lessThan, .greaterThan, .lessEqual, .greaterEqual, .equal, .notEqual])
      (he₁ : Logical e₁ t₁) (he₂ : Logical e₂ t₂) : Logical (.operator info op [e₁, e₂]) true
  | junction {info op e₁ e₂} (hop : op ∈ [.and, .or]) (he₁ : Logical e₁ true)
      (he₂ : Logical e₂ true) : Logical (.operator info op [e₁, e₂]) true
  | not {info e} (he : Logical e true) : Logical (.operator info .not [e]) true
  | conditional {info es t} (hes : LogicalArms es t) : Logical (.operator info .conditional es) t

/-- The operands of a conditional, with whether all its values are of type bool. -/
inductive LogicalArms : List Expr → Bool → Prop
  | nil : LogicalArms [] true
  | default {e t} (he : Logical e t) : LogicalArms [e] t
  | cons {c v es t t'} (hc : Logical c true) (hv : Logical v t) (hes : LogicalArms es t') :
      LogicalArms (c :: v :: es) (t && t')

end

/-- The assignments of numbers to the names of an expression and to those of its formula: they are
the same, and a name of type bool has zero or one. -/
structure Assigned (ρ σ : String → Rat) (e : Expr) : Prop where
  same : ∀ info n, .name info n ∈ e.nodes → σ (mangled n) = ρ n
  bools : ∀ info n, .name info n ∈ e.nodes → info.ty = .bool → ρ n = 0 ∨ ρ n = 1

variable {es : List Expr} {e : Expr}

theorem mem_nodesOf {x : Expr} (he : e ∈ es) (hx : x ∈ e.nodes) : x ∈ nodesOf es := by
  induction es with
  | nil => cases he
  | cons e' es ih =>
    rw [nodesOf, mem_append]
    rcases mem_cons.1 he with rfl | he
    · exact .inl hx
    · exact .inr (ih he)

theorem Assigned.operand {ρ σ : String → Rat} {info : Info} {op : Operation}
    (h : Assigned ρ σ (.operator info op es)) (he : e ∈ es) : Assigned ρ σ e := by
  have hmem {x : Expr} (hx : x ∈ e.nodes) : x ∈ (operator info op es).nodes := by
    exact mem_append_left _ (mem_nodesOf he hx)
  exact ⟨fun info n hn => h.same info n (hmem hn), fun info n hn => h.bools info n (hmem hn)⟩

/-- Whether a formula stands for a value: it is no condition and no branch. -/
def isValue : Formula → Bool
  | decimal _ | subscript _ _ | bracketed _ _ => true
  | _ => false

section Translation

variable {sigs : Signatures} {undecided : Option Bool} {ρ σ : String → Rat}

def Preserved (sigs : Signatures) (undecided : Option Bool) (ρ σ : String → Rat) (e : Expr)
    (t : Bool) : Prop :=
  ∃ f, clause sigs e = .ok (.plain f) ∧ f.isValue = true ∧
    Agrees undecided (f.value undecided σ) (e.meaning ρ) ∧ (t = true → IsTruth (e.meaning ρ))

theorem rationalOf_zero : rationalOf 0 = some 0 := by
  decide +kernel

theorem rationalOf_one : rationalOf 1 = some 1 := by
  decide +kernel

variable {f : Formula} {info : Info} {op : Operation} {es : List Expr} {t t₁ t₂ : Bool}
  {e e₁ e₂ : Expr} {a : Option Meaning}

@[simp] theorem value_decimal_zero : (decimal 0).value undecided σ = some 0 := by
  rw [value, rationalOf_zero]

@[simp] theorem value_decimal_one : (decimal 1).value undecided σ = some 1 := by
  rw [value, rationalOf_one]

/-- A formula in parentheses and a case distinction stand for values. -/
theorem distinction_default (h : f.isValue) :
    distinction undecided σ [f] = f.value undecided σ := by
  cases f <;> simp [isValue] at h <;> simp [distinction]

theorem value_piecewise (fs : List Formula) :
    (piecewise fs).value undecided σ = distinction undecided σ fs := by
  rw [piecewise, value]

/-- The operations that are translated from the formulas of their operands alone. -/
def isCompositional : Operation → Bool
  | .negate | .not | .add | .subtract | .multiply | .lessThan | .greaterThan | .lessEqual
  | .greaterEqual | .equal | .notEqual | .and | .or | .conditional => true
  | _ => false

theorem preserved_operator {fs : List Formula} (hop : isCompositional op)
    (hfs : ofExprs sigs es = .ok fs) (hf : operation op fs = .ok f) (hvalue : f.isValue)
    (hagrees : Agrees undecided (f.value undecided σ) (Meaning.operation op (meanings ρ es)))
    (htruth : t → IsTruth (Meaning.operation op (meanings ρ es))) :
    Preserved sigs undecided ρ σ (.operator info op es) t := by
  refine ⟨f, ?_, hvalue, hagrees, htruth⟩
  have hclause : clause sigs (.operator info op es) = (do
      let fs ← ofExprs sigs es
      let f ← operation op fs
      return .plain f) := by
    cases op <;> simp [isCompositional] at hop <;> simp only [clause]
  rw [hclause, hfs]
  change (do
    let f ← operation op fs
    return Clause.plain f) = _
  rw [hf]
  rfl

theorem ofExprs_single (h : clause sigs e = .ok (.plain f)) : ofExprs sigs [e] = .ok [f] := by
  simp only [ofExprs, h]
  rfl

theorem ofExprs_pair {f₁ f₂ : Formula} (h₁ : clause sigs e₁ = .ok (.plain f₁))
    (h₂ : clause sigs e₂ = .ok (.plain f₂)) : ofExprs sigs [e₁, e₂] = .ok [f₁, f₂] := by
  simp only [ofExprs, h₁, h₂]
  rfl

theorem preserved_negate (he : Preserved sigs undecided ρ σ e t) :
    Preserved sigs undecided ρ σ (.operator info .negate [e]) false := by
  obtain ⟨f, hf, -, hagrees, -⟩ := he
  refine preserved_operator rfl (ofExprs_single hf) rfl rfl ?_ (by simp)
  exact hagrees.map (- ·)

theorem preserved_arithmetic (hop : op ∈ [.add, .subtract, .multiply])
    (h₁ : Preserved sigs undecided ρ σ e₁ t₁) (h₂ : Preserved sigs undecided ρ σ e₂ t₂) :
    Preserved sigs undecided ρ σ (.operator info op [e₁, e₂]) false := by
  obtain ⟨f₁, hf₁, -, hagrees₁, -⟩ := h₁
  obtain ⟨f₂, hf₂, -, hagrees₂, -⟩ := h₂
  have hfs := ofExprs_pair hf₁ hf₂
  simp only [mem_cons, not_mem_nil, or_false] at hop
  rcases hop with rfl | rfl | rfl
  all_goals
    refine preserved_operator rfl hfs rfl rfl ?_ (by simp)
    exact hagrees₁.arithmetic _ hagrees₂

theorem isTruth_comparison (p : Rat → Rat → Bool) (a b : Option Meaning) :
    IsTruth (Meaning.comparison p a b) := by
  intro v hv
  obtain ⟨m, -, hv⟩ := Option.bind_eq_some_iff.1 hv
  obtain ⟨n, -, hv⟩ := Option.bind_eq_some_iff.1 hv
  cases hv
  exact ⟨_, rfl⟩

theorem value_comparison (r : Relation) (f g : Formula) :
    (comparison r f g).value undecided σ =
      choose (outcome undecided r.holds (f.value undecided σ) (g.value undecided σ)) (some 1)
        (some 0) := by
  rw [comparison, value_piecewise]
  simp [distinction]

theorem value_equal (f g : Formula) :
    (piecewise [equality f g, decimal 0]).value undecided σ =
      choose (outcome undecided (· == ·) (f.value undecided σ) (g.value undecided σ)) (some 1)
        (some 0) := by
  rw [value_piecewise]
  simp [equality, distinction]

theorem value_branch (f g h k : Formula) (hk : k.isValue) :
    (piecewise [branch (equality f g) h, k]).value undecided σ =
      choose (outcome undecided (· == ·) (f.value undecided σ) (g.value undecided σ))
        (h.value undecided σ) (k.value undecided σ) := by
  rw [value_piecewise, ← distinction_default hk]
  simp [branch, equality, distinction, condition]

theorem preserved_inequality {r : Relation} (hop : isCompositional op)
    (hformula : ∀ f g, operation op [f, g] = .ok (comparison r f g))
    (hmeaning : ∀ a b, Meaning.operation op [a, b] = Meaning.comparison r.holds a b)
    (h₁ : Preserved sigs undecided ρ σ e₁ t₁) (h₂ : Preserved sigs undecided ρ σ e₂ t₂) :
    Preserved sigs undecided ρ σ (.operator info op [e₁, e₂]) true := by
  obtain ⟨f₁, hf₁, -, hagrees₁, -⟩ := h₁
  obtain ⟨f₂, hf₂, -, hagrees₂, -⟩ := h₂
  have hmeanings : Meaning.operation op (meanings ρ [e₁, e₂]) =
      Meaning.comparison r.holds (e₁.meaning ρ) (e₂.meaning ρ) := hmeaning _ _
  refine preserved_operator hop (ofExprs_pair hf₁ hf₂) (hformula f₁ f₂) rfl ?_ ?_
  · rw [value_comparison, hmeanings]
    exact hagrees₁.comparison true (by simp) hagrees₂
  · rw [hmeanings]
    exact fun _ => isTruth_comparison _ _ _

theorem preserved_comparison
    (hop : op ∈ [.lessThan, .greaterThan, .lessEqual, .greaterEqual, .equal, .notEqual])
    (h₁ : Preserved sigs undecided ρ σ e₁ t₁) (h₂ : Preserved sigs undecided ρ σ e₂ t₂) :
    Preserved sigs undecided ρ σ (.operator info op [e₁, e₂]) true := by
  simp only [mem_cons, not_mem_nil, or_false] at hop
  rcases hop with rfl | rfl | rfl | rfl | rfl | rfl
  · exact preserved_inequality (r := .less) rfl (fun _ _ => rfl) (fun _ _ => rfl) h₁ h₂
  · exact preserved_inequality (r := .greater) rfl (fun _ _ => rfl) (fun _ _ => rfl) h₁ h₂
  · exact preserved_inequality (r := .lessEqual) rfl (fun _ _ => rfl) (fun _ _ => rfl) h₁ h₂
  · exact preserved_inequality (r := .greaterEqual) rfl (fun _ _ => rfl) (fun _ _ => rfl) h₁ h₂
  all_goals
    obtain ⟨f₁, hf₁, -, hagrees₁, -⟩ := h₁
    obtain ⟨f₂, hf₂, -, hagrees₂, -⟩ := h₂
    refine preserved_operator rfl (ofExprs_pair hf₁ hf₂) rfl rfl ?_ fun _ => isTruth_comparison _ _ _
  · rw [value_equal]
    exact hagrees₁.comparison true (by simp) hagrees₂
  · rw [value_branch _ _ _ _ rfl, value_decimal_zero, value_decimal_one]
    exact hagrees₁.comparison false (by simp [bne]) hagrees₂

theorem isTruth_choice (hfalse : IsTruth (g false)) (htrue : IsTruth (g true)) :
    IsTruth (do g (← (← a).truth?)) := by
  intro v h
  obtain ⟨m, -, h⟩ := Option.bind_eq_some_iff.1 h
  obtain ⟨b, -, h⟩ := Option.bind_eq_some_iff.1 h
  cases b
  · exact hfalse v h
  · exact htrue v h

theorem isTruth_some (b : Bool) : IsTruth (some (.truth b)) := by
  intro v h
  cases h
  exact ⟨b, rfl⟩

theorem preserved_not (he : Preserved sigs undecided ρ σ e true) :
    Preserved sigs undecided ρ σ (.operator info .not [e]) true := by
  obtain ⟨f, hf, -, hagrees, htruth⟩ := he
  refine preserved_operator rfl (ofExprs_single hf) rfl rfl ?_ fun _ =>
    isTruth_choice (isTruth_some true) (isTruth_some false)
  rw [value_equal, value_decimal_zero]
  exact hagrees.choose_truth false (htruth rfl) (agrees_some (.truth true))
    (agrees_some (.truth false))

theorem preserved_junction (hop : op ∈ [.and, .or]) (h₁ : Preserved sigs undecided ρ σ e₁ true)
    (h₂ : Preserved sigs undecided ρ σ e₂ true) :
    Preserved sigs undecided ρ σ (.operator info op [e₁, e₂]) true := by
  obtain ⟨f₁, hf₁, -, hagrees₁, htruth₁⟩ := h₁
  obtain ⟨f₂, hf₂, hvalue₂, hagrees₂, htruth₂⟩ := h₂
  simp only [mem_cons, not_mem_nil, or_false] at hop
  rcases hop with rfl | rfl
  · refine preserved_operator rfl (ofExprs_pair hf₁ hf₂) rfl rfl ?_ fun _ =>
      isTruth_choice (isTruth_some false) (htruth₂ rfl)
    rw [value_branch _ _ _ _ hvalue₂, value_decimal_zero]
    exact hagrees₁.choose_truth false (htruth₁ rfl) (agrees_some (.truth false)) hagrees₂
  · refine preserved_operator rfl (ofExprs_pair hf₁ hf₂) rfl rfl ?_ fun _ =>
      isTruth_choice (htruth₂ rfl) (isTruth_some true)
    rw [value_branch _ _ _ _ hvalue₂, value_decimal_one]
    exact hagrees₁.choose_truth true (htruth₁ rfl) (agrees_some (.truth true)) hagrees₂

/-- The operands of a conditional have the branches of a case distinction of its value. -/
def PreservedArms (sigs : Signatures) (undecided : Option Bool) (ρ σ : String → Rat)
    (es : List Expr) (t : Bool) : Prop :=
  ∃ fs, ofExprs sigs es = .ok fs ∧
    Agrees undecided (distinction undecided σ (branches fs))
      (chosen (meanings ρ es)) ∧
    (t = true → IsTruth (chosen (meanings ρ es)))

theorem preservedArms_nil : PreservedArms sigs undecided ρ σ [] true := by
  refine ⟨[], rfl, agrees_none fun _ => ?_, fun _ v h => ?_⟩
  · simp [branches, distinction]
  · cases h

theorem preservedArms_default (he : Preserved sigs undecided ρ σ e t) :
    PreservedArms sigs undecided ρ σ [e] t := by
  obtain ⟨f, hf, hvalue, hagrees, htruth⟩ := he
  refine ⟨[f], ofExprs_single hf, ?_, htruth⟩
  rw [show branches [f] = [f] from rfl, distinction_default hvalue]
  exact hagrees

/-- One more branch before the others. -/
theorem preservedArms_cons {c v : Expr} {t' : Bool} (hc : Preserved sigs undecided ρ σ c true)
    (hv : Preserved sigs undecided ρ σ v t) (hes : PreservedArms sigs undecided ρ σ es t') :
    PreservedArms sigs undecided ρ σ (c :: v :: es) (t && t') := by
  obtain ⟨f, hf, -, hagrees, htruth⟩ := hc
  obtain ⟨g, hg, -, hagrees₁, htruth₁⟩ := hv
  obtain ⟨fs, hfs, hagrees₂, htruth₂⟩ := hes
  refine ⟨f :: g :: fs, ?_, ?_, fun ht => ?_⟩
  · simp only [ofExprs, hf, hg, hfs]
    rfl
  · have hbranches : distinction undecided σ (branches (f :: g :: fs)) =
        choose (outcome undecided (· == ·) (f.value undecided σ) (some 1)) (g.value undecided σ)
          (distinction undecided σ (branches fs)) := by
      simp [branches, branch, equality, distinction, condition]
    rw [hbranches]
    exact hagrees.choose_truth true (htruth rfl) hagrees₁ hagrees₂
  · rw [Bool.and_eq_true] at ht
    exact isTruth_choice (htruth₂ ht.2) (htruth₁ ht.1)

theorem preserved_conditional (hes : PreservedArms sigs undecided ρ σ es t) :
    Preserved sigs undecided ρ σ (.operator info .conditional es) t := by
  obtain ⟨fs, hfs, hagrees, htruth⟩ := hes
  refine preserved_operator rfl hfs rfl rfl ?_ htruth
  exact hagrees

theorem preserved_int {i : Int64} (hexact : rationalOf (Value.floatOfInteger i) = some i.toInt) :
    Preserved sigs undecided ρ σ (.literal info (.int i)) false := by
  refine ⟨decimal (Value.floatOfInteger i), rfl, rfl, ?_, by simp⟩
  rw [value, hexact]
  exact agrees_some (.number i.toInt)

theorem preserved_real {x : Float} (hexact : (rationalOf x).isSome) :
    Preserved sigs undecided ρ σ (.literal info (.real x)) false := by
  refine ⟨decimal x, rfl, rfl, ?_, by simp⟩
  obtain ⟨q, hq⟩ := Option.isSome_iff_exists.1 hexact
  have hmeaning : (literal info (.real x)).meaning ρ = some (.number q) := by
    rw [meaning, Meaning.ofValue, hq]
    rfl
  rw [value, hq, hmeaning]
  exact agrees_some (.number q)

theorem preserved_bool {b : Bool} :
    Preserved sigs undecided ρ σ (.literal info (.bool b)) true := by
  refine ⟨decimal (if b then 1 else 0), rfl, rfl, ?_, fun _ => isTruth_some b⟩
  have hvalue : (decimal (if b then 1 else 0)).value undecided σ = some (truth b).rational := by
    cases b with
    | false => exact value_decimal_zero
    | true => exact value_decimal_one
  rw [hvalue]
  exact agrees_some (.truth b)

theorem preserved_name {n : String} (h : Assigned ρ σ (.name info n)) :
    Preserved sigs undecided ρ σ (.name info n) (info.ty == .bool) := by
  have hmem : name info n ∈ (name info n).nodes := by simp [nodes]
  refine ⟨ofName n, rfl, rfl, ?_, fun ht v hv => ?_⟩
  · have hvalue : (ofName n).value undecided σ = some (ρ n) := by
      rw [ofName, value, ← h.same info n hmem]
      rfl
    have hrational : ρ n = (ofNumber info.ty (ρ n)).rational := by
      unfold ofNumber
      split
      case isTrue ht =>
        rcases h.bools info n hmem ht with hzero | hone
        · rw [hzero]
          decide +kernel
        · rw [hone]
          decide +kernel
      case isFalse => rfl
    rw [hvalue, hrational]
    exact agrees_some _
  · cases hv
    exact ⟨_, if_pos (beq_iff_eq.1 ht)⟩

end Translation

section Main

variable {sigs : Signatures} {undecided : Option Bool} {ρ σ : String → Rat}

mutual

theorem Logical.preserved {e t} : Logical e t → Assigned ρ σ e → Preserved sigs undecided ρ σ e t
  | .int hexact, _ => preserved_int hexact
  | .real hexact, _ => preserved_real hexact
  | .bool, _ => preserved_bool
  | .name, h => preserved_name h
  | .negate he, h => preserved_negate (he.preserved (h.operand (by simp)))
  | .arithmetic hop he₁ he₂, h =>
    preserved_arithmetic hop (he₁.preserved (h.operand (by simp)))
      (he₂.preserved (h.operand (by simp)))
  | .comparison hop he₁ he₂, h =>
    preserved_comparison hop (he₁.preserved (h.operand (by simp)))
      (he₂.preserved (h.operand (by simp)))
  | .junction hop he₁ he₂, h =>
    preserved_junction hop (he₁.preserved (h.operand (by simp)))
      (he₂.preserved (h.operand (by simp)))
  | .not he, h => preserved_not (he.preserved (h.operand (by simp)))
  | .conditional hes, h => preserved_conditional (hes.preserved fun _ he => h.operand he)

theorem LogicalArms.preserved {es t} :
    LogicalArms es t → (∀ e ∈ es, Assigned ρ σ e) → PreservedArms sigs undecided ρ σ es t
  | .nil, _ => preservedArms_nil
  | .default he, h => preservedArms_default (he.preserved (h _ (by simp)))
  | .cons hc hv hes, h =>
    preservedArms_cons (hc.preserved (h _ (by simp))) (hv.preserved (h _ (by simp)))
      (hes.preserved fun _ he => h _ (by simp [he]))

end

end Main

theorem Agrees.eq_map {x : Option Rat} {m : Option Meaning} (h : Agrees none x m) :
    x = m.map rational := by
  cases m with
  | none => exact h.2 rfl rfl
  | some v => exact h.1 v rfl

/-- Names that stay distinct in formulas can be assigned there what they are assigned in the
program. -/
theorem exists_assignment (ρ : String → Rat) (names : List String)
    (h : ∀ n ∈ names, ∀ n' ∈ names, mangled n = mangled n' → n = n') :
    ∃ σ : String → Rat, ∀ n ∈ names, σ (mangled n) = ρ n := by
  refine ⟨fun w => ((names.find? (mangled · == w)).map ρ).getD 0, fun n hn => ?_⟩
  cases hfind : names.find? (mangled · == mangled n) with
  | none =>
    have hnone := find?_eq_none.1 hfind n hn
    simp at hnone
  | some n' =>
    have heq : mangled n' = mangled n := by simpa using find?_some hfind
    obtain rfl := h n' (mem_of_find?_eq_some hfind) n hn heq
    simp [hfind]

def namesOf (e : Expr) : List String :=
  e.nodes.filterMap name?

theorem mem_namesOf {n : String} : n ∈ namesOf e ↔ ∃ info, .name info n ∈ e.nodes := by
  unfold namesOf
  rw [mem_filterMap]
  constructor
  · rintro ⟨x, hx, hname⟩
    cases x with
    | name info m =>
      cases hname
      exact ⟨info, hx⟩
    | _ => cases hname
  · rintro ⟨info, hx⟩
    exact ⟨_, hx, rfl⟩

/-- Formulas keep values.  For every expression over names, exact constants, arithmetic,
comparisons, logical operators and conditionals there is a formula, and under every assignment
of numbers to the names, with zero or one for those of type bool, its value is that of the
expression, and none if the expression has none.  Where the expression has a value, the
calculator may also go on behind a condition on something that has none. -/
theorem ofExpr_value (sigs : Signatures) {e : Expr} {t : Bool} (he : Logical e t)
    (hdistinct : ∀ n ∈ namesOf e, ∀ n' ∈ namesOf e, mangled n = mangled n' → n = n')
    {ρ : String → Rat}
    (hbools : ∀ info n, .name info n ∈ e.nodes → info.ty = .bool → ρ n = 0 ∨ ρ n = 1) :
    ∃ f, ofExpr sigs e = .ok f ∧ (∃ σ : String → Rat, ∀ n ∈ namesOf e, σ (mangled n) = ρ n) ∧
      ∀ σ : String → Rat, (∀ n ∈ namesOf e, σ (mangled n) = ρ n) →
        f.value none σ = (e.meaning ρ).map Meaning.rational ∧
        ∀ undecided v, e.meaning ρ = some v → f.value undecided σ = some v.rational := by
  have hassigned {σ : String → Rat} (hσ : ∀ n ∈ namesOf e, σ (mangled n) = ρ n) :
      Assigned ρ σ e :=
    ⟨fun info n hn => hσ n (mem_namesOf.2 ⟨info, hn⟩), hbools⟩
  obtain ⟨σ₀, hσ₀⟩ := exists_assignment ρ (namesOf e) hdistinct
  obtain ⟨f, hf, -, -, -⟩ : Preserved sigs none ρ σ₀ e t := he.preserved (hassigned hσ₀)
  refine ⟨f, by rw [ofExpr, hf]; rfl, ⟨σ₀, hσ₀⟩, fun σ hσ => ⟨?_, fun undecided v hv => ?_⟩⟩
  · obtain ⟨g, hg, -, hagrees, -⟩ : Preserved sigs none ρ σ e t := he.preserved (hassigned hσ)
    obtain rfl : g = f := by simpa [hf] using hg.symm
    exact hagrees.eq_map
  · obtain ⟨g, hg, -, hagrees, -⟩ : Preserved sigs undecided ρ σ e t :=
      he.preserved (hassigned hσ)
    obtain rfl : g = f := by simpa [hf] using hg.symm
    exact hagrees.1 v hv

/-- The expression `!a || {x_1 < 2: x_1 == -1}`, where `a` is true and `x_1` is three halves. -/
theorem ofExpr_value_disjunction :
    let name (t : Ty) (n : String) : Expr := .name ⟨t, .nowhere⟩ n
    let apply (op : Operation) : List Expr → Expr := .operator ⟨.unknown, .nowhere⟩ op
    let int (i : Int64) : Expr := .literal ⟨.int, .nowhere⟩ (.int i)
    let e := apply .or [apply .not [name .bool "a"], apply .conditional [
      apply .lessThan [name .real "x_1", int 2],
      apply .equal [name .real "x_1", apply .negate [int 1]]]]
    let ρ : String → Rat := fun n => if n = "a" then 1 else 3 / 2
    Logical e true ∧
    ∃ f, ofExpr .empty e = .ok f ∧
      (∃ σ : String → Rat, ∀ n ∈ namesOf e, σ (mangled n) = ρ n) ∧
      ∀ σ : String → Rat, (∀ n ∈ namesOf e, σ (mangled n) = ρ n) →
        f.value none σ = (e.meaning ρ).map rational ∧
        ∀ undecided v, e.meaning ρ = some v → f.value undecided σ = some v.rational := by
  intro name apply int e ρ
  have harms : LogicalArms [apply .lessThan [name .real "x_1", int 2],
      apply .equal [name .real "x_1", apply .negate [int 1]]] (true && true) :=
    .cons (.comparison (by simp) .name (.int (by decide +kernel)))
      (.comparison (by simp) .name (.negate (.int (by decide +kernel)))) .nil
  have hlogical : Logical e true := .junction (by simp) (.not .name) (.conditional harms)
  refine ⟨hlogical, ofExpr_value .empty hlogical (by decide) ?_⟩
  intro info n hn ht
  simp [e, apply, name, int, nodes, nodesOf] at hn
  rcases hn with ⟨rfl, rfl⟩ | ⟨rfl, rfl⟩
  · exact .inr (if_pos rfl)
  · cases ht

end Formula

end Diagram
