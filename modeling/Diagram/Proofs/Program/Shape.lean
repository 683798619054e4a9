import Diagram.Program.Parser
import Diagram.Proofs.NameMap
import Diagram.Proofs.Parser.Shape

/-!
# Shapes of programs that are read

An action that was read has no holes but for missing defaults, and an element has all of its
quantities.  In a program that was read every definition and every action has a signature, and
every signature of a constant, a value or a variable has a definition.
-/

namespace Diagram

/-- An action without holes, all of whose expressions satisfy `P`. -/
inductive Action.Whole (P : Expr → Prop) : Action → Prop
  | block {actions} (h : ∀ a ∈ actions, Whole P a) : Whole P (.block actions)
  | update {target value} (htarget : P target) (hvalue : P value) : Whole P (.update target value)
  | call {callee args} (hcallee : P callee) (hargs : ∀ e ∈ args, P e) : Whole P (.call callee args)
  | conditional {arms} (hconditions : ∀ arm ∈ arms, P arm.1)
      (hbodies : ∀ arm ∈ arms, Whole P arm.2) : Whole P (.conditional arms .hole)
  | conditionalElse {arms default} (hconditions : ∀ arm ∈ arms, P arm.1)
      (hbodies : ∀ arm ∈ arms, Whole P arm.2) (hdefault : Whole P default) :
      Whole P (.conditional arms default)

variable {P Q : Expr → Prop} {t : Ty} {tokens : List Token}

theorem Action.whole_ofList {actions : List Action} (h : ∀ a ∈ actions, a.Whole P) :
    (Action.ofList actions).Whole P := by
  unfold ofList
  split
  · exact h _ (List.mem_singleton_self _)
  · exact .block h

theorem Action.Whole.mono (hPQ : ∀ e, P e → Q e) {a : Action} (h : a.Whole P) : a.Whole Q := by
  induction h with
  | block _ ih => exact .block ih
  | update htarget hvalue => exact .update (hPQ _ htarget) (hPQ _ hvalue)
  | call hcallee hargs => exact .call (hPQ _ hcallee) fun e he => hPQ e (hargs e he)
  | conditional hconditions _ ih =>
    exact .conditional (fun arm harm => hPQ _ (hconditions arm harm)) ih
  | conditionalElse hconditions _ _ ih ihdefault =>
    exact .conditionalElse (fun arm harm => hPQ _ (hconditions arm harm)) ih ihdefault

def Given (P : Expr → Prop) (quantity : Option Expr) : Prop :=
  ∃ e, quantity = some e ∧ P e

/-- An element with all quantities, which satisfy `P`, and with a click action, if it has one,
whose expressions satisfy `Q`. -/
structure Element.Whole (P Q : Expr → Prop) (e : Element) : Prop where
  what : Given P e.what
  color : Given P e.color
  point : ∀ a, e.point = some a → Given P a.size ∧ Given P a.opacity
  stroke : ∀ a, e.stroke = some a → Given P a.width ∧ Given P a.opacity
  fill : ∀ a, e.fill = some a → Given P a.opacity
  label : ∀ a, e.label = some a → Given P a.opacity ∧ Given P a.scale ∧ Given P a.angle
  click : ∀ a, e.click = some a → a.Whole Q

theorem Element.whole_iff {e : Element} :
    e.Whole P Q ↔ (∀ q ∈ e.quantities, Given P q) ∧ ∀ a, e.click = some a → a.Whole Q := by
  obtain ⟨what, color, point, stroke, fill, label, drag, click, description⟩ := e
  constructor
  · rintro ⟨hwhat, hcolor, hpoint, hstroke, hfill, hlabel, hclick⟩
    refine ⟨?_, hclick⟩
    cases point <;> cases stroke <;> cases fill <;> cases label <;> simp_all [quantities]
  · rintro ⟨hgiven, hclick⟩
    constructor <;> simp_all [quantities]

namespace Element

/-- An element with other quantities, in the order of a source, and with another click action. -/
def refill (e : Element) (qs : List (Option Expr)) (click : Option Action) : Element :=
  let next : StateM Nat (Option Expr) := fun i => (qs.getD i none, i + 1)
  { (e.traverse (fun _ => next) pure 0).1 with click }

theorem traverse_eq {m : Type → Type} [Monad m] [LawfulMonad m]
    (quantity : Option Expr → m (Option Expr)) (action : Action → m Action) (e : Element) :
    e.traverse quantity action = do
      let qs ← e.quantities.mapM quantity
      let click ← e.click.mapM action
      return e.refill qs click := by
  obtain ⟨what, color, point, stroke, fill, label, drag, click, description⟩ := e
  cases point <;> cases stroke <;> cases fill <;> cases label <;> cases click <;>
    simp [traverse, quantities] <;> rfl

theorem refill_self (e : Element) : e.refill e.quantities e.click = e := by
  obtain ⟨what, color, point, stroke, fill, label, drag, click, description⟩ := e
  cases point <;> cases stroke <;> cases fill <;> cases label <;> rfl

variable {e : Element} {qs : List (Option Expr)} {click : Option Action}

theorem refill_refill (qs' : List (Option Expr)) (click' : Option Action) :
    (e.refill qs click).refill qs' click' = e.refill qs' click' := by
  obtain ⟨what, color, point, stroke, fill, label, drag, -, description⟩ := e
  cases point <;> cases stroke <;> cases fill <;> cases label <;> rfl

theorem quantities_refill (h : qs.length = e.quantities.length) :
    (e.refill qs click).quantities = qs := by
  have hrange : (e.refill qs click).quantities =
      (List.range e.quantities.length).map (qs.getD · none) := by
    obtain ⟨what, color, point, stroke, fill, label, drag, -, description⟩ := e
    cases point <;> cases stroke <;> cases fill <;> cases label <;> rfl
  rw [hrange, ← h]
  exact List.ext_getElem (by simp) fun i _ hi => by simp [hi]

end Element

/-- A quantity of an element: what was read, or the number that stands for what was left out. -/
def Expr.Quantity (tokens : List Token) (e : Expr) : Prop :=
  e.Shaped tokens ∨ ∃ x, e = .constant (.real x) .nowhere

/-- The functions, actions and enumerations that a type names satisfy `P`. -/
def Ty.Over (P : Ty → Prop) : Ty → Prop
  | list item => item.Over P
  | function name => P (.function name)
  | action name => P (.action name)
  | user name => P (.user name)
  | _ => True

theorem Ty.Over.mono {P Q : Ty → Prop} (h : ∀ t, P t → Q t) (ht : t.Over P) : t.Over Q := by
  induction t with
  | list item ih => exact ih ht
  | function name | action name | user name => exact h _ ht
  | _ => trivial

variable (D : String → Prop)

/-- The functions that a type names are among those that satisfy `D`. -/
abbrev Ty.Within (t : Ty) : Prop :=
  t.Over fun u => ∀ n, u = .function n → D n

theorem Ty.Within.mono {D D' : String → Prop} (h : ∀ n, D n → D' n) {t : Ty} (ht : t.Within D) :
    t.Within D' :=
  Over.mono (fun _ hu n hn => h n (hu n hn)) ht

theorem Ty.within_function_iff {D : String → Prop} {name : String} :
    (Ty.function name).Within D ↔ D name :=
  ⟨fun h => h name rfl, fun h _ heq => Ty.function.inj heq ▸ h⟩

theorem Ty.within_action (name : String) : (Ty.action name).Within D :=
  fun _ h => nomatch h

theorem Ty.within_user (name : String) : (Ty.user name).Within D :=
  fun _ h => nomatch h

/-- A type as it is written: it names nothing but enumerations. -/
abbrev Ty.Written (t : Ty) : Prop :=
  t.Over fun u => ∃ n, u = .user n

theorem Ty.Written.within (h : t.Written) (D : String → Prop) : t.Within D := by
  refine Over.mono ?_ h
  rintro _ ⟨n, rfl⟩ m hm
  cases hm

theorem Ty.written_ofName (name : String) : (Ty.ofName name).Written := by
  unfold ofName
  iterate 9 (split; · trivial)
  exact ⟨name, rfl⟩

/-- What a program has for a name with a signature: a definition, unless the name is that of an
action or of an enumeration.  The types name only functions that have a definition. -/
structure Signature.Backed (D : String → Prop) (name : String) (s : Signature) : Prop where
  defined : s.declares ≠ .action → s.declares ≠ .enum → D name
  params : ∀ p ∈ s.paramList, p.ty.Within D
  ty : s.ty.Within D

/-- Whether a program defines a name as a constant, a value or a variable. -/
def Program.Defines (p : Program) (name : String) : Prop :=
  p.identifiers.contains name = true

/-- A program as it is read from some tokens. -/
structure Program.Shaped (tokens : List Token) (p : Program) : Prop where
  signatures : ∀ n s, p.signatures.get? n = some s → s.Backed p.Defines n
  signed : ∀ n, p.Defines n → p.signatures.contains n = true
  actionSigned : ∀ n, p.actions.contains n = true → p.signatures.contains n = true
  identifiers : ∀ n e, p.identifiers.get? n = some e → e.Shaped tokens
  actions : ∀ n a, p.actions.get? n = some a → a.Whole (Expr.Shaped tokens)
  entries : ∀ es, p.entries = some es → ∀ e ∈ es, e.Shaped tokens
  interval : ∀ t e, p.ticker = some t → t.interval = some e → e.Shaped tokens
  tick : ∀ t, p.ticker = some t → t.action.Whole (Expr.Shaped tokens)
  display : ∀ es, p.display = some es →
    ∀ e ∈ es, e.Whole (Expr.Quantity tokens) (Expr.Shaped tokens)

end Diagram
