import Diagram.Proofs.Typing.Declared
import Diagram.Proofs.Typing.Merged

/-!
# Lists of constants

The types of the items of a list merge into one, and constants are converted to it.  Nothing is
converted to a variant, though: where the items of a list are variants of an enumeration, numbers,
truth values and variants of other enumerations stay what they are.  In all other lists of constants
every item has the type of the items.

* `Value.belongs_convert` — one constant that is converted to a type of its family.
* `Settles.listed` — one operation: what it gives is a list of this kind if it is a list.
* `Program.item_belongs` — the constants of an analyzed program.
-/

namespace Diagram

open List Option

open Typing

variable {v w : Value} {t u : Ty}

/-- Whether a constant may stand among items of a type: it is of this type, or it may be used as a
number and this is an enumeration. -/
def Value.Belongs (v : Value) (t : Ty) : Prop :=
  v.ty = t ∨ (∃ n, t = .user n) ∧ v.ty.coercesTo .int = true

def Value.items : Value → List Value
  | list _ items => items
  | _ => []

/-- A constant that is no list, or a list of such items, none of which is a list. -/
def Value.Listed (v : Value) : Prop :=
  ∀ t, v.ty = .list t → ∀ x ∈ v.items, isList x.ty = false ∧ x.Belongs t

/-- A type is in the family of a second one and not wider. -/
def Ty.Below (t u : Ty) : Prop :=
  t.family = u.family ∧ t.rank ≤ u.rank

theorem Ty.Below.trans {s : Ty} (h : s.Below t) (h' : t.Below u) : s.Below u :=
  ⟨h.1.trans h'.1, Nat.le_trans h.2 h'.2⟩

theorem Ty.below_of_coercesTo (ht : t.isUnknown = false) (hflat : isList t = false)
    (hu : u.isUnknown = false) (h : t.coercesTo u) : t.Below u := by
  cases t <;> cases u <;> simp_all [coercesTo, isUnknown, isList, item?, Below, family, rank]

/-- Types that merge into a known one are below it. -/
theorem Ty.below_of_foldlM_merge {ts : List Ty} (hflat : ∀ a ∈ t :: ts, isList a = false)
    (h : ts.foldlM merge t = .ok u) (hu : u.isUnknown = false) : ∀ a ∈ t :: ts, a.Below u := by
  induction ts generalizing t with
  | nil =>
    cases h
    exact forall_mem_singleton.2 ⟨rfl, Nat.le_refl _⟩
  | cons b ts ih =>
    obtain ⟨hflatT, hflatB, hflat⟩ : isList t = false ∧ isList b = false ∧
        ∀ a ∈ ts, isList a = false := by simpa using hflat
    have hknown : (t.isUnknown || b.isUnknown) = false := by
      refine Bool.eq_false_iff.2 fun hunknown => ?_
      rw [foldlM_cons, merge, if_pos hunknown] at h
      cases eq_unknown_of_foldlM_merge mem_cons_self h
      cases hu
    obtain ⟨ht, hb⟩ := Bool.or_eq_false_iff.1 hknown
    rw [foldlM_cons, merge, hknown] at h
    by_cases hto : t.coercesTo b = true
    · rw [if_pos hto] at h
      have hrest := ih (forall_mem_cons.2 ⟨hflatB, hflat⟩) h
      have hhead := (below_of_coercesTo ht hflatT hb hto).trans (hrest b mem_cons_self)
      exact forall_mem_cons.2 ⟨hhead, hrest⟩
    · by_cases hof : b.coercesTo t = true
      · rw [if_neg hto, if_pos hof] at h
        obtain ⟨hhead, hrest⟩ := forall_mem_cons.1 (ih (forall_mem_cons.2 ⟨hflatT, hflat⟩) h)
        have hsecond := (below_of_coercesTo hb hflatB ht hof).trans hhead
        exact forall_mem_cons.2 ⟨hhead, forall_mem_cons.2 ⟨hsecond, hrest⟩⟩
      · rw [if_neg hto, if_neg hof] at h
        cases h

variable {vs : List Value}

namespace Value

theorem below_of_belongs (h : v.Belongs t) : v.ty.Below t := by
  rcases h with rfl | ⟨⟨n, rfl⟩, h⟩
  · exact ⟨rfl, Nat.le_refl _⟩
  · cases v <;> simp_all [ty, Ty.coercesTo, Ty.Below, Ty.family, Ty.rank]

theorem isList_convert (v : Value) (t : Ty) : isList (v.convert t).ty = isList v.ty := by
  cases v with
  | list item items =>
    cases t with
    | list item' =>
      simp only [convert]
      split <;> rfl
    | _ => rfl
  | int i | ipoint x y =>
    unfold convert
    split <;> rfl
  | bool b | enum name variant ordinal =>
    unfold convert convert.convertNumber
    split <;> rfl
  | _ => rfl

/-- A constant that is no list and is converted to a type that its own is below. -/
theorem belongs_convert (hflat : isList v.ty = false) (h : v.ty.Below t) :
    (v.convert t).Belongs t := by
  obtain ⟨hfamily, hrank⟩ := h
  cases v with
  | list item items => cases hflat
  | _ =>
    cases t <;> simp_all [ty, convert, convert.convertNumber, number?, Belongs, Ty.family, Ty.rank,
      Ty.coercesTo]

theorem mem_convertAll (h : w ∈ convertAll t vs) : ∃ v ∈ vs, v.convert t = w := by
  induction vs with
  | nil => cases h
  | cons v vs ih =>
    rcases mem_cons.1 h with rfl | h
    · exact ⟨v, mem_cons_self, rfl⟩
    · obtain ⟨x, hx, hw⟩ := ih h
      exact ⟨x, mem_cons_of_mem v hx, hw⟩

theorem listed_of_flat (h : isList v.ty = false) : v.Listed := by
  intro t ht
  rw [ht] at h
  cases h

/-- Constants that are no lists become a list of items, converted to a type that theirs are
below. -/
theorem listed_convertAll (hflat : ∀ v ∈ vs, isList v.ty = false) (h : ∀ v ∈ vs, v.ty.Below t) :
    (list t (convertAll t vs)).Listed := by
  rintro _ ⟨⟩ x hx
  obtain ⟨y, hy, rfl⟩ := mem_convertAll hx
  exact ⟨(isList_convert y t).trans (hflat y hy), belongs_convert (hflat y hy) (h y hy)⟩

/-- A list that is converted to a type that it coerces to. -/
theorem Listed.convert (hv : v.Listed) (h : v.ty.coercesTo t) : (v.convert t).Listed := by
  cases v with
  | list item items =>
    cases t with
    | list item' =>
      simp only [Value.convert]
      split
      · exact hv
      · rename_i hknown
        have hitems := hv item rfl
        refine listed_convertAll (fun y hy => (hitems y hy).1) fun y hy => ?_
        obtain ⟨hflat, hbelongs⟩ := hitems y hy
        have hitem : item.isUnknown = false ∧ isList item = false := by
          rcases hbelongs with rfl | ⟨⟨n, rfl⟩, -⟩
          · exact ⟨by cases y <;> rfl, hflat⟩
          · exact ⟨rfl, rfl⟩
        exact (below_of_belongs hbelongs).trans
          (Ty.below_of_coercesTo hitem.1 hitem.2 (Bool.eq_false_iff.2 hknown) h)
    | _ => simpa only [Value.convert] using hv
  | _ => exact listed_of_flat (isList_convert _ t)

end Value

namespace Typing

variable {es : List Expr} {r : Verdict} {op : Operation}

theorem listed_of_isPlain (h : w.ty.isPlain) : w.Listed :=
  Value.listed_of_flat (by cases w <;> first | rfl | cases h)

theorem exists_of_mapM_value? (h : es.mapM Expr.value? = some vs) :
    ∀ v ∈ vs, ∃ e ∈ es, e.value? = some v := by
  induction es generalizing vs with
  | nil =>
    cases h
    nofun
  | cons e es ih =>
    rw [mapM_cons] at h
    obtain ⟨w, hw, h⟩ := bind_eq_some_iff.1 h
    obtain ⟨ws, hws, h⟩ := bind_eq_some_iff.1 h
    cases h
    refine forall_mem_cons.2 ⟨⟨e, mem_cons_self, hw⟩, fun v hv => ?_⟩
    obtain ⟨x, hx, hv⟩ := ih hws v hv
    exact ⟨x, mem_cons_of_mem e hx, hv⟩

theorem listed_of_listLiteral (h : listLiteral es = .ok r)
    (hes : ∀ e ∈ es, ∀ v, e.value? = some v → e.ty = v.ty) (hw : r.value = some w) : w.Listed := by
  obtain ⟨t, ht, h⟩ := bind_ok_iff.1 h
  cases h
  obtain ⟨vs, hvs, hw⟩ := bind_eq_some_iff.1 hw
  obtain ⟨hflat, hmerge⟩ := listItemTy_eq_ok_iff.1 ht
  split at hw
  · cases hw
  · rename_i hknown
    cases hw
    have hty : ∀ v ∈ vs, v.ty ∈ es.map Expr.ty := by
      intro v hv
      obtain ⟨e, he, hvalue⟩ := exists_of_mapM_value? hvs v hv
      exact List.mem_map.2 ⟨e, he, hes e he v hvalue⟩
    refine Value.listed_convertAll (fun v hv => hflat _ (hty v hv)) fun v hv => ?_
    -- There is an item, so the merged type is known.
    have hne : vs ≠ [] := ne_nil_of_mem hv
    have hu : t.isUnknown = false := by simpa [hne] using hknown
    have hmem := hty v hv
    revert hmerge hflat hmem
    cases es.map Expr.ty with
    | nil => nofun
    | cons a ts => exact fun hflat hmerge hmem => Ty.below_of_foldlM_merge hflat hmerge hu _ hmem

theorem Settles.listed (h : Settles op es r)
    (hes : ∀ e ∈ es, ∀ v, e.value? = some v → e.ty = v.ty) (hw : r.value = some w) : w.Listed := by
  by_cases hop : op = .listLiteral
  · subst hop
    exact listed_of_listLiteral (listLiteral_of_settles h) hes hw
  · have hover : ∀ e ∈ es, e.Over fun _ => True := fun e _ =>
      ⟨Ty.over_of_forall (fun _ => trivial) _, fun _ _ => Ty.over_of_forall (fun _ => trivial) _⟩
    exact listed_of_isPlain ((h.plain hover hop).2 w hw)

end Typing

instance (N : String → Prop) : Expr.Limits.Closed ⟨True, Value.Listed, N⟩ where
  plain := listed_of_isPlain
  variant := Value.listed_of_flat rfl
  settles h hes := h.listed fun e he v hv => ((hes e he).value v hv).1
  convert h hv := hv.convert h

namespace Program

variable {tokens : List Token} {p q : Program}

/-- The items of a list of constants in an analyzed program are no lists and have the type of its
items, unless this is an enumeration: there whatever may be used as a number keeps its type. -/
theorem item_belongs (hparse : Program.parse tokens = .ok p) (h : p.analyze.outcome = .ok q)
    {e : Expr} {v : Value} {t : Ty} (hmem : e ∈ q.allNodes) (hv : e.value? = some v)
    (ht : v.ty = .list t) :
    ∀ x ∈ v.items, isList x.ty = false ∧
      (x.ty = t ∨ (∃ n, t = .user n) ∧ x.ty.coercesTo .int = true) := by
  obtain ⟨-, hnodes⟩ := allows_of_analyze (L := ⟨True, Value.Listed, fun _ => True⟩) hparse
    (fun _ _ => trivial) h
  exact ((hnodes trivial e hmem).value v hv).2 t ht

/-- Truth values, integers and reals become reals. -/
theorem item_belongs_numbers :
    ∃ p q e v, Program.parse (Token.ofText "let a = [true, 2, 0.5];") = .ok p ∧
      p.analyze.outcome = .ok q ∧ e ∈ q.allNodes ∧ e.value? = some v ∧ v.ty = .list .real ∧
      v.items.length = 3 ∧ ∀ x ∈ v.items, x.ty = .real := by
  obtain ⟨p, hp, q, hq, e, he, v, hv, hty, hlength⟩ :
      ∃ p, Program.parse (Token.ofText "let a = [true, 2, 0.5];") = .ok p ∧
        ∃ q, p.analyze.outcome = .ok q ∧ ∃ e, q.identifiers.get? "a" = some e ∧
          ∃ v, e.value? = some v ∧ v.ty = .list .real ∧ v.items.length = 3 := by
    decide +kernel
  have hmem := mem_allNodes_of_get? he
  refine ⟨p, q, e, v, hp, hq, hmem, hv, hty, hlength, fun x hx => ?_⟩
  obtain ⟨-, h | ⟨⟨n, hn⟩, -⟩⟩ := item_belongs hp hq hmem hv hty x hx
  · exact h
  · cases hn

/-- A number among the variants of an enumeration stays a number. -/
theorem item_ty_of_number :
    let tokens := Token.ofText "enum Dir \x7b Up, Down \x7d let a = [1, Dir.Up];"
    ∃ p q e v, Program.parse tokens = .ok p ∧ p.analyze.outcome = .ok q ∧ e ∈ q.allNodes ∧
      e.value? = some v ∧ v.ty = .list (.user "Dir") ∧
      v.items.map Value.ty = [.int, .user "Dir"] := by
  intro tokens
  obtain ⟨p, hp, q, hq, e, he, v, hvalue⟩ : ∃ p, Program.parse tokens = .ok p ∧
      ∃ q, p.analyze.outcome = .ok q ∧ ∃ e, q.identifiers.get? "a" = some e ∧
        ∃ v, e.value? = some v ∧ v.ty = .list (.user "Dir") ∧
          v.items.map Value.ty = [.int, .user "Dir"] := by decide +kernel
  exact ⟨p, q, e, v, hp, hq, mem_allNodes_of_get? he, hvalue⟩

end Program

end Diagram
