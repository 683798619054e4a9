import Diagram.Proofs.Typing.Stable

/-!
# The order in which types are merged

Merging is decided by two directed coercions, so a list of types may merge in one order and not in
another one.  That takes two types of the list that clash: an unknown type and another one, or an
enumeration and an integer, a truth value or another enumeration, inside of equally many lists.
Types that do not clash with each other coerce like numbers: each has a family and a rank in it,
and it coerces to those of its family whose rank is not less.  So they merge into the one of the
highest rank, if they are of one family, in every order.

Main statement: `mergeAll_of_perm`.
-/

namespace Diagram

open List

namespace Ty

/-- Whether the order matters in which two types are merged with others. -/
def clashes : Ty → Ty → Bool
  | list a, list b => a.clashes b
  | unknown, b => b != unknown
  | a, unknown => a != unknown
  | user m, user n => m != n
  | user _, int | user _, bool | int, user _ | bool, user _ => true
  | _, _ => false

/-- The widest type that values of a type can be used as. -/
def family : Ty → Ty
  | bool | int | user _ => real
  | ipoint => point
  | list t => list t.family
  | t => t

/-- How wide a type is among those of its family. -/
def rank : Ty → Nat
  | bool | ipoint => 0
  | list t => t.rank
  | real => 2
  | _ => 1

variable {a b c t u : Ty}

theorem coercesTo_iff (h : a.clashes b = false) :
    a.coercesTo b ↔ a.family = b.family ∧ a.rank ≤ b.rank := by
  induction a generalizing b with
  | list a ih =>
    cases b with
    | list b => simpa [coercesTo, family, rank] using ih h
    | _ => simp_all [clashes, coercesTo, family]
  | _ => cases b <;> simp_all [clashes, coercesTo, family, rank, isOpaque]

/-- A type is known by its family and its rank, among those that it does not clash with. -/
theorem eq_of_rank_eq (h : a.clashes b = false) (hfamily : a.family = b.family)
    (hrank : a.rank = b.rank) : a = b := by
  induction a generalizing b with
  | list a ih =>
    cases b with
    | list b => exact congrArg list (ih h (list.inj hfamily) hrank)
    | _ => simp_all [clashes, family]
  | _ => cases b <;> simp_all [clashes, family, rank]

theorem coercesTo_trans (hab : a.clashes b = false) (hbc : b.clashes c = false)
    (hac : a.clashes c = false) (h : a.coercesTo b) (h' : b.coercesTo c) :
    a.coercesTo c := by
  obtain ⟨hfamily, hrank⟩ := (coercesTo_iff hab).1 h
  obtain ⟨hfamily', hrank'⟩ := (coercesTo_iff hbc).1 h'
  exact (coercesTo_iff hac).2 ⟨hfamily.trans hfamily', Nat.le_trans hrank hrank'⟩

theorem eq_of_coercesTo (hab : a.clashes b = false) (hba : b.clashes a = false)
    (h : a.coercesTo b) (h' : b.coercesTo a) : a = b :=
  have ⟨hfamily, hrank⟩ := (coercesTo_iff hab).1 h
  eq_of_rank_eq hab hfamily (Nat.le_antisymm hrank ((coercesTo_iff hba).1 h').2)

/-- Two types that do not clash merge into the wider one, or they are of different families. -/
theorem merge_cases (hab : a.clashes b = false) (hba : b.clashes a = false) :
    (∃ c, merge a b = .ok c ∧ (c = a ∨ c = b) ∧ a.coercesTo c ∧ b.coercesTo c) ∨
      ((∃ m, merge a b = .error m) ∧ a.family ≠ b.family) := by
  unfold merge
  split
  next hunknown =>
    obtain ⟨rfl, rfl⟩ : a = unknown ∧ b = unknown := by
      cases a <;> cases b <;> simp_all [isUnknown, clashes]
    exact .inl ⟨unknown, rfl, .inl rfl, rfl, rfl⟩
  · by_cases hto : a.coercesTo b = true
    · exact .inl ⟨b, if_pos hto, .inr rfl, hto, coercesTo_self b⟩
    · by_cases hof : b.coercesTo a = true
      · exact .inl ⟨a, by rw [if_neg hto, if_pos hof], .inl rfl, coercesTo_self a, hof⟩
      · refine .inr ⟨⟨_, by rw [if_neg hto, if_neg hof]⟩, fun hfamily => ?_⟩
        rcases Nat.le_total a.rank b.rank with hrank | hrank
        · exact hto ((coercesTo_iff hab).2 ⟨hfamily, hrank⟩)
        · exact hof ((coercesTo_iff hba).2 ⟨hfamily.symm, hrank⟩)

/-- No two types of a list clash. -/
def Agree (ts : List Ty) : Prop :=
  ∀ a ∈ ts, ∀ b ∈ ts, a.clashes b = false

/-- Types that agree merge, from the left to the right, into the one of them that all of them
coerce to. -/
theorem foldlM_merge_eq_ok_iff {ts : List Ty} (h : Agree (t :: ts)) :
    ts.foldlM merge t = .ok u ↔ u ∈ t :: ts ∧ ∀ a ∈ t :: ts, a.coercesTo u := by
  induction ts generalizing t with
  | nil =>
    simp only [foldlM_nil, pure, Except.pure, Except.ok.injEq, mem_singleton]
    constructor
    · rintro rfl
      exact ⟨rfl, fun a ha => ha ▸ coercesTo_self a⟩
    · rintro ⟨rfl, -⟩
      rfl
  | cons b ts ih =>
    rw [foldlM_cons]
    have hmem : b ∈ t :: b :: ts := by simp
    rcases merge_cases (h t (by simp) b hmem) (h b hmem t (by simp)) with
      ⟨c, hc, hone, htc, hbc⟩ | ⟨⟨m, hm⟩, hfamily⟩
    · have hsub : c :: ts ⊆ t :: b :: ts := by
        rcases hone with rfl | rfl <;> simp
      have hagree : Agree (c :: ts) := fun x hx y hy => h x (hsub hx) y (hsub hy)
      rw [hc]
      refine (ih hagree).trans ⟨fun ⟨hu, hall⟩ => ⟨hsub hu, fun a ha => ?_⟩,
        fun ⟨hu, hall⟩ => ⟨?_, fun a ha => hall a (hsub ha)⟩⟩
      · have hthrough (hac : a.coercesTo c = true) : a.coercesTo u = true :=
          coercesTo_trans (h a ha c (hsub (by simp))) (h c (hsub (by simp)) u (hsub hu))
            (h a ha u (hsub hu)) hac (hall c (by simp))
        rcases mem_cons.1 ha with rfl | ha'
        · exact hthrough htc
        · rcases mem_cons.1 ha' with rfl | ha'
          · exact hthrough hbc
          · exact hall a (by simp [ha'])
      · -- The merged type coerces to `u`, so it is `u` if `u` is one of the two.
        have hcu : u.coercesTo c = true → u ∈ c :: ts := fun huc => by
          have heq : c = u := eq_of_coercesTo (h c (hsub (by simp)) u hu)
            (h u hu c (hsub (by simp))) (hall c (hsub (by simp))) huc
          simp [heq]
        rcases mem_cons.1 hu with rfl | hu'
        · exact hcu htc
        · rcases mem_cons.1 hu' with rfl | hu'
          · exact hcu hbc
          · simp [hu']
    · rw [hm]
      refine iff_of_false (by rintro ⟨⟩) fun ⟨hu, hall⟩ => hfamily ?_
      exact ((coercesTo_iff (h t (by simp) u hu)).1 (hall t (by simp))).1.trans
        ((coercesTo_iff (h b hmem u hu)).1 (hall b hmem)).1.symm

/-- Once an unknown type is met, the merged type stays unknown. -/
theorem eq_unknown_of_foldlM_merge {ts : List Ty} (hmem : unknown ∈ t :: ts)
    (h : ts.foldlM merge t = .ok u) : u = unknown := by
  induction ts generalizing t with
  | nil =>
    cases h
    exact (mem_singleton.1 hmem).symm
  | cons b ts ih =>
    obtain ⟨c, hc, h⟩ := bind_ok_iff.1 h
    refine ih ?_ h
    by_cases hts : unknown ∈ ts
    · simp [hts]
    · have hunknown : (t.isUnknown || b.isUnknown) = true := by
        rcases mem_cons.1 hmem with rfl | hmem
        · rfl
        · rw [← (mem_cons.1 hmem).resolve_right hts]
          simp [isUnknown]
      rw [merge, if_pos hunknown] at hc
      cases hc
      simp

/-- The type that a list of types merges into, from the left to the right. -/
def mergeAll : List Ty → Except Mismatch Ty
  | [] => .ok unknown
  | t :: ts => ts.foldlM merge t

end Ty

open Typing

section Branches

/-- The conditions of a conditional. -/
def Expr.conditions : List Expr → List Expr
  | condition :: _ :: rest => condition :: conditions rest
  | _ => []

/-- The values of a conditional, with the last one that has no condition. -/
def Expr.choices : List Expr → List Expr
  | [] => []
  | [default] => [default]
  | _ :: value :: rest => value :: choices rest

variable {t u : Ty} {e : Expr} {es : List Expr}

attribute [local simp] Expr.conditions Expr.choices branchesTy? mergeTy? Ty.mergeAll bind Except.bind pure Except.pure
  Except.toOption

theorem mergeItems_eq_ok_iff :
    mergeItems t es = .ok u ↔
      (∀ t ∈ es.map Expr.ty, isList t = false) ∧ (es.map Expr.ty).foldlM Ty.merge t = .ok u := by
  induction es generalizing t with
  | nil => simp [mergeItems]
  | cons e es ih =>
    unfold mergeItems requireFlat
    cases hlist : isList e.ty with
    | true => simp [hlist, refuse]
    | false =>
      cases hm : Ty.merge t e.ty with
      | error m => simp [hlist, hm, refuse]
      | ok c => simpa [hlist, hm] using ih

theorem listItemTy_eq_ok_iff :
    listItemTy es = .ok u ↔
      (∀ t ∈ es.map Expr.ty, isList t = false) ∧ Ty.mergeAll (es.map Expr.ty) = .ok u := by
  cases es with
  | nil => simp [listItemTy]
  | cons e es =>
    unfold listItemTy requireFlat
    cases hlist : isList e.ty with
    | true => simp [hlist, refuse]
    | false => simpa [hlist] using mergeItems_eq_ok_iff

theorem branchesTy?_eq_some_iff :
    branchesTy? (some t) es = some u ↔
      (∀ c ∈ Expr.conditions es, c.ty.coercesTo .bool) ∧
        ((Expr.choices es).map Expr.ty).foldlM Ty.merge t = .ok u := by
  induction es using Expr.choices.induct generalizing t with
  | case1 => simp
  | case2 default =>
    cases hm : Ty.merge t default.ty <;>
      simp [hm]
  | case3 condition value rest ih =>
    by_cases hcondition : condition.ty.coercesTo .bool = true
    · cases hm : Ty.merge t value.ty with
      | error m =>
        simp [hcondition, hm]
      | ok c =>
        simpa [hcondition, hm] using ih
    · simp [hcondition]

theorem branchesTy?_none_eq_some_iff :
    branchesTy? none es = some u ↔
      (∀ c ∈ Expr.conditions es, c.ty.coercesTo .bool) ∧
        Ty.mergeAll ((Expr.choices es).map Expr.ty) = .ok u := by
  match es with
  | [] => simp
  | [default] =>
    simp
  | condition :: value :: rest =>
    by_cases hcondition : condition.ty.coercesTo .bool = true
    · simpa [hcondition] using branchesTy?_eq_some_iff
    · simp [hcondition]

end Branches

namespace Ty

/-- Merging in another order.  If an unknown type is among the types then every order in which
they merge at all gives the unknown type.  If no two of them clash then every order gives the one
of them that all coerce to, and none if there is no such type; so the items of a list literal may
be put into another order, and the values and the conditions of a conditional. -/
theorem mergeAll_of_perm {ts ts' : List Ty} (hperm : ts.Perm ts') (hne : ts ≠ []) :
    (unknown ∈ ts → ∀ u, mergeAll ts = .ok u ∨ mergeAll ts' = .ok u → u = unknown) ∧
    (Agree ts →
      (∀ u, mergeAll ts = .ok u ↔ u ∈ ts ∧ ∀ a ∈ ts, a.coercesTo u = true) ∧
      (∀ u, mergeAll ts' = .ok u ↔ mergeAll ts = .ok u) ∧
      (∀ es es', es.map Expr.ty = ts → es'.map Expr.ty = ts' →
        ∀ u, listItemTy es' = .ok u ↔ listItemTy es = .ok u) ∧
      ∀ es es', (Expr.choices es).map Expr.ty = ts → (Expr.choices es').map Expr.ty = ts' →
        (Expr.conditions es).Perm (Expr.conditions es') →
        branchesTy? none es' = branchesTy? none es) := by
  have hmergeAll {ts : List Ty} (hne : ts ≠ []) (h : Agree ts) (u : Ty) :
      mergeAll ts = .ok u ↔ u ∈ ts ∧ ∀ a ∈ ts, a.coercesTo u = true := by
    obtain ⟨t, rest, rfl⟩ := exists_cons_of_ne_nil hne
    exact foldlM_merge_eq_ok_iff h
  have hunknown {ts : List Ty} {u : Ty} (hmem : unknown ∈ ts) (h : mergeAll ts = .ok u) :
      u = unknown := by
    obtain ⟨t, rest, rfl⟩ := exists_cons_of_ne_nil (ne_nil_of_mem hmem)
    exact eq_unknown_of_foldlM_merge hmem h
  have hne' : ts' ≠ [] := fun h => hne (h ▸ hperm).eq_nil
  refine ⟨fun hmem u hu => ?_, fun hagree => ?_⟩
  · exact hu.elim (hunknown hmem) (hunknown (hperm.mem_iff.1 hmem))
  have hagree' : Agree ts' := fun a ha b hb =>
    hagree a (hperm.mem_iff.2 ha) b (hperm.mem_iff.2 hb)
  have hsame (u : Ty) : mergeAll ts' = .ok u ↔ mergeAll ts = .ok u := by
    rw [hmergeAll hne' hagree', hmergeAll hne hagree]
    simp only [hperm.mem_iff]
  refine ⟨hmergeAll hne hagree, hsame, fun es es' hes hes' u => ?_, fun es es' hes hes' hc => ?_⟩
  · rw [listItemTy_eq_ok_iff, listItemTy_eq_ok_iff, hes, hes', hsame]
    simp only [hperm.mem_iff]
  · refine Option.ext fun u => ?_
    rw [branchesTy?_none_eq_some_iff, branchesTy?_none_eq_some_iff, hes, hes', hsame]
    simp only [hc.mem_iff]

/-- Three types of numbers. -/
theorem mergeAll_of_perm_numbers :
    [int, real, bool].Perm [bool, int, real] ∧ Agree [int, real, bool] ∧
    (∀ u, mergeAll [bool, int, real] = .ok u ↔ mergeAll [int, real, bool] = .ok u) ∧
    mergeAll [bool, int, real] = .ok real := by
  have hperm : [int, real, bool].Perm [bool, int, real] := by decide
  have hagree : Agree [int, real, bool] := by simp [Agree, clashes]
  obtain ⟨-, hsame, -, -⟩ := (mergeAll_of_perm hperm (by simp)).2 hagree
  exact ⟨hperm, hagree, hsame, (hsame real).2 rfl⟩

/-- An unknown type between a text and a point hides that the two do not merge, so the list may
not end with it. -/
theorem mergeAll_of_unknown_between :
    [str, unknown, ipoint].Perm [str, ipoint, unknown] ∧
    mergeAll [str, unknown, ipoint] = .ok unknown ∧
    mergeAll [str, ipoint, unknown] = .error (.noMerge str ipoint) ∧
    (∃ p q, Program.parse (Token.ofText "let f(a: ?) = [\"s\", a, (1, 2)];") = .ok p ∧
      p.analyze.outcome = .ok q ∧ (q.signatures.get? "f").map (·.ty) = some (list unknown)) ∧
    ∃ p, Program.parse (Token.ofText "let f(a: ?) = [\"s\", (1, 2), a];") = .ok p ∧
      p.analyze.outcome.isOk = false := by
  refine ⟨by decide, rfl, rfl, ?_, by decide +kernel⟩
  simp only [exists_and_left]
  decide +kernel

end Ty

end Diagram
