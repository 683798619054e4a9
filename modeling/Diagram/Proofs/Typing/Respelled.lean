import Diagram.Proofs.Program.Renaming
import Diagram.Proofs.Typing.Settled

/-!
# Rules under a renaming

No typing rule looks at the spelling of a name, only at which names are equal.  A renaming that
keeps different names apart therefore commutes with every rule, and with what is computed from
constants.

Main statement: `Settles.respelled`.
-/

namespace Diagram

open List Option Ty Builtin

/-- Whether a renaming keeps different names apart. -/
structure Renaming.Injective (r : Renaming) : Prop where
  name : Function.Injective r.name
  type : Function.Injective r.type

variable {r : Renaming}

namespace Ty

@[simp] theorem isUnknown_rename (t : Ty) : (t.rename r).isUnknown = t.isUnknown := by
  cases t <;> rfl

@[simp] theorem isNumeric_rename (t : Ty) : (t.rename r).isNumeric = t.isNumeric := by
  cases t <;> rfl

@[simp] theorem isPoint_rename (t : Ty) : (t.rename r).isPoint = t.isPoint := by
  cases t <;> rfl

@[simp] theorem item?_rename (t : Ty) : (t.rename r).item? = t.item?.map (rename r) := by
  cases t <;> rfl

@[simp] theorem rename_eq_real_iff {t : Ty} : t.rename r = .real ↔ t = .real := by
  cases t <;> simp [rename]

@[simp] theorem rename_eq_point_iff {t : Ty} : t.rename r = .point ↔ t = .point := by
  cases t <;> simp [rename]

@[simp] theorem rename_eq_ipoint_iff {t : Ty} : t.rename r = .ipoint ↔ t = .ipoint := by
  cases t <;> simp [rename]

theorem coercesTo_rename (hr : r.Injective) (a b : Ty) :
    (a.rename r).coercesTo (b.rename r) = a.coercesTo b := by
  induction a generalizing b with
  | list a ih =>
    cases b with
    | list b => exact ih b
    | _ => rfl
  | _ => cases b <;> simp [rename, coercesTo, isOpaque, hr.name.eq_iff, hr.type.eq_iff]

variable {b a t : Ty}

/-- A type without names of its own. -/
theorem coercesTo_rename_left (hr : r.Injective) (a : Ty) (hb : b.rename r = b) :
    (a.rename r).coercesTo b = a.coercesTo b := by
  have h := coercesTo_rename hr a b
  rw [hb] at h
  exact h

theorem merge_rename (hr : r.Injective) (h : merge a b = .ok t) :
    merge (a.rename r) (b.rename r) = .ok (t.rename r) := by
  unfold merge at h ⊢
  simp only [isUnknown_rename, coercesTo_rename hr]
  repeat' split at h
  all_goals first
    | cases h
      simp_all [rename]
    | cases h

theorem mergeNumeric_rename (hr : r.Injective) (h : mergeNumeric a b = .ok t) :
    mergeNumeric (a.rename r) (b.rename r) = .ok t := by
  unfold mergeNumeric at h ⊢
  simp only [isUnknown_rename, coercesTo_rename_left hr _ (b := int) rfl,
    coercesTo_rename_left hr _ (b := real) rfl]
  repeat' split at h
  all_goals first
    | cases h
      simp_all
    | cases h

theorem rename_of_mergeNumeric (h : mergeNumeric a b = .ok t) : t.rename r = t := by
  unfold mergeNumeric at h
  repeat' split at h
  all_goals cases h
  all_goals rfl

theorem mergeNumeric_self_ne_error (h : t.isNumeric) {m : Mismatch} :
    mergeNumeric t t ≠ .error m := by
  cases t <;> first | cases h; done | exact nofun

theorem pointType_rename (hr : r.Injective) (h : pointType a b = .ok t) :
    pointType (a.rename r) (b.rename r) = .ok t ∧ t.rename r = t := by
  obtain ⟨u, hu, rfl⟩ := map_ok_iff.1 h
  refine ⟨map_ok_iff.2 ⟨u, mergeNumeric_rename hr hu, rfl⟩, ?_⟩
  split <;> rfl

theorem isNone_difference?_rename (hr : r.Injective) (a b : Ty) :
    ((a.rename r).difference? (b.rename r)).isNone = (a.difference? b).isNone := by
  induction a generalizing b with
  | list a ih =>
    cases b with
    | list b => exact ih b
    | _ => rfl
  | _ =>
    cases b <;> simp only [rename, difference?, hr.name.eq_iff, hr.type.eq_iff] <;>
      first | rfl | (split <;> rfl)

end Ty

namespace Value

@[simp] theorem ty_rename (v : Value) : (v.rename r).ty = v.ty.rename r := by
  cases v <;> rfl

@[simp] theorem number?_rename (v : Value) : (v.rename r).number? = v.number? := by
  cases v <;> rfl

@[simp] theorem integer?_rename (v : Value) : (v.rename r).integer? = v.integer? := by
  cases v <;> rfl

@[simp] theorem vertex?_rename (v : Value) : (v.rename r).vertex? = v.vertex? := by
  cases v <;> rfl

theorem renameAll_eq_map (vs : List Value) : renameAll r vs = vs.map (rename r) := by
  induction vs with
  | nil => rfl
  | cons v vs ih => simp [renameAll, ih]

theorem rename_convertNumber (t : Ty) {v : Value} (hv : v.rename r = v) :
    (convert.convertNumber t v).rename r = convert.convertNumber (t.rename r) v := by
  unfold convert.convertNumber
  cases t <;> cases v.number? <;> first | exact hv | rfl

mutual

/-- A constant is converted in the same way under new names. -/
theorem rename_convert (t : Ty) : (v : Value) →
    (v.convert t).rename r = (v.rename r).convert (t.rename r)
  | .real _ | .point _ | .color _ _ _ _ | .polygon _ | .segment _ _ | .str _ => rfl
  | .int i => by
    simp only [rename, convert, Ty.rename_eq_real_iff]
    split <;> rfl
  | .bool b => rename_convertNumber t rfl
  | .enum n variant ordinal => by
    cases t <;> rfl
  | .ipoint x y => by
    simp only [rename, convert, Ty.rename_eq_point_iff]
    split <;> rfl
  | .list item items => by
    cases t with
    | list u =>
      have hitems := rename_convertAll u items
      simp only [rename, convert, Ty.rename, Ty.isUnknown_rename]
      split
      · rfl
      · simp only [rename, hitems]
    | _ => rfl

/-- Constants are converted in the same way under new names. -/
theorem rename_convertAll (t : Ty) : (vs : List Value) →
    renameAll r (convertAll t vs) = convertAll (t.rename r) (renameAll r vs)
  | [] => rfl
  | v :: vs => by
    simp only [convertAll, renameAll, rename_convert t v, rename_convertAll t vs]

end

@[simp] theorem rename_ofVertex (t : Ty) (p : Vertex) :
    (ofVertex t p).rename r = ofVertex t p := by
  unfold ofVertex
  split <;> rfl

@[simp] theorem ofVertex_rename (t : Ty) (p : Vertex) :
    ofVertex (t.rename r) p = ofVertex t p := by
  simp [ofVertex]

theorem isNone_differenceIf (b : Bool) (v w : Value) : (differenceIf b v w).isNone = !b := by
  cases b <;> rfl

theorem difference?_of_types {a b : Value} {d : Ty.Difference}
    (h : a.ty.difference? b.ty = some d) : a.difference? b = some (.types d) := by
  unfold difference?
  rw [h]

mutual

/-- Whether two constants differ does not depend on the names of their types. -/
theorem isNone_difference?_rename (hr : r.Injective) (a b : Value) :
    ((a.rename r).difference? (b.rename r)).isNone = (a.difference? b).isNone := by
  have hty := Ty.isNone_difference?_rename hr a.ty b.ty
  rw [← ty_rename, ← ty_rename] at hty
  cases hd : a.ty.difference? b.ty with
  | some d =>
    rw [hd, isNone_some, isNone_eq_false_iff] at hty
    obtain ⟨d', hd'⟩ := isSome_iff_exists.1 hty
    rw [difference?_of_types hd, difference?_of_types hd']
    rfl
  | none =>
    rw [hd, isNone_none, isNone_iff_eq_none] at hty
    -- Constants of one type are made in the same way.
    cases a <;> cases b <;> first | cases hd; done | skip
    case list.list t vs u ws =>
      have hlength : ∀ xs : List Value, (renameAll r xs).length = xs.length := by
        simp [renameAll_eq_map]
      have hitems := isNone_differenceAt_rename hr 0 vs ws
      unfold difference?
      rw [hd, hty]
      simp only [rename, hlength]
      split
      · rfl
      · exact hitems
    case enum.enum n v i m w j =>
      unfold difference?
      rw [hd, hty]
      simp only [rename, isNone_differenceIf]
    all_goals rfl

theorem isNone_differenceAt_rename (hr : r.Injective) (i : Nat) (vs ws : List Value) :
    (differenceAt i (renameAll r vs) (renameAll r ws)).isNone = (differenceAt i vs ws).isNone := by
  match vs, ws with
  | v :: vs, w :: ws =>
    have hhead := isNone_difference?_rename hr v w
    have htail := isNone_differenceAt_rename hr (i + 1) vs ws
    simp only [renameAll, differenceAt]
    cases hd : v.difference? w with
    | some d =>
      rw [hd] at hhead
      cases hd' : (v.rename r).difference? (w.rename r) with
      | some d' => rfl
      | none => simp [hd'] at hhead
    | none =>
      rw [hd] at hhead
      rw [isNone_iff_eq_none.1 hhead]
      exact htail
  | [], _ => rfl
  | _ :: _, [] => rfl

end

theorem signed?_rename (op : Operation) (v : Value) :
    signed? op (v.rename r) = (signed? op v).map (rename r) := by
  unfold signed?
  simp only [vertex?_rename, number?_rename, integer?_rename, ty_rename, ofVertex_rename]
  cases v.vertex? with
  | some p => simp
  | none =>
    cases v.number? with
    | none => rfl
    | some x =>
      cases v.integer? with
      | none => rfl
      | some i =>
        dsimp only
        split
        · rfl
        · split <;> rfl

theorem pointArithmetic?_rename (op : Operation) (a b : Value) :
    pointArithmetic? op (a.rename r) (b.rename r) = pointArithmetic? op a b := by
  simp [pointArithmetic?]

/-- What is computed from numbers and points names no type. -/
theorem arithmetic?_rename (op : Operation) (a b : Value) (t : Ty) :
    arithmetic? op (a.rename r) (b.rename r) t = (arithmetic? op a b t).map (rename r) := by
  unfold arithmetic?
  simp only [pointArithmetic?_rename, integer?_rename, number?_rename]
  split
  · rw [Option.map_map]
    exact congrArg (Option.map · _) (funext fun p => (rename_ofVertex t p).symm)
  · split
    · cases a.integer? with
      | none => rfl
      | some i =>
        cases b.integer? with
        | none => rfl
        | some j =>
          simp only [bind_eq_bind, bind_some]
          cases integerArithmetic? op i j <;> rfl
    · cases a.number? with
      | none => rfl
      | some x =>
        cases b.number? with
        | none => rfl
        | some y =>
          simp only [bind_eq_bind, bind_some]
          cases realArithmetic? op x y <;> rfl

theorem same?_rename (hr : r.Injective) (a b : Value) :
    same? (a.rename r) (b.rename r) = same? a b := by
  simp [same?, isNone_difference?_rename hr]

theorem compare?_rename (hr : r.Injective) (op : Operation) (a b : Value) :
    compare? op (a.rename r) (b.rename r) = compare? op a b := by
  simp [compare?, same?_rename hr]

end Value

namespace Typing

theorem coordinate?_rename (m : String) (v : Value) :
    coordinate? m (v.rename r) = (coordinate? m v).map (Value.rename r) := by
  cases v <;> rfl

@[simp] theorem isList_rename (t : Ty) : isList (t.rename r) = isList t := by
  simp [isList]

@[simp] theorem itemTy_rename (t : Ty) : itemTy (t.rename r) = (itemTy t).rename r := by
  cases t <;> rfl

theorem spread_rename (t : Ty) (ts : List Ty) :
    spread (t.rename r) (ts.map (rename r)) = (spread t ts).rename r := by
  have hany : (ts.map (rename r)).any isList = ts.any isList := by simp [Function.comp_def]
  unfold spread
  rw [hany]
  split <;> rfl

theorem scaledPointTy_rename (hr : r.Injective) (a b : Ty) :
    scaledPointTy (a.rename r) (b.rename r) = scaledPointTy a b := by
  simp [scaledPointTy, coercesTo_rename_left hr _ (b := .int) rfl]

theorem isNumberLike_rename (hr : r.Injective) (t : Ty) :
    isNumberLike (t.rename r) = isNumberLike t := by
  simp [isNumberLike, coercesTo_rename_left hr _ (b := .real) rfl]

theorem isPointLike_rename (t : Ty) : isPointLike (t.rename r) = isPointLike t := by
  simp [isPointLike]

/-- Arithmetic gives types without names. -/
theorem arithmeticTy?_rename (hr : r.Injective) {op : Operation} {a b t : Ty}
    (h : arithmeticTy? op a b = some t) :
    arithmeticTy? op (a.rename r) (b.rename r) = some t ∧ t.rename r = t := by
  unfold arithmeticTy? at h ⊢
  simp only [isPoint_rename, isPointLike_rename, isNumberLike_rename hr,
    scaledPointTy_rename hr, rename_eq_ipoint_iff]
  split at h
  case isTrue hpoint =>
    rw [if_pos hpoint]
    refine ⟨h, ?_⟩
    have hscaled : ∀ a b : Ty, (scaledPointTy a b).rename r = scaledPointTy a b := by
      intro a b
      unfold scaledPointTy
      split <;> rfl
    repeat' split at h
    all_goals cases h
    all_goals first | exact hscaled _ _ | rfl
  case isFalse hpoint =>
    rw [if_neg hpoint]
    cases hmerge : mergeNumeric a b with
    | error m => simp [hmerge] at h
    | ok u =>
      rw [mergeNumeric_rename hr hmerge]
      simp only [hmerge] at h
      refine ⟨h, ?_⟩
      have hu : u.rename r = u := rename_of_mergeNumeric hmerge
      cases h
      split
      · rfl
      · exact hu

def Verdict.rename (r : Renaming) (v : Verdict) : Verdict :=
  ⟨v.ty.rename r, v.value.map (Value.rename r)⟩

end Typing

/-- Whether two expressions have the same type and the same value, but for new names. -/
structure Expr.Respelled (r : Renaming) (e e' : Expr) : Prop where
  ty : e'.ty = e.ty.rename r
  value : e'.value? = e.value?.map (Value.rename r)

namespace Typing

variable {α β : Type} {R : α → β → Prop} {bs : List β}

theorem forall₂_singleton {a : α} (h : Forall₂ R [a] bs) : ∃ b, bs = [b] ∧ R a b := by
  cases h with
  | cons hab htail =>
    cases htail
    exact ⟨_, rfl, hab⟩

theorem forall₂_pair {a₁ a₂ : α} (h : Forall₂ R [a₁, a₂] bs) :
    ∃ b₁ b₂, bs = [b₁, b₂] ∧ R a₁ b₁ ∧ R a₂ b₂ := by
  cases h with
  | cons hab htail =>
    obtain ⟨b, rfl, hb⟩ := forall₂_singleton htail
    exact ⟨_, b, rfl, hab, hb⟩

section Rules

variable {x y x' y' : Expr} {es es' : List Expr} {v : Verdict} {t u : Ty} {earlier : Option Ty}
  {op : Operation} {vs : List Value} {n : String} {b : Builtin}

variable (hr : r.Injective) (hx : x.Respelled r x') (hy : y.Respelled r y')
  (hes : Forall₂ (Expr.Respelled r) es es')

section One

include hx

theorem truth?_respelled : truth? x' = truth? x := by
  unfold truth?
  rw [hx.value]
  cases x.value? <;> simp

theorem requireFlat_respelled (h : requireFlat x = .ok ()) : requireFlat x' = .ok () := by
  rw [requireFlat_eq_ok_iff] at h ⊢
  rw [hx.ty, isList_rename, h]

theorem negation_respelled : negation x' = (negation x).rename r := by
  unfold negation Verdict.rename
  rw [truth?_respelled hx]
  cases truth? x <;> rfl

theorem memberTy_respelled {m : String}
    (h : (memberTy .nowhere x m).toOption = some t) :
    (memberTy .nowhere x' m).toOption = some t ∧ t.rename r = t := by
  unfold memberTy at h ⊢
  dsimp only at h ⊢
  simp only [hx.ty, itemTy_rename, isPoint_rename, isUnknown_rename, rename_eq_ipoint_iff]
  split at h
  case isTrue hmember =>
    rw [if_pos hmember]
    refine ⟨h, ?_⟩
    cases h
    split <;> rfl
  case isFalse => cases h

theorem comprehensionTy_respelled
    (hmap : x'.isOp .listMap = x.isOp .listMap) (h : (comprehensionTy x).toOption = some t) :
    (comprehensionTy x').toOption = some (t.rename r) := by
  unfold comprehensionTy requireFlat at h ⊢
  rw [hmap, hx.ty, isList_rename]
  split at h
  case isTrue hop =>
    cases h
    rw [if_pos hop]
    rfl
  case isFalse hop =>
    rw [if_neg hop]
    split at h
    · cases h
    · rename_i hflat
      cases h
      rw [if_neg hflat]
      rfl

include hr

theorem coercesTo_respelled (ht : t.rename r = t) : x'.ty.coercesTo t = x.ty.coercesTo t := by
  rw [hx.ty, coercesTo_rename_left hr _ ht]

theorem coercesTo_itemTy_respelled (ht : t.rename r = t) :
    (itemTy x'.ty).coercesTo t = (itemTy x.ty).coercesTo t := by
  rw [hx.ty, itemTy_rename, coercesTo_rename_left hr _ ht]

omit hx in
theorem signTy?_rename (h : signTy? t = some u) : signTy? (t.rename r) = some (u.rename r) := by
  unfold signTy? at h ⊢
  simp only [itemTy_rename, isUnknown_rename, isPoint_rename, isNumeric_rename]
  repeat' split at h
  case isTrue hpoint =>
    cases h
    rw [if_pos hpoint]
  case isTrue hpoint hnumeric =>
    rw [if_neg hpoint, if_pos hnumeric]
    cases hmerge : mergeNumeric (itemTy t) (itemTy t) with
    | ok w =>
      have hspread := spread_rename (r := r) w [t]
      rw [rename_of_mergeNumeric hmerge] at hspread
      rw [hmerge] at h
      cases h
      rw [mergeNumeric_rename hr hmerge]
      exact congrArg some hspread
    -- A number can always be merged with itself.
    | error m => exact absurd hmerge (mergeNumeric_self_ne_error hnumeric)
  case isFalse => cases h

theorem sign_respelled (h : sign op x = .ok v) : sign op x' = .ok (v.rename r) := by
  obtain ⟨t, ht, rfl⟩ := sign_eq_ok_iff.1 h
  refine sign_eq_ok_iff.2 ⟨t.rename r, hx.ty ▸ signTy?_rename hr ht, congrArg (Verdict.mk _) ?_⟩
  rw [hx.value]
  cases x.value? with
  | none => rfl
  | some w => exact Value.signed?_rename op w

end One

section Two

include hx hy

theorem connective_respelled (op : Operation) :
    connective op x' y' = (connective op x y).rename r := by
  unfold connective Verdict.rename
  rw [truth?_respelled hx, truth?_respelled hy]
  cases truth? x with
  | none => rfl
  | some a => cases truth? y <;> rfl

/-- An operation that is made item by item, and that looks at no names. -/
theorem itemwise_respelled {f : Value → Value → Option Value}
    (ht : t.rename r = t)
    (hf : ∀ a b, f (a.rename r) (b.rename r) = (f a b).map (Value.rename r)) :
    itemwise x' y' t f = (itemwise x y t f).rename r := by
  unfold itemwise
  simp only [hx.ty, hy.ty, isList_rename, hx.value, hy.value]
  split
  · simp [Verdict.rename, Verdict.typed, rename, ht]
  · cases x.value? <;> cases y.value? <;> simp [Verdict.rename, ht, hf]

include hr

theorem point_respelled
    (h : point .nowhere x y = .ok v) : point .nowhere x' y' = .ok (v.rename r) := by
  obtain ⟨hcx, hcy, t, hty, rfl⟩ := point_eq_ok_iff.1 h
  obtain ⟨hty', ht⟩ := pointType_rename hr hty
  rw [← itemwise_respelled hx hy ht (by simp), point_eq_ok_iff,
    coercesTo_itemTy_respelled hr hx rfl, coercesTo_itemTy_respelled hr hy rfl, hx.ty,
    hy.ty, itemTy_rename, itemTy_rename]
  exact ⟨hcx, hcy, t, hty', by simp⟩

theorem listFill_respelled (h : listFill x y = .ok v) : listFill x' y' = .ok (v.rename r) := by
  obtain ⟨hflat, hcoerces, rfl⟩ := listFill_eq_ok_iff.1 h
  rw [listFill_eq_ok_iff, coercesTo_respelled hr hy rfl, hx.ty, isList_rename]
  exact ⟨hflat, hcoerces, rfl⟩

theorem index_respelled (h : index x y = .ok v) : index x' y' = .ok (v.rename r) := by
  obtain ⟨hlist, hcoerces, rfl⟩ := index_eq_ok_iff.1 h
  rw [index_eq_ok_iff, coercesTo_respelled hr hy rfl, hx.ty, isList_rename, isUnknown_rename,
    itemTy_rename]
  exact ⟨hlist, hcoerces, rfl⟩

theorem arithmetic_respelled
    (h : arithmetic .nowhere op x y = .ok v) : arithmetic .nowhere op x' y' = .ok (v.rename r) := by
  obtain ⟨t, hty, rfl⟩ := arithmetic_eq_ok_iff.1 h
  obtain ⟨hty', ht⟩ := arithmeticTy?_rename hr hty
  rw [← itemwise_respelled hx hy ht fun a b => Value.arithmetic?_rename op a b t,
    arithmetic_eq_ok_iff, hx.ty, hy.ty, itemTy_rename, itemTy_rename]
  exact ⟨t, hty', rfl⟩

theorem comparison_respelled
    (h : comparison .nowhere op x y = .ok v) : comparison .nowhere op x' y' = .ok (v.rename r) := by
  obtain ⟨hcompares, rfl⟩ := comparison_eq_ok_iff.1 h
  rw [← itemwise_respelled hx hy rfl fun a b => ?_]
  · refine comparison_eq_ok_iff.2 ⟨?_, rfl⟩
    unfold Comparable at hcompares ⊢
    rw [coercesTo_itemTy_respelled hr hx rfl, coercesTo_itemTy_respelled hr hy rfl, hx.ty, hy.ty,
      itemTy_rename, itemTy_rename]
    split at hcompares
    · rw [if_pos ‹_›]
      exact ⟨_, merge_rename hr hcompares.choose_spec⟩
    · rw [if_neg ‹_›]
      exact hcompares
  · rw [Value.compare?_rename hr]
    cases Value.compare? op a b <;> rfl

end Two

section Several

include hr

theorem mergeTy?_respelled (h : mergeTy? earlier t = some u) :
    mergeTy? (earlier.map (rename r)) (t.rename r) = some (u.rename r) := by
  cases earlier with
  | none =>
    cases h
    rfl
  | some a =>
    exact toOption_eq_some_iff.2 (merge_rename hr (toOption_eq_some_iff.1 h))

include hes

theorem branchesTy?_respelled
    (h : branchesTy? earlier es = some t) :
    branchesTy? (earlier.map (rename r)) es' = some (t.rename r) := by
  fun_induction branchesTy? earlier es generalizing es' t with
  | case1 earlier =>
    cases hes
    cases earlier <;> cases h <;> rfl
  | case2 earlier default =>
    obtain ⟨e', rfl, hd⟩ := forall₂_singleton hes
    unfold branchesTy?
    rw [hd.ty]
    exact mergeTy?_respelled hr h
  | case3 earlier condition value rest hbool ih =>
    cases hes with
    | cons hcondition htail =>
      cases htail with
      | cons hvalue hrest =>
        obtain ⟨u, hu, h⟩ := bind_eq_some_iff.1 h
        unfold branchesTy?
        rw [hcondition.ty, coercesTo_rename_left hr _ (b := .bool) rfl, if_pos hbool,
          hvalue.ty, mergeTy?_respelled hr hu]
        exact ih u hrest h
  | case4 earlier condition value rest hbool => cases h

theorem mergeItems_respelled
    (h : mergeItems t es = .ok u) : mergeItems (t.rename r) es' = .ok (u.rename r) := by
  induction hes generalizing t with
  | nil =>
    cases h
    rfl
  | @cons x x' es es' hx hes ih =>
    obtain ⟨_, hflat, h⟩ := bind_ok_iff.1 h
    refine bind_ok_iff.2 ⟨(), requireFlat_respelled hx hflat, ?_⟩
    cases hmerge : merge t x.ty with
    | error m =>
      simp only [hmerge] at h
      cases h
    | ok w =>
      simp only [hmerge] at h
      rw [hx.ty, merge_rename hr hmerge]
      exact ih h

theorem listItemTy_respelled (h : listItemTy es = .ok t) : listItemTy es' = .ok (t.rename r) := by
  cases hes with
  | nil =>
    cases h
    rfl
  | cons hx hes =>
    obtain ⟨_, hflat, h⟩ := bind_ok_iff.1 h
    refine bind_ok_iff.2 ⟨(), requireFlat_respelled hx hflat, ?_⟩
    rw [hx.ty]
    exact mergeItems_respelled hr hes h

omit hr in
/-- The values of operands under new names. -/
theorem mapM_value?_respelled :
    es'.mapM Expr.value? = (es.mapM Expr.value?).map (List.map (Value.rename r)) := by
  induction hes with
  | nil => rfl
  | @cons x x' es es' hx hes ih =>
    rw [mapM_cons, mapM_cons, hx.value, ih]
    cases x.value? with
    | none => rfl
    | some v => cases es.mapM Expr.value? <;> rfl

theorem listLiteral_respelled
    (h : listLiteral es = .ok v) : listLiteral es' = .ok (v.rename r) := by
  obtain ⟨t, hty, rfl⟩ := listLiteral_eq_ok_iff.1 h
  refine listLiteral_eq_ok_iff.2 ⟨t.rename r, listItemTy_respelled hr hes hty, ?_⟩
  rw [mapM_value?_respelled hes]
  cases es.mapM Expr.value? with
  | none => rfl
  | some values =>
    have hconvert : Value.convertAll (t.rename r) (values.map (Value.rename r)) =
        Value.renameAll r (Value.convertAll t values) := by
      rw [← Value.renameAll_eq_map, Value.rename_convertAll]
    simp only [map_some, bind_eq_bind, bind_some, isUnknown_rename, isEmpty_map, hconvert]
    split <;> rfl

theorem range_respelled (h : range es = .ok v) : range es' = .ok (v.rename r) := by
  obtain ⟨hall, rfl⟩ := range_eq_ok_iff.1 h
  refine range_eq_ok_iff.2 ⟨?_, rfl⟩
  clear h
  induction hes with
  | nil => simp
  | cons hx hes ih =>
    obtain ⟨hfirst, hrest⟩ := forall_mem_cons.1 hall
    exact forall_mem_cons.2 ⟨(coercesTo_respelled hr hx rfl).trans hfirst, ih hrest⟩

/-- No rule on operands looks at the spelling of names. -/
theorem Settles.respelled (h : Settles op es v) : Settles op es' (v.rename r) := by
  have hbool {x x' : Expr} (hx : x.Respelled r x') : x.ty.coercesTo .bool → x'.ty.coercesTo .bool :=
    (coercesTo_respelled hr hx rfl).trans
  cases h with
  | not hx =>
    obtain ⟨x', rfl, he⟩ := forall₂_singleton hes
    rw [← negation_respelled he]
    exact .not (hbool he hx)
  | connective hop hx hy =>
    obtain ⟨x', y', rfl, hx', hy'⟩ := forall₂_pair hes
    rw [← connective_respelled hx' hy']
    exact .connective hop (hbool hx' hx) (hbool hy' hy)
  | conditional hty => exact .conditional (branchesTy?_respelled hr hes hty)
  | point h =>
    obtain ⟨x', y', rfl, hx', hy'⟩ := forall₂_pair hes
    exact .point (point_respelled hr hx' hy' h)
  | listLiteral h => exact .listLiteral (listLiteral_respelled hr hes h)
  | listFill h =>
    obtain ⟨x', y', rfl, hx', hy'⟩ := forall₂_pair hes
    exact .listFill (listFill_respelled hr hx' hy' h)
  | index h =>
    obtain ⟨x', y', rfl, hx', hy'⟩ := forall₂_pair hes
    exact .index (index_respelled hr hx' hy' h)
  | sign hop h =>
    obtain ⟨x', rfl, he⟩ := forall₂_singleton hes
    exact .sign hop (sign_respelled hr he h)
  | arithmetic hop h =>
    obtain ⟨x', y', rfl, hx', hy'⟩ := forall₂_pair hes
    exact .arithmetic hop (arithmetic_respelled hr hx' hy' h)
  | comparison hop h =>
    obtain ⟨x', y', rfl, hx', hy'⟩ := forall₂_pair hes
    exact .comparison hop (comparison_respelled hr hx' hy' h)
  | range hop h => exact .range hop (range_respelled hr hes h)

theorem admits_respelled {params : List Param} (h : Admits params es)
    :
    Admits (params.map (Param.rename r)) es' := by
  induction h generalizing es' with
  | nil =>
    cases hes
    exact .nil
  | cons hcoerces _ ih =>
    cases hes with
    | cons hx hes =>
      refine .cons ?_ (ih hes)
      change coercesTo _ (rename r _) = true
      rw [hx.ty, coercesTo_rename hr]
      exact hcoerces

end Several

theorem toOption_map {ε : Type} {f : α → β} (x : Except ε α) :
    (x.map f).toOption = x.toOption.map f := by
  cases x <;> rfl

theorem channels_respelled (i : Nat) :
    (channels i (vs.map (Value.rename r))).toOption = (channels i vs).toOption := by
  induction vs generalizing i with
  | nil => rfl
  | cons w vs ih =>
    simp only [map_cons, channels, Value.number?_rename]
    cases w.number? with
    | none => rfl
    | some x => simp only [toOption_map, ih]

theorem vertices_respelled (i : Nat) :
    (vertices i (vs.map (Value.rename r))).toOption = (vertices i vs).toOption := by
  induction vs generalizing i with
  | nil => rfl
  | cons w vs ih =>
    simp only [map_cons, vertices, Value.vertex?_rename]
    cases w.vertex? with
    | none => rfl
    | some x => simp only [toOption_map, ih]

theorem run_respelled {f : Builtin.Fold} {w : Value} (h : f.run vs = .ok (some w)) :
    f.run (vs.map (Value.rename r)) = .ok (some w) ∧ w.rename r = w := by
  constructor
  · rw [← toOption_eq_some_iff] at h ⊢
    rw [← h]
    cases f with
    | color | polygon =>
      simp only [Builtin.Fold.run, toOption_map, channels_respelled, vertices_respelled]
    | segment =>
      match vs with
      | a :: b :: _ =>
        simp only [Builtin.Fold.run, map_cons, Value.vertex?_rename]
        cases a.vertex? <;> cases b.vertex? <;> rfl
      | [] | [_] => rfl
  · have hty := ty_of_run h
    cases f <;> cases w <;> first | rfl | cases hty

theorem rename_result (hfind : find? n = some b) : b.result.rename r = b.result := by
  rcases eq_of_find?_eq_some hfind with ⟨m, rfl⟩ | rfl | rfl | rfl | rfl <;> rfl

theorem callVerdict?_respelled (hfind : find? n = some b)
    (hes : Forall₂ (Expr.Respelled r) es es') (h : callVerdict? b es = some v) :
    callVerdict? b es' = some (v.rename r) := by
  have hresult : b.result.rename r = b.result := rename_result hfind
  have htyped : (Verdict.typed b.result).rename r = .typed b.result := by
    simp [Verdict.rename, Verdict.typed, hresult]
  unfold callVerdict? at h ⊢
  rw [mapM_value?_respelled hes]
  cases hfold : b.fold with
  | none =>
    simp only [hfold, Option.some.injEq] at h ⊢
    rw [← h, htyped]
  | some f =>
    cases hvalues : es.mapM Expr.value? with
    | none =>
      simp only [hfold, hvalues, Option.some.injEq, map_none] at h ⊢
      rw [← h, htyped]
    | some vs =>
      simp only [hfold, hvalues, map_some] at h ⊢
      split at h
      case h_1 w hrun =>
        cases h
        obtain ⟨hrun', hw⟩ := run_respelled (r := r) hrun
        simp [hrun', Verdict.rename, hresult, hw]
      case h_2 => cases h

end Rules

end Typing

end Diagram
