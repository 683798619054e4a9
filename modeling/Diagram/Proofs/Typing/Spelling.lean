import Diagram.Proofs.Typing.Renamed
import Mathlib.Data.List.Nodup
import Mathlib.Logic.Equiv.Basic
import Mathlib.Logic.Relation
import Mathlib.Order.RelClasses

/-!
# The spelling of top-level names

A program under new names is alike to what it was, if no new name is taken.  So the spelling of
top-level names does not matter to the analysis, as long as no two different names ask for each
other.  If two do, the one that comes first in the alphabet is analyzed first, and what the other
one sees of it depends on that.

* `Program.Renames` — new names that are not taken.
* `Program.Unentangled` — no two names ask for each other.
* `alikeDefinitions_rename`, `alikeParts_rename` — the program under new names.
* `Program.analyze_rename` — its analysis.
-/

namespace Diagram

open List Option NameMap Program

/-! ### Maps and permutations -/

variable {α : Type}

theorem NameMap.get?_ofList {entries : List (String × α)} (h : (entries.map (·.1)).Nodup)
    {n : String} {v : α} (hmem : (n, v) ∈ entries) : (ofList entries).get? n = some v := by
  suffices hfold : ∀ (es : List (String × α)) (m : NameMap α), (es.map (·.1)).Nodup →
      (n, v) ∈ es ∨ n ∉ es.map (·.1) ∧ m.get? n = some v →
      (es.foldl (fun m e => m.insert e.1 e.2) m).get? n = some v from
    hfold entries .empty h (.inl hmem)
  intro es
  induction es with
  | nil =>
    rintro m - (hmem | ⟨-, hm⟩)
    · cases hmem
    · exact hm
  | cons e es ih =>
    intro m hnodup hn
    obtain ⟨hfirst, hrest⟩ := nodup_cons.1 hnodup
    refine ih (m.insert e.1 e.2) hrest ?_
    rcases hn with hmem | ⟨hnone, hm⟩
    · rcases mem_cons.1 hmem with rfl | hmem
      · exact .inr ⟨hfirst, get?_insert_self m _ _⟩
      · exact .inl hmem
    · obtain ⟨hne, hnone⟩ := not_or.1 (mt mem_cons.2 hnone)
      exact .inr ⟨hnone, (get?_insert_of_ne m e.2 hne).trans hm⟩

/-- The entry of a new name is the entry of the name that it stands for. -/
theorem NameMap.get?_rekey {β : Type} {m : NameMap α} {c : Equiv.Perm String} {f : String → String}
    (hf : ∀ n, m.contains n → c n = f n) (g : String → α → β) (n : String) :
    (m.rekey f g).get? (c n) = (m.get? n).map (g n) := by
  have hentry : ∀ e ∈ m.entries, c e.1 = f e.1 := fun e he =>
    hf e.1 (contains_eq_true_iff.2 ⟨e.2, get?_eq_some_iff.2 he⟩)
  have hkeys : (m.entries.map fun e => (f e.1, g e.1 e.2)).map (·.1) = m.names.map c := by
    rw [names, List.map_map, List.map_map]
    exact map_congr_left fun e he => (hentry e he).symm
  cases hget : m.get? n with
  | some v =>
    have hmem := get?_eq_some_iff.1 hget
    refine get?_ofList ?_ (List.mem_map.2 ⟨(n, v), hmem, ?_⟩)
    · rw [hkeys]
      exact List.Nodup.map c.injective (nodup_names m)
    · rw [hentry _ hmem]
  | none =>
    cases hnew : (m.rekey f g).get? (c n) with
    | none => rfl
    | some w =>
      have hmem := mem_entries_ofList (get?_eq_some_iff.1 hnew)
      have hkey : c n ∈ m.names.map c := hkeys ▸ List.mem_map_of_mem (f := (·.1)) hmem
      rw [List.mem_map_of_injective c.injective, mem_names_iff, contains_eq_true_iff] at hkey
      obtain ⟨v, hv⟩ := hkey
      rw [hget] at hv
      cases hv

/-- New names for finitely many names belong to a permutation of all names. -/
theorem exists_perm_eqOn {names : List String} {g : String → String}
    (hg : ∀ n ∈ names, ∀ m ∈ names, g n = g m → n = m) :
    ∃ c : Equiv.Perm String, ∀ n ∈ names, c n = g n := by
  induction names with
  | nil => exact ⟨.refl String, by simp⟩
  | cons a names ih =>
    obtain ⟨c, hc⟩ := ih fun n hn m hm =>
      hg n (mem_cons_of_mem _ hn) m (mem_cons_of_mem _ hm)
    -- The name that became the new name of `a` changes places with `a`.
    refine ⟨(Equiv.swap a (c.symm (g a))).trans c, forall_mem_cons.2 ⟨?_, fun n hn => ?_⟩⟩
    · rw [Equiv.trans_apply, Equiv.swap_apply_left, c.apply_symm_apply]
    · by_cases hna : n = a
      · rw [hna, Equiv.trans_apply, Equiv.swap_apply_left, c.apply_symm_apply]
      · have hother : n ≠ c.symm (g a) := by
          intro h
          have hsame : g n = g a := by rw [← hc n hn, h, c.apply_symm_apply]
          exact hna (hg n (mem_cons_of_mem _ hn) a mem_cons_self hsame)
        rw [Equiv.trans_apply, Equiv.swap_apply_of_ne_of_ne hna hother, hc n hn]

theorem Ty.rename_eq_of_over {r r' : Renaming} {t : Ty}
    (h : t.Over fun u => u.rename r = u.rename r') : t.rename r = t.rename r' := by
  induction t with
  | list item ih => exact congrArg Ty.list (ih h)
  | function name | action name | user name => exact h
  | _ => rfl

variable {c : Respelling}

namespace Program

def actionList (p : Program) : List Action :=
  p.actions.entries.map (·.2) ++ (p.ticker.map (·.action)).toList ++
    (p.display.getD []).filterMap (·.click)

/-- The names that a program refers to or updates. -/
def mentions (p : Program) : List String :=
  p.references ++ p.allNodes.filterMap Expr.target? ++ p.actionList.flatMap Action.targets

/-- The names of parameters, and the names that are bound in expressions. -/
def locals (p : Program) : List String :=
  p.signatures.entries.flatMap (fun e => e.2.paramList.map (·.name)) ++
    p.allNodes.flatMap Expr.binders

def writtenTypes (p : Program) : List String :=
  p.signatureTypes.filterMap Ty.enumeration?

/-- Whether new names for the names of the top level can be told apart from each other, from the
time step, from local names and from types, and none of them is the name of something that is not
declared. -/
structure Renames (p : Program) (f : String → String) : Prop where
  injective : ∀ n ∈ p.signatures.names, ∀ m ∈ p.signatures.names, f n = f m → n = m
  step : ∀ n ∈ p.signatures.names, f n ≠ n → f n ≠ Expr.timeStepName
  locals : ∀ n ∈ p.signatures.names, f n ≠ n → f n ∉ p.locals
  types : ∀ n ∈ p.signatures.names, f n ≠ n → f n ∈ p.writtenTypes → p.declaresEnum (f n) = true
  mentions : ∀ n ∈ p.signatures.names, f n ≠ n → f n ∈ p.mentions → f n ∈ p.signatures.names

instance (p : Program) (f : String → String) : Decidable (p.Renames f) :=
  decidable_of_iff (_ ∧ _ ∧ _ ∧ _ ∧ _)
    ⟨fun h => ⟨h.1, h.2.1, h.2.2.1, h.2.2.2.1, h.2.2.2.2⟩,
      fun h => ⟨h.injective, h.step, h.locals, h.types, h.mentions⟩⟩

/-- Whether the definition of a name mentions another one whose definition may be asked for. -/
def Asks (p : Program) (n m : String) : Prop :=
  p.Wanted m ∧ ∃ e, p.identifiers.get? n = some e ∧
    m ∈ e.references (p.paramNames n) (p.paramNames n) ++ e.nodes.filterMap Expr.target?

/-- Whether no two different names ask for each other, be it through others. -/
def Unentangled (p : Program) : Prop :=
  ∀ n m, Relation.TransGen p.Asks n m → Relation.TransGen p.Asks m n → n = m

/-- The order in which each definition comes after those that it asks for. -/
def Precedes (p : Program) (m n : String) : Prop :=
  Relation.TransGen p.Asks n m ∧ m ≠ n

variable {p : Program} {f : String → String}

theorem Unentangled.isStrictOrder (h : p.Unentangled) : IsStrictOrder String p.Precedes where
  irrefl _ hn := hn.2 rfl
  trans m n k hmn hnk := by
    refine ⟨hnk.1.trans hmn.1, ?_⟩
    rintro rfl
    exact hmn.2 (h m n hnk.1 hmn.1)

/-- Whether each definition mentions, of what may be asked for, itself and names of lower rank
only. -/
def Ranked (p : Program) (rank : String → Nat) : Prop :=
  ∀ d ∈ p.identifiers.entries,
    ∀ m ∈ d.2.references (p.paramNames d.1) (p.paramNames d.1) ++ d.2.nodes.filterMap Expr.target?,
      (p.signatures.get? m).any Signature.isWanted = true → m = d.1 ∨ rank m < rank d.1

instance (p : Program) (rank : String → Nat) : Decidable (p.Ranked rank) := by
  unfold Ranked
  infer_instance

theorem Ranked.unentangled {rank : String → Nat} (h : p.Ranked rank) : p.Unentangled := by
  have hstep : ∀ {n m}, p.Asks n m → m = n ∨ rank m < rank n := by
    rintro n m ⟨⟨sig, hsig, hwanted⟩, e, he, hm⟩
    refine h (n, e) (get?_eq_some_iff.1 he) m hm ?_
    rw [hsig]
    exact hwanted
  have hpath : ∀ {n m}, Relation.TransGen p.Asks n m → m = n ∨ rank m < rank n := by
    intro n m hnm
    induction hnm with
    | single hasks => exact hstep hasks
    | tail _ hasks ih =>
      rcases hstep hasks with rfl | hlt
      · exact ih
      · rcases ih with rfl | hlt'
        · exact .inr hlt
        · exact .inr (Nat.lt_trans hlt hlt')
  intro n m hnm hmn
  rcases hpath hnm with rfl | hlt
  · rfl
  · rcases hpath hmn with rfl | hlt'
    · rfl
    · omega

/-- A change of names that does to a program what new names for its top level say. -/
structure Spells (p : Program) (f : String → String) (c : Respelling) : Prop where
  enum : c.enum = p.declaresEnum
  declared : ∀ n, p.signatures.contains n = true → c.name n = f n
  mentioned : ∀ n ∈ p.mentions, c.name n = (p.newNames f).name n
  type : ∀ n, p.declaresEnum n = true ∨ n ∈ p.writtenTypes → c.type n = (p.newNames f).type n

variable {n m : String}

theorem contains_of_declaresEnum (h : p.declaresEnum n) : p.signatures.contains n := by
  unfold declaresEnum at h
  unfold NameMap.contains
  cases hsig : p.signatures.get? n with
  | none => simp [hsig] at h
  | some sig => rfl

theorem newNames_name (h : p.signatures.contains n) : (p.newNames f).name n = f n :=
  if_pos h

/-- New names for some names, none of which is another one among `others`, keep names apart. -/
theorem injective_of_fresh {K : String → Bool} {f : String → String} {others : List String}
    (hinjective : ∀ n m, K n → K m → f n = f m → n = m)
    (hfresh : ∀ n, K n → f n ≠ n → f n ∈ others → K (f n))
    (hn : K n ∨ n ∈ others) (hm : K m ∨ m ∈ others)
    (h : (if K n then f n else n) = if K m then f m else m) : n = m := by
  have hmixed : ∀ a b, K a = true → ¬K b = true → (K b = true ∨ b ∈ others) → f a ≠ b := by
    intro a b ha hb hmem heq
    have hother : f a ∈ others := heq ▸ hmem.resolve_left hb
    by_cases hsame : f a = a
    · exact hb (heq ▸ hsame.symm ▸ ha)
    · exact hb (heq ▸ hfresh a ha hsame hother)
  split at h <;> split at h
  case isTrue.isTrue hn' hm' => exact hinjective n m hn' hm' h
  case isTrue.isFalse hn' hm' => exact absurd h (hmixed n m hn' hm' hm)
  case isFalse.isTrue hn' hm' => exact absurd h.symm (hmixed m n hm' hn' hn)
  case isFalse.isFalse => exact h

/-- New names that are not taken belong to a change of names. -/
theorem Renames.exists_spells (hf : p.Renames f) : ∃ c, p.Spells f c := by
  have hinjective : ∀ n m, p.signatures.contains n = true → p.signatures.contains m = true →
      f n = f m → n = m := fun n m hn hm =>
    hf.injective n (mem_names_iff.2 hn) m (mem_names_iff.2 hm)
  obtain ⟨name, hname⟩ : ∃ name : Equiv.Perm String,
      ∀ n ∈ p.signatures.names ++ p.mentions, name n = (p.newNames f).name n := by
    refine exists_perm_eqOn fun n hn m hm => injective_of_fresh hinjective ?_
      ((mem_append.1 hn).imp_left mem_names_iff.1)
      ((mem_append.1 hm).imp_left mem_names_iff.1)
    intro k hk hnew hmention
    exact mem_names_iff.1 (hf.mentions k (mem_names_iff.2 hk) hnew hmention)
  obtain ⟨type, htype⟩ : ∃ type : Equiv.Perm String,
      ∀ n ∈ p.signatures.names.filter p.declaresEnum ++ p.writtenTypes,
        type n = (p.newNames f).type n := by
    refine exists_perm_eqOn fun n hn m hm => injective_of_fresh
      (fun k l hk hl => hinjective k l (contains_of_declaresEnum hk) (contains_of_declaresEnum hl)) ?_
      ((mem_append.1 hn).imp_left of_mem_filter)
      ((mem_append.1 hm).imp_left of_mem_filter)
    exact fun k hk => hf.types k (mem_names_iff.2 (contains_of_declaresEnum hk))
  refine ⟨⟨name, type, p.declaresEnum⟩, rfl, fun n hn => ?_, fun n hn => ?_, fun n hn => ?_⟩
  · exact (hname n (mem_append_left _ (mem_names_iff.2 hn))).trans (newNames_name hn)
  · exact hname n (mem_append_right _ hn)
  · refine htype n (hn.elim (fun h => mem_append_left _ ?_) (mem_append_right _))
    exact mem_filter.2 ⟨mem_names_iff.2 (contains_of_declaresEnum h), h⟩

theorem mem_locals_of_mem_paramNames (h : m ∈ p.paramNames n) : m ∈ p.locals := by
  unfold paramNames at h
  cases hsig : p.signatures.get? n with
  | none => simp [hsig] at h
  | some sig =>
    rw [hsig] at h
    exact mem_append_left _ (mem_flatMap.2 ⟨(n, sig), get?_eq_some_iff.1 hsig, h⟩)

theorem Renames.realizes (hf : p.Renames f) (hc : p.Spells f c) :
    Typing.Realizes c (p.newNames f) (· ∈ p.locals) where
  enum := hc.enum
  enumName n hn := by
    have hdeclared := contains_of_declaresEnum (hc.enum ▸ hn)
    rw [newNames_name hdeclared, hc.declared n hdeclared]
  fresh n := by
    by_cases hn : p.signatures.contains n = true
    · rw [newNames_name hn]
      by_cases hsame : f n = n
      · exact .inl hsame
      · rw [← mem_names_iff] at hn
        exact .inr ⟨hf.locals n hn hsame, hf.step n hn hsame⟩
    · exact .inl (if_neg hn)

variable {tokens : List Token}

/-- A program that was read has written types, and a definition for each name that may be asked
for. -/
theorem WellMade.grounded (hmade : p.WellMade tokens) (hshaped : p.Shaped tokens) : p.Grounded where
  keyed := hmade.keyed
  ty n sig hsig := by
    refine Ty.Over.mono ?_ (hmade.written n sig hsig).ty
    rintro u (⟨m, rfl⟩ | rfl) k hk <;> cases hk
  params n sig hsig q hq := ((hmade.written n sig hsig).params q hq).1.within _
  defined := by
    rintro n ⟨sig, hsig, hwanted⟩
    have hknown := (hmade.written n sig hsig).known
    refine (hshaped.signatures n sig hsig).defined ?_ ?_ <;> intro hdeclares <;>
      simp [Signature.isWanted, hdeclares, hknown (by rw [hdeclares]; rfl)] at hwanted

theorem tidy_of_quantity {M L : String → Prop} {e : Expr} (h : e.Quantity tokens) :
    ∀ x ∈ e.nodes, (∀ n, x.target? = some n → M n) → (∀ n ∈ x.binders, L n) →
      Typing.Tidy M L x := by
  rcases h with h | ⟨v, rfl⟩
  · induction h with
    | literal _ hv =>
      intro x hx htarget hbinders
      rw [mem_singleton.1 hx] at htarget hbinders ⊢
      exact ⟨fun _ h => Option.some.inj h ▸ hv, nofun, htarget, hbinders⟩
    | name _ =>
      intro x hx htarget hbinders
      rw [mem_singleton.1 hx] at htarget hbinders ⊢
      exact ⟨nofun, nofun, htarget, hbinders⟩
    | operator _ htakes _ ih =>
      refine forall_mem_append.2 ⟨Expr.forall_nodesOf_iff.2 ih, ?_⟩
      refine forall_mem_singleton.2 fun htarget hbinders => ⟨nofun, ?_, htarget, hbinders⟩
      intro info op operands heq
      cases heq
      exact htakes
  · intro x hx htarget hbinders
    rw [mem_singleton.1 hx] at htarget hbinders ⊢
    exact ⟨fun _ h => Option.some.inj h ▸ rfl, nofun, htarget, hbinders⟩

theorem Shaped.tidy (hp : p.Shaped tokens) :
    ∀ x ∈ p.allNodes, Typing.Tidy (· ∈ p.mentions) (· ∈ p.locals) x := by
  intro x hx
  refine Typing.forall_nodes_of_shaped (Q := fun x => (∀ n, x.target? = some n → n ∈ p.mentions) →
    (∀ n ∈ x.binders, n ∈ p.locals) → Typing.Tidy _ _ x) (fun e => tidy_of_quantity) hp x hx
    (fun n hn => ?_) (fun n hn => ?_)
  · exact mem_append_left _ (mem_append_right _ (mem_filterMap.2 ⟨x, hx, hn⟩))
  · exact mem_append_right _ (mem_flatMap.2 ⟨x, hx, hn⟩)

theorem Spells.signatureTyped (hc : p.Spells f c) (hmade : p.WellMade tokens) {n : String}
    {sig : Signature} (hsig : p.signatures.get? n = some sig) :
    Typing.SignatureTyped (fun u => u.rename (p.newNames f) = u.rename c) n sig := by
  refine hmade.signatureTyped (fun m hm => ?_) (fun m hm => ?_) hsig
  · have hname : (p.newNames f).name m = c.name m :=
      (newNames_name hm).trans (hc.declared m hm).symm
    exact ⟨congrArg Ty.function hname, congrArg Ty.action hname⟩
  · refine congrArg Ty.user (hc.type m (hm.imp_left fun henum => ?_)).symm
    obtain ⟨sig, hget, hdeclares⟩ := (hmade.enumerates m).1 henum
    simpa [declaresEnum, hget] using hdeclares

theorem rename_eq_of_signatureTyped {r r' : Renaming} {sig : Signature}
    (h : Typing.SignatureTyped (fun u => u.rename r = u.rename r') n sig) :
    sig.rename r = sig.rename r' := by
  have hparams : ∀ q ∈ sig.paramList, q.rename r = q.rename r' := fun q hq =>
    congrArg (fun t => { q with ty := t }) (Ty.rename_eq_of_over (h.params q hq))
  have hname : r.name sig.name = r'.name sig.name := Ty.action.inj h.action
  unfold Signature.rename
  rw [hname, Ty.rename_eq_of_over h.ty]
  cases hsome : sig.params with
  | none => rfl
  | some params =>
    have hlist : sig.paramList = params := by simp [Signature.paramList, hsome]
    rw [hlist] at hparams
    rw [map_some, map_some, map_congr_left hparams]

end Program

namespace Typing

variable {tokens : List Token} {p : Program} {f : String → String} {c : Respelling}

/-- The definitions of a program under new names are alike to what they were. -/
theorem alikeDefinitions_rename (hmade : p.WellMade tokens) (hshaped : p.Shaped tokens)
    (hf : p.Renames f) (hc : p.Spells f c) : AlikeDefinitions c p.Precedes p (p.rename f) where
  signatures n := by
    change (p.signatures.rekey f _).get? (c.name n) = _
    rw [get?_rekey hc.declared]
    cases hsig : p.signatures.get? n with
    | none => rfl
    | some sig =>
      exact congrArg some (rename_eq_of_signatureTyped (hc.signatureTyped hmade hsig))
  identifiers n := by
    change Option.Rel _ _ ((p.identifiers.rekey f _).get? (c.name n))
    rw [get?_rekey fun m hm => hc.declared m (hshaped.signed m hm)]
    cases he : p.identifiers.get? n with
    | none => exact .none
    | some e =>
      have hmem : (n, e) ∈ p.identifiers.entries := get?_eq_some_iff.1 he
      have hbefore : ∀ m ∈ e.references (p.paramNames n) (p.paramNames n) ++
          e.nodes.filterMap Expr.target?, p.Before p.Precedes n m := by
        intro m hm hwanted
        by_cases hself : m = n
        · exact .inl hself
        · exact .inr ⟨.single ⟨hwanted, e, he, hm⟩, hself⟩
      have htidy : AllTidy (fun m => m ∈ p.mentions ∧ p.Before p.Precedes n m) (· ∈ p.locals) e := by
        intro x hx
        have hall : x ∈ p.allNodes := mem_append_left _ (mem_append_left _
          (mem_flatMap.2 ⟨(n, e), hmem, hx⟩))
        have hx' := hshaped.tidy x hall
        refine { hx' with target := fun m hm => ⟨hx'.target m hm, hbefore m ?_⟩ }
        exact mem_append_right _ (mem_filterMap.2 ⟨x, hx, hm⟩)
      have hparams : ∀ m ∈ p.paramNames n, m ∈ p.locals := fun m hm =>
        mem_locals_of_mem_paramNames hm
      refine .some ((alike_rename (hf.realizes hc) (fun m hm => ⟨hc.mentioned m hm.1, hm.2⟩) e
        htidy).1 _ _ (fun m hm => ⟨?_, hbefore m (mem_append_left _ hm)⟩) hparams hparams)
      have href : m ∈ p.references := by
        simp only [references, mem_append]
        exact .inl (.inl (.inl (.inl (mem_flatMap.2 ⟨(n, e), hmem, hm⟩))))
      exact mem_append_left _ (mem_append_left _ href)
  enum n := by
    rw [hc.enum]
    simp [declaresEnum, Option.any_eq_true]
  type n hn := by
    rw [hc.enum] at hn
    rw [hc.type n (.inl hn), hc.declared n (contains_of_declaresEnum hn)]
    exact if_pos hn

theorem renameAll_eq_map (r : Renaming) (time : Bool) (b : List String) (es : List Expr) :
    Expr.renameAll r time b es = es.map (Expr.rename r time b b) := by
  induction es with
  | nil => rfl
  | cons e es ih => exact congrArg _ ih

/-- The parts of a program outside of its definitions are under new names alike to what they
were. -/
theorem alikeParts_rename (hshaped : p.Shaped tokens) (hf : p.Renames f) (hc : p.Spells f c) :
    AlikeParts c p (p.rename f) := by
  have hr := hf.realizes hc
  have hM := hc.mentioned
  obtain ⟨hmentions, hacts⟩ := forall_mem_append.1 (fun n (hn : n ∈ p.mentions) => hn)
  obtain ⟨hrefs, -⟩ := forall_mem_append.1 hmentions
  obtain ⟨hrefs, hrefsDisplay⟩ := forall_mem_append.1 hrefs
  obtain ⟨hrefs, hrefsTicker⟩ := forall_mem_append.1 hrefs
  obtain ⟨hrefs, hrefsEntries⟩ := forall_mem_append.1 hrefs
  obtain ⟨-, hrefsActions⟩ := forall_mem_append.1 hrefs
  obtain ⟨htidy, htidyNodes⟩ := forall_mem_append.1 hshaped.tidy
  obtain ⟨-, htidyInterval⟩ := forall_mem_append.1 htidy
  obtain ⟨htidyNodes, htidyDisplay⟩ := forall_mem_append.1 htidyNodes
  obtain ⟨htidyNodes, htidyTicker⟩ := forall_mem_append.1 htidyNodes
  obtain ⟨htidyActions, htidyEntries⟩ := forall_mem_append.1 htidyNodes
  have htargets : ∀ a ∈ p.actionList, ∀ n ∈ a.targets, n ∈ p.mentions := fun a ha n hn =>
    hacts n (mem_flatMap.2 ⟨a, ha, hn⟩)
  constructor
  case actions =>
    intro n
    change Option.Rel _ _ ((p.actions.rekey f _).get? (c.name n))
    rw [get?_rekey fun m hm => hc.declared m (hshaped.actionSigned m hm)]
    cases ha : p.actions.get? n with
    | none => exact .none
    | some a =>
      have hmem : (n, a) ∈ p.actions.entries := get?_eq_some_iff.1 ha
      refine .some (alikeAction_rename hr hM
        (fun m hm => mem_locals_of_mem_paramNames hm) a (fun x hx => ?_) (fun m hm => ?_)
        (htargets a ?_))
      · exact htidyActions x (mem_flatMap.2 ⟨(n, a), hmem, hx⟩)
      · exact hrefsActions m (mem_flatMap.2 ⟨(n, a), hmem, hm⟩)
      · exact mem_append_left _ (mem_append_left _ (List.mem_map_of_mem (f := (·.2)) hmem))
  case entries =>
    change Option.Rel _ p.entries (p.entries.map _)
    cases hes : p.entries with
    | none => exact .none
    | some es =>
      rw [hes] at hrefsEntries htidyEntries
      rw [map_some, renameAll_eq_map]
      refine .some (forall₂_map_right_iff.2 (forall₂_same.2 fun e he => ?_))
      refine alikeTop_rename hr hM (fun x hx => ?_) (fun n hn => ?_)
      · exact htidyEntries x (mem_flatMap.2 ⟨e, he, hx⟩)
      · exact hrefsEntries n (references_subset he n hn)
  case ticker =>
    change Option.Rel _ p.ticker (p.ticker.map _)
    cases ht : p.ticker with
    | none => exact .none
    | some t =>
      rw [ht] at hrefsTicker htidyTicker htidyInterval
      obtain ⟨hrefsInterval, hrefsAction⟩ := forall_mem_append.1 hrefsTicker
      refine .some ⟨?_, alikeAction_rename hr hM (forall_mem_nil _) t.action htidyTicker
        hrefsAction (htargets _ ?_)⟩
      · change Option.Rel _ t.interval (t.interval.map _)
        cases hinterval : t.interval with
        | none => exact .none
        | some e =>
          simp only [bind_some, hinterval] at htidyInterval hrefsInterval
          refine .some (alikeTop_rename hr hM htidyInterval fun n hn => ?_)
          exact hrefsInterval n (references_subset (mem_singleton_self e) n hn)
      · simp [actionList, ht]
  case display =>
    change Option.Rel _ p.display (p.display.map _)
    cases hes : p.display with
    | none => exact .none
    | some es =>
      rw [hes] at hrefsDisplay htidyDisplay
      refine .some (forall₂_map_right_iff.2 (forall₂_same.2 fun e he => ?_))
      refine alikeElement_rename hr hM (fun x hx => ?_) (fun n hn => ?_) (fun a ha => htargets a ?_)
      · exact htidyDisplay x (mem_flatMap.2 ⟨e, he, hx⟩)
      · exact hrefsDisplay n (mem_flatMap.2 ⟨e, he, hn⟩)
      · refine mem_append_right _ (mem_filterMap.2 ⟨e, ?_, ha⟩)
        rw [hes]
        exact he

end Typing

namespace Program

variable {tokens : List Token} {p : Program} {f : String → String}

theorem Spells.signatures_eq (hc : p.Spells f c) (hmade : p.WellMade tokens)
    (hshaped : p.Shaped tokens) {q q' : Program} (hq : p.analyze.outcome = .ok q)
    (h : ∀ n, q'.signatures.get? (c.name n) =
      (q.signatures.get? n).map (Signature.rename c)) :
    q'.signatures = q.signatures.rekey f fun _ => Signature.rename (p.newNames f) := by
  obtain ⟨⟨s, hgrows, htyped, hsame, -⟩, -⟩ := Typing.typed_of_analyze
    (L := ⟨True, fun _ => True, fun _ => True⟩) hshaped (fun _ _ => trivial)
    (fun n sig hsig => hc.signatureTyped hmade hsig) hq
  have hdeclared : ∀ n, q.signatures.contains n = true → c.name n = f n := by
    intro n hn
    have hstatic := congrArg Option.isSome (hgrows.progress.static n)
    rw [isSome_map, isSome_map] at hstatic
    rw [hsame] at hn
    exact hc.declared n (hstatic.symm.trans hn)
  refine eq_of_get?_eq fun n' => ?_
  obtain ⟨n, rfl⟩ := c.name.surjective n'
  rw [h, get?_rekey hdeclared]
  cases hsig : q.signatures.get? n with
  | none => rfl
  | some sig =>
    exact congrArg some (rename_eq_of_signatureTyped (htyped.signature n sig (hsame ▸ hsig))).symm

/-- If no two different names of a program ask for each other, new names for its top level decide
neither whether it is accepted nor, but for the names, what its signatures become. -/
theorem analyze_rename (hparse : Program.parse tokens = .ok p) (hf : p.Renames f)
    (hunentangled : p.Unentangled) :
    ((∃ q, p.analyze.outcome = .ok q) ↔ ∃ q', (p.rename f).analyze.outcome = .ok q') ∧
    ∀ q q', p.analyze.outcome = .ok q → (p.rename f).analyze.outcome = .ok q' →
      q'.signatures = q.signatures.rekey f fun _ => Signature.rename (p.newNames f) := by
  have hmade := wellMade_of_parse hparse
  have hshaped := shaped_of_parse hparse
  have hground := hmade.grounded hshaped
  have horder := hunentangled.isStrictOrder
  obtain ⟨c, hc⟩ := hf.exists_spells
  have halike := Typing.alikeDefinitions_rename hmade hshaped hf hc
  have hparts := Typing.alikeParts_rename hshaped hf hc
  refine ⟨⟨?_, ?_⟩, ?_⟩
  · rintro ⟨q, hq⟩
    obtain ⟨q', hq', -⟩ := Typing.analyze_of_alike hground halike hparts hq
    exact ⟨q', hq'⟩
  · rintro ⟨q', hq'⟩
    have horder' : IsStrictOrder String fun n m => p.Precedes (c.name.symm n) (c.name.symm m) :=
      inferInstanceAs (IsStrictOrder String (Order.Preimage c.name.symm p.Precedes))
    obtain ⟨q, hq, -⟩ := Typing.analyze_of_alike (halike.grounded hground) halike.symm
      (halike.symm_parts hparts) hq'
    exact ⟨q, hq⟩
  · intro q q' hq hq'
    obtain ⟨q₁, hq₁, hsignatures⟩ := Typing.analyze_of_alike hground halike hparts hq
    cases hq'.symm.trans hq₁
    exact hc.signatures_eq hmade hshaped hq hsignatures

/-- A variable and a definition change places, and an enumeration gets another name.  One
definition asks for itself. -/
theorem analyze_rename_shuffled :
    let tokens := Token.ofText "enum Dir \x7b Up \x7d var z: real = 1; let f(x: real) = f(x);
      let b = [y for y in [z]]; let a = b; let d = Dir.Up; let g(e: Dir) = e;
      ticker (1) \x7b z := z + dt \x7d"
    let f := fun n =>
      if n = "a" then "z" else if n = "z" then "a" else if n = "Dir" then "Turn" else n
    ∃ p q q', parse tokens = .ok p ∧ p.Renames f ∧ p.Unentangled ∧
      p.analyze.outcome = .ok q ∧ (p.rename f).analyze.outcome = .ok q' ∧
      q.signatures.entries.map (fun e => (e.1, e.2.ty)) =
        [("Dir", .user "Dir"), ("a", .list .real), ("b", .list .real), ("d", .user "Dir"),
          ("f", .unknown), ("g", .user "Dir"), ("z", .real)] ∧
      q'.signatures.entries.map (fun e => (e.1, e.2.ty)) =
        [("Turn", .user "Turn"), ("a", .real), ("b", .list .real), ("d", .user "Turn"),
          ("f", .unknown), ("g", .user "Turn"), ("z", .list .real)] ∧
      q'.signatures = q.signatures.rekey f fun _ => Signature.rename (p.newNames f) := by
  intro tokens f
  obtain ⟨p, hp, q, hq, q', hq', hf, hranked, htypes, htypes'⟩ : ∃ p, parse tokens = .ok p ∧
      ∃ q, p.analyze.outcome = .ok q ∧ ∃ q', (p.rename f).analyze.outcome = .ok q' ∧
        p.Renames f ∧ p.Ranked (fun n => ["z", "b", "a"].idxOf n) ∧
        q.signatures.entries.map (fun e => (e.1, e.2.ty)) =
          [("Dir", .user "Dir"), ("a", .list .real), ("b", .list .real), ("d", .user "Dir"),
            ("f", .unknown), ("g", .user "Dir"), ("z", .real)] ∧
        q'.signatures.entries.map (fun e => (e.1, e.2.ty)) =
          [("Turn", .user "Turn"), ("a", .real), ("b", .list .real), ("d", .user "Turn"),
            ("f", .unknown), ("g", .user "Turn"), ("z", .list .real)] := by decide +kernel
  have hunentangled := hranked.unentangled
  exact ⟨p, q, q', hp, hf, hunentangled, hq, hq', htypes, htypes',
    (analyze_rename hp hf hunentangled).2 q q' hq hq'⟩

/-- Two definitions ask for each other.  Whether a third one is accepted depends on which of the
two comes first in the alphabet. -/
theorem rename_entangled :
    let tokens := Token.ofText "let z = [b]; let b = z; let c = [b];"
    let f := fun n => if n = "z" then "a" else n
    ∃ p q', parse tokens = .ok p ∧ p.Renames f ∧ (∀ q, p.analyze.outcome ≠ .ok q) ∧
      (p.rename f).analyze.outcome = .ok q' ∧
      q'.signatures.entries.map (fun e => (e.1, e.2.ty)) =
        [("a", .list .unknown), ("b", .unknown), ("c", .list .unknown)] := by
  intro tokens f
  obtain ⟨p, hp, q', hq', hf, hnone, htypes⟩ : ∃ p, parse tokens = .ok p ∧
      ∃ q', (p.rename f).analyze.outcome = .ok q' ∧ p.Renames f ∧
        p.analyze.outcome.toOption.isNone = true ∧
        q'.signatures.entries.map (fun e => (e.1, e.2.ty)) =
          [("a", .list .unknown), ("b", .unknown), ("c", .list .unknown)] := by
    decide +kernel
  refine ⟨p, q', hp, hf, fun q hq => ?_, hq', htypes⟩
  rw [hq] at hnone
  cases hnone

-- A name that is mentioned and not declared is taken: a new name would declare it.
example : ((parse (Token.ofText "let a = b; let c = 1;")).toOption.map fun p =>
    (p.analyze.outcome.toOption.isSome,
      (p.rename fun n => if n = "c" then "b" else n).analyze.outcome.toOption.isSome)) =
    some (false, true) := by decide +kernel

end Program

end Diagram
