import Diagram.NameMap
import Mathlib.Data.List.Forall2

/-!
# Laws of maps from names

A name has at most one entry.  A new value for a name leaves all other names alone, and a name
that has a value already stays in its place.

Main statements: `get?_eq_some_iff`, `get?_insert`, `names_insert`, `entries_ofList`.
-/

namespace Diagram.NameMap

open List Option

variable {α : Type} {name : String} {v : α} {entries : List (String × α)} {m m' : NameMap α}

theorem find?_eq_some_of_mem (hsorted : entries.Pairwise fun a b => a.1 < b.1)
    (h : (name, v) ∈ entries) : entries.find? (·.1 == name) = some (name, v) := by
  induction entries with
  | nil => cases h
  | cons head rest ih =>
    obtain ⟨hhead, hrest⟩ := pairwise_cons.1 hsorted
    rcases mem_cons.1 h with rfl | hmem
    · simp
    · have hlt : head.1 < name := hhead _ hmem
      have hne : head.1 ≠ name := by
        intro heq
        exact String.lt_irrefl _ (heq ▸ hlt)
      rw [find?_cons_of_neg (by simpa using hne)]
      exact ih hrest hmem

theorem get?_eq_some_iff : m.get? name = some v ↔ (name, v) ∈ m.entries := by
  constructor
  · intro h
    obtain ⟨⟨n, w⟩, hfind, rfl⟩ := map_eq_some_iff.1 h
    obtain rfl : n = name := by simpa using find?_some hfind
    exact mem_of_find?_eq_some hfind
  · intro h
    simp [get?, find?_eq_some_of_mem m.sorted h]

theorem get?_insert (m : NameMap α) (name other : String) (v : α) :
    (m.insert name v).get? other = if other = name then some v else m.get? other := by
  by_cases h : other = name
  · subst h
    simp
  · rw [if_neg h, get?_insert_of_ne m v h]

theorem forall_get?_insert {P : String → α → Prop} (h : ∀ n w, m.get? n = some w → P n w)
    (hv : P name v) (n : String) (w : α) (hget : (m.insert name v).get? n = some w) : P n w := by
  rw [get?_insert] at hget
  split at hget
  case isTrue heq =>
    cases hget
    exact heq ▸ hv
  case isFalse => exact h n w hget

theorem contains_insert (m : NameMap α) (name other : String) (v : α) :
    (m.insert name v).contains other = (decide (other = name) || m.contains other) := by
  unfold contains
  rw [get?_insert]
  by_cases h : other = name <;> simp [h]

theorem contains_insert_of_contains {other : String} (v : α) (h : m.contains other) :
    (m.insert name v).contains other := by
  simp [contains_insert, h]

theorem contains_eq_true_iff : m.contains name ↔ ∃ v, m.get? name = some v := by
  simp [contains, isSome_iff_exists]

theorem mem_names_iff : name ∈ m.names ↔ m.contains name := by
  simp only [names, List.mem_map, contains_eq_true_iff, get?_eq_some_iff, Prod.exists]
  constructor
  · rintro ⟨n, v, hmem, rfl⟩
    exact ⟨v, hmem⟩
  · rintro ⟨v, hmem⟩
    exact ⟨name, v, hmem, rfl⟩

theorem nodup_names (m : NameMap α) : m.names.Nodup := by
  have hsorted : m.names.Pairwise (· < ·) := pairwise_map.2 m.sorted
  refine hsorted.imp fun hlt heq => ?_
  subst heq
  exact String.lt_irrefl _ hlt

theorem map_fst_insertEntry (hsorted : entries.Pairwise fun a b => a.1 < b.1)
    (h : name ∈ entries.map (·.1)) :
    (insertEntry name v entries).map (·.1) = entries.map (·.1) := by
  induction entries with
  | nil => cases h
  | cons head rest ih =>
    obtain ⟨n, w⟩ := head
    obtain ⟨hhead, hrest⟩ := pairwise_cons.1 hsorted
    have hcases : name = n ∨ name ∈ rest.map (·.1) := by simpa using h
    rcases hcases with rfl | hmem
    · simp [insertEntry]
    · -- A name further on is greater than the first one.
      have hlt : n < name := by
        obtain ⟨e, he, rfl⟩ := List.mem_map.1 hmem
        exact hhead e he
      have hge : ¬name < n := fun hlt' => String.lt_irrefl _ (String.lt_trans hlt hlt')
      have hne : name ≠ n := by
        rintro rfl
        exact String.lt_irrefl _ hlt
      simp only [insertEntry, if_neg hge, if_neg hne, map_cons, ih hrest hmem]

theorem names_insert (h : m.contains name) (v : α) : (m.insert name v).names = m.names :=
  map_fst_insertEntry m.sorted (mem_names_iff.2 h)

theorem mem_entries_ofList {e : String × α} (h : e ∈ (ofList entries).entries) : e ∈ entries := by
  suffices hfold : ∀ (es : List (String × α)) (m : NameMap α),
      e ∈ (es.foldl (fun m e => m.insert e.1 e.2) m).entries → e ∈ m.entries ∨ e ∈ es by
    rcases hfold entries empty h with hempty | hmem
    · cases hempty
    · exact hmem
  intro es
  induction es with
  | nil => exact fun m hm => .inl hm
  | cons f fs ih =>
    intro m hm
    rcases ih (m.insert f.1 f.2) hm with hinsert | hfs
    · rcases mem_insertEntry hinsert with rfl | hold
      · exact .inr mem_cons_self
      · exact .inl hold
    · exact .inr (mem_cons_of_mem _ hfs)

theorem insertEntry_of_lt (h : ∀ e ∈ entries, e.1 < name) :
    insertEntry name v entries = entries ++ [(name, v)] := by
  induction entries with
  | nil => rfl
  | cons head rest ih =>
    obtain ⟨n, w⟩ := head
    obtain ⟨hhead, hrest⟩ := forall_mem_cons.1 h
    have hge : ¬name < n := fun hlt => String.lt_irrefl _ (String.lt_trans hhead hlt)
    have hne : name ≠ n := by
      rintro rfl
      exact String.lt_irrefl _ hhead
    simp only [insertEntry, if_neg hge, if_neg hne, ih hrest, cons_append]

/-- Entries in increasing order are the entries of their map. -/
theorem entries_ofList (h : entries.Pairwise fun a b => a.1 < b.1) :
    (ofList entries).entries = entries := by
  suffices hfold : ∀ (es : List (String × α)) (m : NameMap α),
      (m.entries ++ es).Pairwise (fun a b => a.1 < b.1) →
      (es.foldl (fun m e => m.insert e.1 e.2) m).entries = m.entries ++ es by
    exact hfold entries empty h
  intro es
  induction es with
  | nil => exact fun m _ => (append_nil m.entries).symm
  | cons e es ih =>
    intro m hm
    have hlt : ∀ a ∈ m.entries, a.1 < e.1 := fun a ha =>
      (pairwise_append.1 hm).2.2 a ha e (by simp)
    have hinsert : (m.insert e.1 e.2).entries = m.entries ++ [e] := insertEntry_of_lt hlt
    rw [foldl_cons, ih (m.insert e.1 e.2) (by simpa [hinsert] using hm), hinsert]
    simp

theorem eq_of_entries_eq (h : m.entries = m'.entries) : m = m' := by
  cases m'
  cases h
  rfl

/-- Maps that give every name the same value are the same. -/
theorem eq_of_get?_eq (h : ∀ n, m.get? n = m'.get? n) : m = m' := by
  have hnodup : ∀ m : NameMap α, m.entries.Nodup := fun m => m.sorted.imp fun {a b} hlt heq => by
    rw [heq] at hlt
    exact String.lt_irrefl _ hlt
  have hmem : ∀ e, e ∈ m.entries ↔ e ∈ m'.entries := fun e => by
    rw [← get?_eq_some_iff, ← get?_eq_some_iff, h]
  have hperm := (perm_ext_iff_of_nodup (hnodup m) (hnodup m')).2 hmem
  refine eq_of_entries_eq (hperm.eq_of_pairwise (fun a b _ _ hab hba => ?_) m.sorted m'.sorted)
  exact absurd (String.lt_trans hab hba) (String.lt_irrefl _)

theorem insert_of_get? (h : m.get? name = some v) : m.insert name v = m := by
  refine eq_of_get?_eq fun n => ?_
  rw [get?_insert]
  split
  · rename_i heq
    rw [heq, h]
  · rfl

/-- Values of different names can be given in either order. -/
theorem insert_comm (m : NameMap α) {name' : String} (hne : name ≠ name') (v v' : α) :
    (m.insert name v).insert name' v' = (m.insert name' v').insert name v := by
  refine eq_of_get?_eq fun n => ?_
  simp only [get?_insert]
  by_cases hn : n = name
  · subst hn
    simp [hne]
  · simp [hn]

variable {β : Type}

@[simp] theorem get?_map (f : α → β) (m : NameMap α) (name : String) :
    (m.map f).get? name = (m.get? name).map f := by
  simp only [get?, map, find?_map, Option.map_map]
  rfl

theorem contains_map (f : α → β) (m : NameMap α) (name : String) :
    (m.map f).contains name = m.contains name := by
  rw [contains, get?_map, isSome_map, contains]

theorem map_insert (f : α → β) (m : NameMap α) (name : String) (v : α) :
    (m.insert name v).map f = (m.map f).insert name (f v) := by
  refine eq_of_get?_eq fun n => ?_
  simp only [get?_map, get?_insert]
  split <;> rfl

/-- The relation of maps of the same names whose values are related. -/
def Rel (Q : String → α → β → Prop) (m : NameMap α) (m' : NameMap β) : Prop :=
  Forall₂ (fun e e' => e'.1 = e.1 ∧ Q e.1 e.2 e'.2) m.entries m'.entries

theorem sorted_of_forall₂ {entries' : List (String × β)}
    (hsorted : entries.Pairwise fun a b => a.1 < b.1)
    (h : Forall₂ (fun e e' => e'.1 = e.1) entries entries') :
    entries'.Pairwise fun a b => a.1 < b.1 := by
  have hnames : entries'.map (·.1) = entries.map (·.1) := by
    induction h with
    | nil => rfl
    | cons hhead _ ih => simp [hhead, ih (pairwise_cons.1 hsorted).2]
  rw [← pairwise_map] at hsorted ⊢
  rw [hnames]
  exact hsorted

end Diagram.NameMap
