/-!
# Maps from names

A finite map from names, kept as a list of entries in strictly increasing order of the
names.  Two maps with the same entries are therefore equal, and every walk over a map is
in the order of the names.

Main statements: `get?_insert_self`, `get?_insert_of_ne`.
-/

namespace Diagram

/-- A finite map from names. -/
structure NameMap (α : Type) where
  entries : List (String × α)
  sorted : entries.Pairwise fun a b => a.1 < b.1
deriving Repr

namespace NameMap

variable {α β : Type}

def empty : NameMap α := ⟨[], .nil⟩

instance : Inhabited (NameMap α) := ⟨empty⟩

def get? (m : NameMap α) (name : String) : Option α :=
  (m.entries.find? (·.1 == name)).map (·.2)

def contains (m : NameMap α) (name : String) : Bool :=
  (m.get? name).isSome

/-- The names, in increasing order. -/
def names (m : NameMap α) : List String :=
  m.entries.map (·.1)

def size (m : NameMap α) : Nat :=
  m.entries.length

/-- Puts a value in its place among entries, instead of an earlier value of the same name. -/
def insertEntry (name : String) (v : α) : List (String × α) → List (String × α)
  | [] => [(name, v)]
  | (n, w) :: rest =>
    if name < n then (name, v) :: (n, w) :: rest
    else if name = n then (name, v) :: rest
    else (n, w) :: insertEntry name v rest

theorem mem_insertEntry {name : String} {v : α} {entries : List (String × α)}
    {e : String × α} (h : e ∈ insertEntry name v entries) : e = (name, v) ∨ e ∈ entries := by
  induction entries with
  | nil => exact .inl (by simpa [insertEntry] using h)
  | cons head rest ih =>
    obtain ⟨n, w⟩ := head
    unfold insertEntry at h
    split at h
    · rcases List.mem_cons.1 h with h | h
      · exact .inl h
      · exact .inr h
    · split at h
      · rcases List.mem_cons.1 h with h | h
        · exact .inl h
        · exact .inr (List.mem_cons_of_mem _ h)
      · rcases List.mem_cons.1 h with h | h
        · exact .inr (h ▸ List.mem_cons_self)
        · exact (ih h).imp_right (List.mem_cons_of_mem _)

theorem insertEntry_sorted {name : String} {v : α} {entries : List (String × α)}
    (h : entries.Pairwise fun a b => a.1 < b.1) :
    (insertEntry name v entries).Pairwise fun a b => a.1 < b.1 := by
  induction entries with
  | nil => exact List.pairwise_singleton _ _
  | cons head rest ih =>
    obtain ⟨n, w⟩ := head
    obtain ⟨hhead, hrest⟩ := List.pairwise_cons.1 h
    unfold insertEntry
    split
    case isTrue hlt =>
      refine List.pairwise_cons.2 ⟨fun e he => ?_, h⟩
      rcases List.mem_cons.1 he with rfl | he
      · exact hlt
      · exact String.lt_trans hlt (hhead e he)
    case isFalse hge =>
      split
      case isTrue heq =>
        subst heq
        exact List.pairwise_cons.2 ⟨hhead, hrest⟩
      case isFalse hne =>
        refine List.pairwise_cons.2 ⟨fun e he => ?_, ih hrest⟩
        rcases mem_insertEntry he with rfl | he
        · exact Std.lt_of_le_of_ne (String.not_lt.1 hge) (Ne.symm hne)
        · exact hhead e he

/-- Gives a name a value, instead of an earlier one. -/
def insert (m : NameMap α) (name : String) (v : α) : NameMap α :=
  ⟨insertEntry name v m.entries, insertEntry_sorted m.sorted⟩

def erase (m : NameMap α) (name : String) : NameMap α :=
  ⟨m.entries.filter (·.1 != name), m.sorted.filter _⟩

def map (f : α → β) (m : NameMap α) : NameMap β :=
  ⟨m.entries.map fun e => (e.1, f e.2), by
    rw [List.pairwise_map]
    exact m.sorted⟩

/-- A map from a list of entries, of which a later one replaces an earlier one. -/
def ofList (entries : List (String × α)) : NameMap α :=
  entries.foldl (fun m e => m.insert e.1 e.2) empty

/-- Replaces every value in the order of the names, with an effect. -/
def mapM {m : Type → Type} [Monad m] (f : String → α → m β) (t : NameMap α) : m (NameMap β) := do
  return ofList (← t.entries.mapM fun e => return (e.1, ← f e.1 e.2))

theorem find?_insertEntry_self (name : String) (v : α) (entries : List (String × α)) :
    (insertEntry name v entries).find? (·.1 == name) = some (name, v) := by
  induction entries with
  | nil => simp [insertEntry]
  | cons head rest ih =>
    obtain ⟨n, w⟩ := head
    unfold insertEntry
    split
    · simp
    · split
      · simp
      · rename_i hne
        simp [Ne.symm hne, ih]

theorem find?_insertEntry_of_ne {name other : String} (v : α) (entries : List (String × α))
    (h : other ≠ name) :
    (insertEntry name v entries).find? (·.1 == other) = entries.find? (·.1 == other) := by
  have hother : (name == other) = false := beq_false_of_ne (Ne.symm h)
  induction entries with
  | nil => simp [insertEntry, hother]
  | cons head rest ih =>
    obtain ⟨n, w⟩ := head
    unfold insertEntry
    split
    · simp [List.find?_cons, hother]
    · split
      · rename_i heq
        subst heq
        simp [hother]
      · simp [List.find?_cons, ih]

@[simp] theorem get?_insert_self (m : NameMap α) (name : String) (v : α) :
    (m.insert name v).get? name = some v := by
  simp [get?, insert, find?_insertEntry_self]

theorem get?_insert_of_ne (m : NameMap α) {name other : String} (v : α) (h : other ≠ name) :
    (m.insert name v).get? other = m.get? other := by
  simp [get?, insert, find?_insertEntry_of_ne v m.entries h]

end NameMap

end Diagram
