import Diagram.Document.OfProgram
import Diagram.Proofs.Parser.Extended
import Diagram.Proofs.Program.Judged
import Diagram.Proofs.Typing.Derivation

/-!
# The order of the items of a program

Items are read alike whatever follows them, and two items can be added to a program in either
order, or in none.  So a program depends on its items only, and so does all that is made of it.

Main statements: `seals_itemAlone`, `parse_eq_ok_iff`, `Item.add?_comm`, `Program.encoded?_perm`.
-/

namespace Diagram

open List Option

namespace Parser

section Items

-- Instances are found along whole parsers.
set_option synthInstance.maxSize 10000

instance : Extends blockOpen blockOpen := by
  unfold blockOpen
  infer_instance

variable {α : Type}

instance {item : Parser α} [Extends item item] : Seals (blockItems item) (blockItems item) := by
  unfold blockItems
  infer_instance

instance : Extends param param := by
  unfold param
  infer_instance

instance : Extends params params := by
  unfold params
  infer_instance

instance : Extends nameToken nameToken := by
  unfold nameToken
  infer_instance

instance : Extends declaredTy declaredTy := by
  unfold declaredTy
  infer_instance

instance : Seals definition definition := by
  have hvalue := extends_expr (.ofSymbols [.semicolon]) rfl
  unfold definition
  infer_instance

instance : Seals tickerItem tickerItem := by
  have hinterval := extends_expr (.ofSymbols [.parenRight]) rfl
  unfold tickerItem
  infer_instance

instance : Seals actionItem actionItem := by
  unfold actionItem
  infer_instance

instance (declares : Declares) : Seals (valueItem declares) (valueItem declares) := by
  unfold valueItem
  infer_instance

instance : Seals varItem varItem := by
  unfold varItem
  infer_instance

instance : Seals enumItem enumItem := by
  unfold enumItem variant
  infer_instance

instance : Seals entriesItem entriesItem := by
  have hentry := extends_expr (.ofSymbols [.semicolon, .curlyRight]) rfl
  unfold entriesItem
  infer_instance

instance : Seals displayItem displayItem := by
  unfold displayItem
  infer_instance

variable {missing : Cause}

theorem seals_token {f f' : Token → Parser α}
    (h : ∀ t, Seals (token missing >>= fun _ => f t) (token missing >>= fun _ => f' t)) :
    Seals (token missing >>= f) (token missing >>= f') where
  run ts last a d hrun := by
    obtain ⟨t, c, htoken, hrest⟩ := run_bind_eq_ok.1 hrun
    obtain ⟨rfl, us, rfl⟩ := run_token_eq_ok.1 htoken
    exact (h t).run (run_bind_eq_ok.2 ⟨t, _, htoken, hrest⟩)

instance : Stops (token missing) where
  rest_ne_nil c t d h := by
    obtain ⟨rfl, ts, hts⟩ := run_token_eq_ok.1 h
    simp [hts]

/-- An item is read alike whatever follows it. -/
theorem seals_itemAlone : Seals itemAlone itemAlone := by
  refine @seals_bind _ _ _ _ _ _ inferInstance fun _ => seals_token fun t => ?_
  split <;> infer_instance

end Items

/-- Tokens that are read as items, whatever follows them. -/
inductive ItemsReading : List Token → List Item → Prop
  | nil : ItemsReading [] []
  | cons {us vs i is} (htaken : us ≠ [])
      (hitem : ∀ more last, itemAlone.run ⟨us ++ vs ++ more, last⟩ = .ok i ⟨vs ++ more, last⟩)
      (hrest : ItemsReading vs is) : ItemsReading (us ++ vs) (i :: is)

variable {ts : List Token} {is : List Item} {fuel : Nat} {p q : Program} {last : Option Location}

theorem ItemsReading.append {ts' : List Token} {is' : List Item} (h : ItemsReading ts is)
    (h' : ItemsReading ts' is') : ItemsReading (ts ++ ts') (is ++ is') := by
  induction h with
  | nil => exact h'
  | cons htaken hitem _ ih =>
    rw [append_assoc]
    refine .cons htaken (fun more last => ?_) ih
    have hmore := hitem (ts' ++ more) last
    simpa only [append_assoc] using hmore

theorem run_items_succ (hts : ts ≠ []) :
    (items (fuel + 1) p).run ⟨ts, last⟩ = (item p >>= items fuel).run ⟨ts, last⟩ := by
  rw [items]
  simp [Cursor.isDone, hts]

theorem run_items_eq_ok_iff (h : ItemsReading ts is) (hfuel : ts.length < fuel) :
    (∃ d, (items fuel p).run ⟨ts, last⟩ = .ok q d) ↔ is.foldlM Item.add? p = some q := by
  induction h generalizing fuel p with
  | nil =>
    obtain _ | fuel := fuel
    · omega
    have hrun : (items (fuel + 1) p).run ⟨[], last⟩ = .ok p ⟨[], last⟩ := rfl
    simp [hrun]
  | @cons us vs i is htaken hitem hrest ih =>
    obtain _ | fuel := fuel
    · omega
    have halone := hitem [] last
    simp only [append_nil] at halone
    have hlength := length_pos_of_ne_nil htaken
    rw [length_append] at hfuel
    rw [run_items_succ (by simp [htaken])]
    refine Iff.trans ?_ bind_eq_some_iff.symm
    have hless : vs.length < fuel := by omega
    constructor
    · rintro ⟨d, hrun⟩
      obtain ⟨p', c, hfirst, hsecond⟩ := run_bind_eq_ok.1 hrun
      obtain ⟨i', hi', hadd⟩ := run_item_eq_ok.1 hfirst
      cases halone.symm.trans hi'
      exact ⟨p', hadd, (ih hless).1 ⟨d, hsecond⟩⟩
    · rintro ⟨p', hadd, hfold⟩
      obtain ⟨d, hsecond⟩ := (ih hless).2 hfold
      exact ⟨d, run_bind_eq_ok.2 ⟨p', _, run_item_eq_ok.2 ⟨i, halone, hadd⟩, hsecond⟩⟩

theorem exists_itemsReading {d : Cursor} (h : (items fuel p).run ⟨ts, last⟩ = .ok q d) :
    ∃ is, ItemsReading ts is := by
  induction fuel generalizing ts p with
  | zero => exact absurd h run_failAt_ne_ok
  | succ fuel ih =>
    by_cases hts : ts = []
    · subst hts
      exact ⟨[], .nil⟩
    · rw [run_items_succ hts] at h
      obtain ⟨p', c, hfirst, hsecond⟩ := run_bind_eq_ok.1 h
      obtain ⟨i, hi, -⟩ := run_item_eq_ok.1 hfirst
      obtain ⟨us, vs, htaken, rfl, rfl, hitem⟩ := seals_itemAlone.run hi
      obtain ⟨is, his⟩ := ih hsecond
      exact ⟨i :: is, .cons htaken hitem his⟩

end Parser

namespace Program

variable {ts : List Token} {p : Program}

theorem parse_eq_ok_iff_run :
    parse ts = .ok p ↔
      ∃ d, (Parser.items (Cursor.ofTokens ts).budget .empty).run (.ofTokens ts) = .ok p d := by
  have hrun : Parser.program.run (.ofTokens ts) =
      (Parser.items (Cursor.ofTokens ts).budget .empty).run (.ofTokens ts) := by
    unfold Parser.program
    rw [Parser.run_bind_of_ok Parser.run_get]
  unfold parse
  rw [hrun]
  cases (Parser.items (Cursor.ofTokens ts).budget .empty).run (.ofTokens ts) with
  | ok q d | error e d => simp

theorem exists_itemsReading_of_parse (h : parse ts = .ok p) : ∃ is, Parser.ItemsReading ts is := by
  obtain ⟨d, hrun⟩ := parse_eq_ok_iff_run.1 h
  exact Parser.exists_itemsReading hrun

theorem parse_eq_ok_iff {is : List Item} (h : Parser.ItemsReading ts is) :
    parse ts = .ok p ↔ is.foldlM Item.add? .empty = some p := by
  rw [parse_eq_ok_iff_run]
  exact Parser.run_items_eq_ok_iff h (Nat.lt_succ_self ts.length)

end Program

namespace Item

def name? : Item → Option String
  | action sig _ | value sig _ | enum sig _ => some sig.name
  | _ => none

/-- Whether two items declare one name or are blocks of one kind. -/
def clashes : Item → Item → Bool
  | entries _, entries _ | ticker _, ticker _ | display _, display _ => true
  | i, j => i.name?.isSome && i.name? == j.name?

theorem clashes_comm (i j : Item) : i.clashes j = j.clashes i := by
  cases i <;> cases j <;> simp [clashes, name?, Bool.beq_comm]

theorem taken_put (i j : Item) (p : Program) : j.taken (i.put p) = (j.clashes i || j.taken p) := by
  cases i <;> cases j <;> simp [clashes, name?, taken, put, NameMap.contains_insert, Bool.beq_eq_decide_eq]

theorem put_comm {i j : Item} (h : i.clashes j = false) (p : Program) :
    j.put (i.put p) = i.put (j.put p) := by
  cases i <;> cases j <;> first
    | rfl
    | cases h
    | (simp only [clashes, name?, isSome_some, Bool.true_and, beq_eq_false_iff_ne, ne_eq,
        Option.some.injEq] at h
       simp [put, NameMap.insert_comm _ h])

/-- Two items can be added in either order, or there is a conflict in both. -/
theorem add?_comm (i j : Item) (p : Program) :
    ((i.add? p).bind fun q => j.add? q) = (j.add? p).bind fun q => i.add? q := by
  simp only [add?]
  cases hi : i.taken p <;> cases hj : j.taken p <;>
    simp only [Bool.false_eq_true, if_true, if_false, bind_none, bind_some, taken_put,
      hi, hj, Bool.or_false, Bool.or_true]
  rw [clashes_comm j i]
  cases hclash : i.clashes j with
  | true => rfl
  | false => simp [put_comm hclash]

theorem foldlM_perm {is js : List Item} (h : is.Perm js) (p : Program) :
    is.foldlM add? p = js.foldlM add? p := by
  induction h generalizing p with
  | nil => rfl
  | cons i _ ih =>
    simp only [foldlM_cons]
    congr 1
    funext q
    exact ih q
  | swap i j is =>
    have hcomm := congrArg (Option.bind · fun q => is.foldlM add? q) (add?_comm j i p)
    simpa only [foldlM_cons, bind_eq_bind, bind_assoc] using hcomm
  | trans _ _ ih ih' => exact (ih p).trans (ih' p)

end Item

namespace Program

/-- The document of a program as text, unless the program is refused somewhere. -/
def encoded? (settings : Settings) (tokens : List Token) : Option String := do
  let p ← (parse tokens).toOption
  let q ← p.analyze.outcome.toOption
  let d ← (Document.ofProgram settings q).toOption
  return d.encode

variable {parts : List (List Token)}

theorem itemsReading_flatten {f : List Token → List Item}
    (h : ∀ ts ∈ parts, Parser.ItemsReading ts (f ts)) :
    Parser.ItemsReading parts.flatten (parts.flatMap f) := by
  induction parts with
  | nil => exact .nil
  | cons ts parts ih =>
    obtain ⟨hts, hparts⟩ := forall_mem_cons.1 h
    exact hts.append (ih hparts)

/-- Parts that are programs on their own are read as the same program in every order, or in
none. -/
theorem parse_perm {parts' : List (List Token)} (h : ∀ ts ∈ parts, ∃ p, parse ts = .ok p)
    (hperm : parts.Perm parts') :
    (parse parts.flatten).toOption = (parse parts'.flatten).toOption := by
  have hreading : ∃ f : List Token → List Item, ∀ ts ∈ parts, Parser.ItemsReading ts (f ts) := by
    classical
    have hexists : ∀ ts, ∃ is, ts ∈ parts → Parser.ItemsReading ts is := fun ts => by
      by_cases hts : ts ∈ parts
      · obtain ⟨p, hp⟩ := h ts hts
        obtain ⟨is, his⟩ := exists_itemsReading_of_parse hp
        exact ⟨is, fun _ => his⟩
      · exact ⟨[], fun hmem => absurd hmem hts⟩
    exact ⟨_, fun ts => (hexists ts).choose_spec⟩
  obtain ⟨f, hf⟩ := hreading
  have hreads := itemsReading_flatten hf
  have hreads' := itemsReading_flatten fun ts hts => hf ts (hperm.mem_iff.2 hts)
  have hitems := Item.foldlM_perm (hperm.flatMap_right f) .empty
  refine Option.ext fun p => ?_
  rw [toOption_eq_some_iff, toOption_eq_some_iff, parse_eq_ok_iff hreads,
    parse_eq_ok_iff hreads', hitems]

/-- The order of items does not matter: in every order the items of a program are refused, or the
texts of their documents are equal. -/
theorem encoded?_perm (settings : Settings) {parts parts' : List (List Token)}
    (h : ∀ ts ∈ parts, ∃ p, parse ts = .ok p) (hperm : parts.Perm parts') :
    encoded? settings parts.flatten = encoded? settings parts'.flatten := by
  unfold encoded?
  rw [parse_perm h hperm]

/-- The words `let a = b;`, `let b = 1;` and `public { a; }` in two orders. -/
theorem encoded?_perm_block :
    let word (l : Lexeme) (start stop : Nat) : Token :=
      ⟨l, ⟨start, 1, start + 1⟩, ⟨stop, 1, stop + 1⟩⟩
    let first := [word (.keyword .letDecl) 0 3, word (.name "a") 4 5, word (.symbol .equal) 6 7,
      word (.name "b") 8 9, word (.symbol .semicolon) 9 10]
    let second := [word (.keyword .letDecl) 11 14, word (.name "b") 15 16,
      word (.symbol .equal) 17 18, word (.int 1) 19 20, word (.symbol .semicolon) 20 21]
    let third := [word (.keyword .publicBlock) 22 28, word (.symbol .curlyLeft) 29 30,
      word (.name "a") 31 32, word (.symbol .semicolon) 32 33, word (.symbol .curlyRight) 34 35]
    ∃ text, encoded? .default [first, second, third].flatten = some text ∧
      encoded? .default [third, second, first].flatten = some text := by
  intro word first second third
  have hsome : (encoded? .default [first, second, third].flatten).isSome = true := by decide +kernel
  have hparse : ∀ ts ∈ [first, second, third], ∃ p, parse ts = .ok p := by
    have hall : ∀ ts ∈ [first, second, third], ((parse ts).toOption).isSome = true := by
      decide +kernel
    intro ts hts
    obtain ⟨p, hp⟩ := isSome_iff_exists.1 (hall ts hts)
    exact ⟨p, toOption_eq_some_iff.1 hp⟩
  obtain ⟨text, htext⟩ := isSome_iff_exists.1 hsome
  have hperm : [first, second, third].Perm [third, second, first] :=
    (reverse_perm [third, second, first])
  exact ⟨text, htext, (encoded?_perm .default hparse hperm).symm.trans htext⟩

end Program

end Diagram
