import Diagram.Cursor

/-!
# Successful runs of parsers

What a run that succeeds says of its parts, and of the cursor before and after it.  Each parser of tokens has
one lemma here, so that a composed parser is taken apart without unfolding its parts.
-/

namespace Diagram

section Except

variable {ε ε' α β : Type} {r : Except ε α} {a : α} {b : β}

/-- A computation that succeeds has a first part that does. -/
theorem bind_ok_iff {f : α → Except ε β} : (r >>= f) = .ok b ↔ ∃ a, r = .ok a ∧ f a = .ok b := by
  cases r <;> simp [bind, Except.bind]

theorem map_ok_iff {f : α → β} : r.map f = .ok b ↔ ∃ a, r = .ok a ∧ f a = b := by
  cases r <;> simp [Except.map]

theorem mapError_ok_iff {f : ε → ε'} : r.mapError f = .ok a ↔ r = .ok a := by
  cases r <;> constructor <;> rintro ⟨⟩ <;> rfl

theorem toOption_eq_some_iff : r.toOption = some a ↔ r = .ok a := by
  cases r <;> simp [Except.toOption]

end Except

variable {l : Lexeme}

theorem Ends.contains_eq_true_iff {ends : Ends} :
    ends.contains l ↔
      (∃ s ∈ ends.symbols, l = .symbol s) ∨ ∃ k ∈ ends.keywords, l = .keyword k := by
  cases l <;> simp [Ends.contains]

/-- There is a turn for each token before some others, and one more. -/
theorem Cursor.length_lt_budget {ts rest : List Token} {last : Option Location} :
    ts.length < Cursor.budget ⟨ts ++ rest, last⟩ := by
  show ts.length < (ts ++ rest).length + 1
  rw [List.length_append]
  omega

namespace Parser

variable {α β : Type} {c d : Cursor} {p : Parser α} {f : α → Parser β} {b : Bool} {a : α}
  {t : Token} {u : Unit} {s : Symbol} {ts : List Token} {last : Option Location}

theorem run_bind_eq_ok {b : β} :
    (p >>= f).run c = .ok b d ↔ ∃ a c', p.run c = .ok a c' ∧ (f a).run c' = .ok b d := by
  change EStateM.bind p f c = .ok b d ↔ ∃ a c', p c = .ok a c' ∧ f a c' = .ok b d
  unfold EStateM.bind
  cases h : p c with
  | ok a c' =>
    constructor
    · intro hrun
      exact ⟨a, c', rfl, hrun⟩
    · rintro ⟨a', c'', heq, hrun⟩
      cases heq
      exact hrun
  | error e c' => simp

/-- A run goes on with what its first part gives. -/
theorem run_bind_of_ok {c' : Cursor} (h : p.run c = .ok a c') : (p >>= f).run c = (f a).run c' := by
  change EStateM.bind p f c = f a c'
  change p c = .ok a c' at h
  simp [EStateM.bind, h]

@[simp] theorem run_pure (a : α) : (pure a : Parser α).run c = .ok a c := rfl

theorem run_pure_eq_ok {b : α} : (pure a : Parser α).run c = .ok b d ↔ a = b ∧ c = d := by
  simp

@[simp] theorem run_get : (get : Parser Cursor).run c = .ok c c := rfl

theorem run_failAt_ne_ok {area : Area} {cause : Cause} :
    (failAt area cause : Parser α).run c ≠ .ok a d := by
  intro h
  cases h

@[simp] theorem run_advance_cons : advance.run ⟨t :: ts, last⟩ = .ok () ⟨ts, last⟩ := rfl

theorem run_get_bind {f : Cursor → Parser β} : (get >>= f).run c = (f c).run c := rfl

theorem run_advance_bind {f : Unit → Parser β} :
    (advance >>= f).run ⟨t :: ts, last⟩ = (f ()).run ⟨ts, last⟩ := rfl

variable {missing : Cause}

theorem run_token_bind {f : Token → Parser β} :
    (token missing >>= f).run ⟨t :: ts, last⟩ = (f t).run ⟨t :: ts, last⟩ := rfl

theorem run_token_eq_ok : (token missing).run c = .ok t d ↔ d = c ∧ ∃ ts, c.rest = t :: ts := by
  obtain ⟨rest, last⟩ := c
  cases rest with
  | nil =>
    constructor
    · intro h
      cases h
    · rintro ⟨-, ts, hts⟩
      cases hts
  | cons u us =>
    constructor
    · intro h
      cases h
      exact ⟨rfl, us, rfl⟩
    · rintro ⟨rfl, ts, hts⟩
      cases hts
      rfl

theorem run_advance_eq_ok : advance.run c = .ok u d ↔ d = ⟨c.rest.tail, c.last⟩ := by
  constructor
  · intro h
    cases h
    rfl
  · rintro rfl
    rfl

theorem run_test_eq_ok {test : Token → Bool} :
    (do return test (← token) : Parser Bool).run c = .ok b d ↔
      d = c ∧ ∃ t ts, c.rest = t :: ts ∧ b = test t := by
  simp only [run_bind_eq_ok, run_token_eq_ok, run_pure_eq_ok]
  constructor
  · rintro ⟨t, c', ⟨rfl, ts, hts⟩, rfl, rfl⟩
    exact ⟨rfl, t, ts, hts, rfl⟩
  · rintro ⟨rfl, t, ts, hts, rfl⟩
    exact ⟨t, d, ⟨rfl, ts, hts⟩, rfl, rfl⟩

theorem run_atSymbol_eq_ok : (atSymbol s).run c = .ok b d ↔
    d = c ∧ ∃ t ts, c.rest = t :: ts ∧ b = decide (t.lexeme = .symbol s) :=
  run_test_eq_ok

theorem run_atKeyword_eq_ok {k : Keyword} : (atKeyword k).run c = .ok b d ↔
    d = c ∧ ∃ t ts, c.rest = t :: ts ∧ b = decide (t.lexeme = .keyword k) :=
  run_test_eq_ok

section Conditions

variable {f : Bool → Parser β} {k : Keyword}

theorem run_atSymbol_bind : (atSymbol s >>= f).run ⟨t :: ts, last⟩ =
    (f (decide (t.lexeme = .symbol s))).run ⟨t :: ts, last⟩ := rfl

theorem run_atKeyword_bind : (atKeyword k >>= f).run ⟨t :: ts, last⟩ =
    (f (decide (t.lexeme = .keyword k))).run ⟨t :: ts, last⟩ := rfl

theorem run_seesSymbol_bind : (seesSymbol s >>= f).run ⟨t :: ts, last⟩ =
    (f (decide (t.lexeme = .symbol s))).run ⟨t :: ts, last⟩ := rfl

theorem run_seesKeyword_bind : (seesKeyword k >>= f).run ⟨t :: ts, last⟩ =
    (f (decide (t.lexeme = .keyword k))).run ⟨t :: ts, last⟩ := rfl

end Conditions

theorem run_skipSymbol_of_eq (h : t.lexeme = .symbol s) :
    (skipSymbol s).run ⟨t :: ts, last⟩ = .ok () ⟨ts, last⟩ := by
  unfold skipSymbol
  rw [run_seesSymbol_bind]
  simp [h]

/-- Anything else under the cursor stays there. -/
theorem run_skipSymbol_of_ne (h : t.lexeme ≠ .symbol s) :
    (skipSymbol s).run ⟨t :: ts, last⟩ = .ok () ⟨t :: ts, last⟩ := by
  unfold skipSymbol
  rw [run_seesSymbol_bind]
  simp [h]

theorem run_expectSymbol_of_eq (h : t.lexeme = .symbol s) :
    (expectSymbol s).run ⟨t :: ts, last⟩ = .ok () ⟨t :: ts, last⟩ := by
  unfold expectSymbol
  rw [run_token_bind]
  simp [h]

theorem run_expectSymbol_eq_ok :
    (expectSymbol s).run c = .ok u d ↔ d = c ∧ ∃ t ts, c.rest = t :: ts ∧ t.lexeme = .symbol s := by
  simp only [expectSymbol, run_bind_eq_ok, run_token_eq_ok]
  constructor
  · rintro ⟨t, c', ⟨rfl, ts, hts⟩, h⟩
    split at h
    · cases h
      exact ⟨rfl, t, ts, hts, ‹_›⟩
    · exact absurd h run_failAt_ne_ok
  · rintro ⟨rfl, t, ts, hts, ht⟩
    exact ⟨t, d, ⟨rfl, ts, hts⟩, by simp [ht]⟩

theorem run_expectName_eq_ok {n : String} :
    expectName.run c = .ok n d ↔ d = c ∧ ∃ t ts, c.rest = t :: ts ∧ t.lexeme = .name n := by
  simp only [expectName, run_bind_eq_ok, run_token_eq_ok]
  constructor
  · rintro ⟨t, c', ⟨rfl, ts, hts⟩, h⟩
    split at h
    · cases h
      exact ⟨rfl, t, ts, hts, ‹_›⟩
    · exact absurd h run_failAt_ne_ok
  · rintro ⟨rfl, t, ts, hts, ht⟩
    exact ⟨t, d, ⟨rfl, ts, hts⟩, by simp [ht]⟩

end Parser

end Diagram
