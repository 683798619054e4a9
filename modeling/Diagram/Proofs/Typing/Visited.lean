import Diagram.Proofs.Program.Judged
import Diagram.Proofs.Typing.Resolved
import Mathlib.Data.List.Nodup

/-!
# Every definition is visited once

The analysis of a definition visits the definitions that it needs, also where they need each other.
It never comes back into a definition that has begun, so it needs no bound on how deep it goes: with
the bound it does what the same visits would do without one.

Main statement: `Program.visited_of_analyze`.
-/

namespace Diagram.Program

open Typing

/-- The state in which the analysis of a program ends, whether it is refused or not. -/
def lastState (p : Program) : State :=
  match inferProgram p (start p) with
  | .ok _ s | .error _ s => s

/-- The definitions that the analysis of a program visits, one name for each visit. -/
def visited (p : Program) : List String :=
  p.lastState.begun.reverse

variable {tokens : List Token} {p : Program}

theorem Shaped.orderly_lastState (hp : p.Shaped tokens) : Orderly p p.lastState.begun := by
  have hrun := outcome_inferProgram hp
  unfold lastState
  split
  · rename_i q s hresult
    rw [hresult] at hrun
    exact hrun.1.orderly
  · rename_i e s hresult
    rw [hresult] at hrun
    exact hrun.2

theorem Shaped.begun_of_analyze (hp : p.Shaped tokens) {q : Program}
    (h : p.analyze.outcome = .ok q) {n : String} (hn : p.Defines n) : n ∈ p.lastState.begun := by
  have hrun := outcome_inferProgram hp
  unfold analyze at h
  unfold lastState
  cases hresult : inferProgram p (start p) with
  | ok q s =>
    rw [hresult] at hrun
    exact List.contains_iff_mem.1 (hrun.2.2.2 n (NameMap.mem_names_iff.2 hn))
  | error e s =>
    rw [hresult] at h
    cases h

/-- The analysis of a program that was read ends, with a program or with a fault at a place, and it
visits no definition twice.  If it ends with a program it has visited each.  In every consistent
state the analysis of a definition is a visit in which the analysis of the definitions that it needs
is one of the same kind, and it ends in a consistent state or with a fault. -/
theorem visited_of_analyze (hparse : Program.parse tokens = .ok p) :
    (Consistent tokens p p.identifiers.size (start p) ∧
      ∀ s, Consistent tokens p p.identifiers.size s → ∀ n, p.Defines n →
        resolveAny n s = visit resolveAny n s ∧
        Outcome tokens p p.identifiers.size s (fun _ s' => s'.hasBegun n = true)
          (resolveAny n s)) ∧
      p.visited.Nodup ∧ (∀ n ∈ p.visited, p.Defines n) ∧
      ((∃ q, p.analyze.outcome = .ok q ∧ p.visited.Perm p.identifiers.names) ∨
        ∃ e, p.analyze.outcome = .error (.rejected e) ∧ e.area.Among tokens) := by
  have hp := shaped_of_parse hparse
  have horderly := hp.orderly_lastState
  have hnodup : p.visited.Nodup := List.nodup_reverse.2 horderly.nodup
  have hdefined : ∀ n ∈ p.visited, p.Defines n := fun n hn =>
    horderly.defined n (List.mem_reverse.1 hn)
  refine ⟨⟨consistent_start hp, fun s hs n hn => ?_⟩, hnodup, hdefined, ?_⟩
  · exact ⟨resolveAny_eq_visit hp hn hs, outcome_resolveAny hp hn hs⟩
  · refine hp.analyze_outcome.imp_left fun ⟨q, hq, _⟩ => ⟨q, hq, ?_⟩
    refine (List.perm_ext_iff_of_nodup hnodup p.identifiers.nodup_names).2 fun n => ?_
    refine ⟨fun hn => NameMap.mem_names_iff.2 (hdefined n hn), fun hn => ?_⟩
    exact List.mem_reverse.2 (hp.begun_of_analyze hq (NameMap.mem_names_iff.1 hn))

/-- Two functions that call each other, and a constant that one of them needs. -/
theorem visited_of_analyze_mutual :
    ∃ p q, Program.parse (Token.ofText ("let f(x: real): real = g(x); " ++
        "let g(x: real) = f(x) + u; const u = 2; let a = g(1);")) = .ok p ∧
      p.analyze.outcome = .ok q ∧ p.visited = ["a", "g", "u", "f"] ∧
      p.visited.Perm p.identifiers.names := by
  obtain ⟨p, hp, q, hq, hvisited⟩ :
      ∃ p, Program.parse (Token.ofText ("let f(x: real): real = g(x); " ++
          "let g(x: real) = f(x) + u; const u = 2; let a = g(1);")) = .ok p ∧
        ∃ q, p.analyze.outcome = .ok q ∧ p.visited = ["a", "g", "u", "f"] := by
    decide +kernel
  obtain ⟨-, -, -, ⟨-, -, hperm⟩ | ⟨e, he, -⟩⟩ := visited_of_analyze hp
  · exact ⟨p, q, hp, hq, hvisited, hperm⟩
  · rw [hq] at he
    cases he

end Diagram.Program
