import Diagram.FileSystem
import Diagram.Proofs.NameMap

/-!
# Files that are written

A file that is written can be read under every way to write its path, and what could be read
anywhere else stays as it was: a path that becomes a directory keeps its content.

Main statements: `read_put_self`, `read_put_of_ne`.
-/

namespace Diagram.FileSystem

variable {fs : FileSystem} {path other : String} {content : List UInt8}

theorem read_eq_ok_iff :
    fs.read path = .ok content ↔
      ∃ n, fs.nodes.get? (canonical path) = some n ∧ n.content = content := by
  change (fs.find path).map (·.content) = .ok content ↔ ∃ n, fs.node? path = some n ∧ _
  unfold find
  cases fs.node? path <;> simp [Except.map]

theorem exists_get?_foldl {k : String} (paths : List String) {nodes : NameMap Node} {n : Node}
    (h : nodes.get? k = some n) :
    ∃ n', (paths.foldl addDirectory nodes).get? k = some n' ∧ n'.content = n.content := by
  induction paths generalizing nodes n with
  | nil => exact ⟨n, h, rfl⟩
  | cons path paths ih =>
    have hstep : ∃ n', (addDirectory nodes path).get? k = some n' ∧ n'.content = n.content := by
      unfold addDirectory
      rw [NameMap.get?_insert]
      split
      · rename_i hk
        exact ⟨_, rfl, by rw [← hk, h]; rfl⟩
      · exact ⟨n, h, rfl⟩
    obtain ⟨n₁, hn₁, hcontent₁⟩ := hstep
    obtain ⟨n', hn', hcontent⟩ := ih hn₁
    exact ⟨n', hn', hcontent.trans hcontent₁⟩

theorem read_put_self (n : Node) : (fs.put path n).read path = .ok n.content :=
  read_eq_ok_iff.2 ⟨n, NameMap.get?_insert_self _ _ n, rfl⟩

theorem read_put_of_ne {n : Node} (hne : canonical other ≠ canonical path)
    (h : fs.read other = .ok content) : (fs.put path n).read other = .ok content := by
  obtain ⟨m, hm, rfl⟩ := read_eq_ok_iff.1 h
  obtain ⟨m', hm', hcontent⟩ :=
    exists_get?_foldl (above (canonical path) (Path.pieces (canonical path)).length) hm
  exact read_eq_ok_iff.2 ⟨m', (NameMap.get?_insert_of_ne _ n hne).trans hm', hcontent⟩

theorem read_makeDirectory (path : String) (h : fs.read other = .ok content) :
    (fs.makeDirectory path).read other = .ok content := by
  unfold makeDirectory
  split
  · exact h
  · rename_i hmissing
    refine read_put_of_ne (fun heq => hmissing ?_) h
    obtain ⟨m, hm, -⟩ := read_eq_ok_iff.1 h
    rw [contains, node?, ← heq, hm]
    rfl

theorem read_eq_of_canonical_eq (h : canonical path = canonical other) :
    fs.read path = fs.read other := by
  unfold read find node?
  rw [h]

end Diagram.FileSystem
