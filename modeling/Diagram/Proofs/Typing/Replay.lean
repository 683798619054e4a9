import Diagram.Proofs.Typing.Simulation
import Diagram.Proofs.Typing.Transfer
import Mathlib.Order.Defs.Unbundled

/-!
# Analyses in another order

Two programs whose definitions are alike are analyzed in different orders.  If every definition
asks for itself and for earlier ones only, in some order of the names, then what the analysis of the
first program makes of a definition can be replayed in the second one, whatever has been analyzed
there.

* `Explained` — the analysis of one definition can be replayed.
* `explains_of_resolve` — one resolution: all that it finishes can be replayed.
* `explained_of_forM` — the whole analysis.
-/

namespace Diagram

open List Option Signature

def Program.Infers (p : Program) (n : String) : Prop :=
  ∃ sig, p.signatures.get? n = some sig ∧ sig.ty.isUnknown = true

theorem Program.Infers.wanted {p : Program} {n : String} (h : p.Infers n) : p.Wanted n := by
  obtain ⟨sig, hsig, hunknown⟩ := h
  exact ⟨sig, hsig, by simp [isWanted, hunknown]⟩

/-- Whether a name, if it may be asked for, is another one or comes before it. -/
def Program.Before (p : Program) (lt : String → String → Prop) (n m : String) : Prop :=
  p.Wanted m → m = n ∨ lt m n

/-- A program with written types, in which all names are defined that may be asked for. -/
structure Program.Grounded (p : Program) : Prop where
  keyed : ∀ n sig, p.signatures.get? n = some sig → sig.name = n
  ty : ∀ n sig, p.signatures.get? n = some sig → sig.ty.Within fun _ => False
  params : ∀ n sig, p.signatures.get? n = some sig → ∀ q ∈ sig.paramList, q.ty.Within fun _ => False
  defined : ∀ n, p.Wanted n → p.Defines n

namespace Typing

/-- The relation of programs whose definitions differ in top-level names only, and ask for
themselves and for earlier definitions. -/
structure AlikeDefinitions (c : Respelling) (lt : String → String → Prop) (p p' : Program) :
    Prop where
  signatures : ∀ n, p'.signatures.get? (c.name n) = (p.signatures.get? n).map (rename c)
  identifiers : ∀ n, Option.Rel
    (Alike c (p.Before lt n) false (p.paramNames n) (p.paramNames n))
    (p.identifiers.get? n) (p'.identifiers.get? (c.name n))
  enum : ∀ n, c.enum n = true ↔ ∃ sig, p.signatures.get? n = some sig ∧ sig.declares = .enum
  type : ∀ n, c.enum n = true → c.type n = c.name n

variable {r : Renaming} {sig : Signature}

theorem respelled_of_bare {sig' sig₀ : Signature} (h : sig.bare = sig₀.bare)
    (h' : sig'.bare = (sig₀.rename r).bare) : sig.Respelled r sig' where
  declares := (congrArg declares h').trans (congrArg declares h).symm
  name := (congrArg name h').trans (congrArg (fun s : Signature => r.name s.name) h).symm
  params := (congrArg params h').trans (congrArg (·.params.map (List.map (Param.rename r))) h).symm
  variants := (congrArg variants h').trans (congrArg variants h).symm

/-- What a definition is accepted as differs in names only if the definitions do. -/
theorem accept_respelled (hr : r.Injective) {body body' e : Expr} (hbody : body.Respelled r body')
    (h : accept sig body = .ok e) :
    ∃ e', accept (sig.rename r) body' = .ok e' ∧ e.Respelled r e' := by
  obtain ⟨hneeds, he⟩ := accept_eq_ok_iff.1 h
  have hliteral : body'.isLiteral = body.isLiteral := by
    simp [Expr.isLiteral, hbody.value]
  have hneeds' : (sig.rename r).isConstant = true ∨ (sig.rename r).declares = .var →
      body'.isLiteral = true := by
    unfold isConstant at hneeds ⊢
    rw [hasParams_rename, hliteral]
    exact hneeds
  have hsame : (sig.rename r).ty = sig.ty.rename r := rfl
  cases hunknown : sig.ty.isUnknown with
  | true =>
    rw [hunknown] at he
    subst he
    refine ⟨body', accept_eq_ok_iff.2 ⟨hneeds', ?_⟩, hbody⟩
    rw [hsame, Ty.isUnknown_rename, hunknown, if_pos rfl]
  | false =>
    rw [hunknown] at he
    obtain ⟨hcoerces, rfl⟩ := he
    refine ⟨body'.convertTo (sig.ty.rename r), accept_eq_ok_iff.2 ⟨hneeds', ?_⟩, ?_⟩
    · rw [hsame, Ty.isUnknown_rename, hunknown, hbody.ty, Ty.coercesTo_rename hr]
      exact ⟨hcoerces, rfl⟩
    · have hvalue := hbody.value
      unfold Expr.convertTo
      cases hv : body.value? with
      | none =>
        rw [hv] at hvalue
        rw [hvalue]
        exact hbody
      | some v =>
        rw [hv] at hvalue
        rw [hvalue]
        exact ⟨(congrArg Value.ty (Value.rename_convert sig.ty v)).symm.trans
          (Value.ty_rename _), congrArg some (Value.rename_convert sig.ty v).symm⟩

section Records

variable {n m : String} {s : State} {sig : Signature} {e : Expr}

theorem tyOf_record_self (hunknown : sig.ty.isUnknown) : (record s n sig e).tyOf n = e.ty := by
  simp [State.tyOf, record, hunknown]

theorem tyOf_record_of_known (hunknown : sig.ty.isUnknown = false) :
    (record s n sig e).tyOf n = s.tyOf n := by
  simp [State.tyOf, record, hunknown]

theorem tyOf_record_of_ne (h : m ≠ n) : (record s n sig e).tyOf m = s.tyOf m := by
  unfold State.tyOf
  rw [get?_signatures_record_of_ne h]

theorem valueOf?_record_self : (record s n sig e).valueOf? n = e.value? := by
  simp [State.valueOf?, record]

theorem valueOf?_record_of_ne (h : m ≠ n) : (record s n sig e).valueOf? m = s.valueOf? m := by
  unfold State.valueOf?
  rw [get?_identifiers_record, if_neg h]

end Records

/-- A state in which the definitions are as they were that have not begun or are open. -/
structure Original (p : Program) (opened : List String) (s : State) : Prop where
  static : ∀ n, (s.signatures.get? n).map bare = (p.signatures.get? n).map bare
  begun : ∀ n ∈ opened, s.hasBegun n = true
  signatures : ∀ n, s.hasBegun n = false ∨ n ∈ opened → s.signatures.get? n = p.signatures.get? n
  identifiers : ∀ n, s.hasBegun n = false ∨ n ∈ opened → s.identifiers.get? n = p.identifiers.get? n

theorem original_start (p : Program) : Original p [] (start p) :=
  ⟨fun _ => rfl, by simp, fun _ _ => rfl, fun _ _ => rfl⟩

namespace Original

variable {p : Program} {opened : List String} {s : State} {n : String}

theorem begin (h : Original p opened s) (hbegun : s.hasBegun n = false) :
    Original p (n :: opened) (begin s n) := by
  have hcases : ∀ m, (Typing.begin s n).hasBegun m = false ∨ m ∈ n :: opened →
      s.hasBegun m = false ∨ m ∈ opened := by
    rintro m (hm | hm)
    · rw [contains_begin, Bool.or_eq_false_iff] at hm
      exact .inl hm.2
    · rcases mem_cons.1 hm with rfl | hm
      · exact .inl hbegun
      · exact .inr hm
  refine ⟨h.static, fun m hm => ?_, fun m hm => h.signatures m (hcases m hm),
    fun m hm => h.identifiers m (hcases m hm)⟩
  rw [contains_begin, Bool.or_eq_true, decide_eq_true_eq]
  exact (mem_cons.1 hm).imp_right (h.begun m)

variable {sig : Signature}

theorem record (h : Original p (n :: opened) s) (hopen : n ∉ opened)
    (hbegun : s.hasBegun n) (hsig : p.signatures.get? n = some sig) (e : Expr) :
    Original p opened (record s n sig e) := by
  have hne : ∀ m, s.hasBegun m = false ∨ m ∈ opened → m ≠ n := by
    rintro m (hm | hm) rfl
    · simp [hbegun] at hm
    · exact hopen hm
  refine ⟨fun m => ?_, fun m hm => h.begun m (mem_cons_of_mem n hm), fun m hm => ?_, fun m hm => ?_⟩
  · rw [get?_signatures_record]
    split
    case isTrue heq => rw [heq.1, hsig, map_some]
    case isFalse => exact h.static m
  · rw [get?_signatures_record_of_ne (hne m hm)]
    exact h.signatures m (hm.imp_right (mem_cons_of_mem n))
  · rw [get?_identifiers_record, if_neg (hne m hm)]
    exact h.identifiers m (hm.imp_right (mem_cons_of_mem n))

theorem noted (h : Original p opened s) (b : Builtin) (v : Verdict) :
    Original p opened (s.noted b v) := by
  unfold State.noted
  split
  · exact ⟨h.static, h.begun, h.signatures, h.identifiers⟩
  · exact h

theorem finished_or (h : Original p opened s) (n : String) :
    s.hasBegun n ∧ n ∉ opened ∨ s.signatures.get? n = p.signatures.get? n := by
  by_cases hfinished : s.hasBegun n = true ∧ n ∉ opened
  · exact .inl hfinished
  · refine .inr (h.signatures n ?_)
    rcases not_and_or.1 hfinished with hbegun | hopen
    · exact .inl (by simpa using hbegun)
    · exact .inr (not_not.1 hopen)

/-- A signature of the program, which differs from that of the state in its type only. -/
theorem exists_signature (h : Original p opened s) (hsig : s.signatures.get? n = some sig) :
    ∃ sig₀, p.signatures.get? n = some sig₀ ∧ sig₀.bare = sig.bare := by
  have hstatic := h.static n
  rw [hsig] at hstatic
  exact map_eq_some_iff.1 hstatic.symm

end Original

/-- Whether a state has the types and values of another one for what it has finished. -/
def Agrees (opened : List String) (s last : State) : Prop :=
  ∀ n, s.hasBegun n = true → n ∉ opened → last.tyOf n = s.tyOf n ∧ last.valueOf? n = s.valueOf? n

namespace Agrees

variable {opened : List String} {s s' last : State} {n : String}

theorem of_grows (hgrows : Grows s s') (h : Agrees opened s' last) : Agrees opened s last := by
  intro m hm hclosed
  rw [← hgrows.tyOf_eq hm, ← hgrows.valueOf?_eq hm]
  exact h m (hgrows.progress.begun m hm) hclosed

theorem of_record {sig : Signature} {e : Expr} (h : Agrees opened (record s n sig e) last) :
    Agrees (n :: opened) s last := by
  intro m hm hclosed
  obtain ⟨hmn, hclosed⟩ := not_or.1 (mt mem_cons.2 hclosed)
  have hlast := h m hm hclosed
  rw [tyOf_record_of_ne hmn, valueOf?_record_of_ne hmn] at hlast
  exact hlast

theorem noted (h : Agrees opened s last) (b : Builtin) (v : Verdict) :
    Agrees opened (s.noted b v) last := by
  unfold State.noted
  split
  · exact h
  · exact h

end Agrees

/-- A state of the analysis of the second program that has, for what it has finished, the types and
values that the first analysis ends with, and room to begin some definitions. -/
structure Follows (c : Respelling) (p' : Program) (last : State) (opened : List String) (room : Nat)
    (u : State) : Prop where
  original : Original p' (opened.map c.name) u
  answers : ∀ n, u.hasBegun (c.name n) = true → n ∉ opened →
    u.tyOf (c.name n) = (last.tyOf n).rename c ∧
      u.valueOf? (c.name n) = (last.valueOf? n).map (Value.rename c)
  pending : pendingCount p' u ≤ room

/-- Whether the analysis of a definition can be replayed in the second program, where only
definitions are open that come later. -/
structure Explained (c : Respelling) (lt : String → String → Prop) (p p' : Program) (last : State)
    (n : String) : Prop where
  replays : ∀ opened, (∀ o ∈ opened, lt n o) → ∀ room u, Follows c p' last opened room u →
    ∃ v, resolve (c.name n) room u = .ok () v ∧ Follows c p' last opened room v ∧
      v.hasBegun (c.name n) = true
  ty : (last.tyOf n).Within (p.Before lt n)
  value : ∀ v, last.valueOf? n = some v → v.ty.Within (p.Before lt n)

theorem follows_start (c : Respelling) (p' : Program) (last : State) :
    Follows c p' last [] p'.identifiers.size (start p') where
  original := original_start p'
  answers _ h := nomatch h
  pending := Nat.le_trans (length_filter_le _ _) (Nat.le_of_eq (length_map _))

namespace Follows

variable {c : Respelling} {p' : Program} {last u : State} {opened : List String} {room : Nat}
  {n : String}

theorem noted (h : Follows c p' last opened room u) (b : Builtin) (v : Verdict) :
    Follows c p' last opened room (u.noted b v) := by
  unfold State.noted
  split
  · exact ⟨{ h.original with }, h.answers, h.pending⟩
  · exact h

theorem begin (h : Follows c p' last opened (room + 1) u)
    (hbegun : u.hasBegun (c.name n) = false) (hdefined : p'.Defines (c.name n)) :
    Follows c p' last (n :: opened) room (begin u (c.name n)) where
  original := h.original.begin hbegun
  answers m hm hclosed := by
    obtain ⟨hmn, hclosed⟩ := not_or.1 (mt mem_cons.2 hclosed)
    rw [contains_begin, Bool.or_eq_true, decide_eq_true_eq, c.name.injective.eq_iff] at hm
    exact h.answers m (hm.resolve_left hmn) hclosed
  pending := by
    have hless := pendingCount_begin hdefined hbegun
    have hpending := h.pending
    omega

theorem exists_room (h : Follows c p' last opened room u)
    (hbegun : u.hasBegun (c.name n) = false) (hdefined : p'.Defines (c.name n)) :
    ∃ room', room = room' + 1 := by
  refine Nat.exists_eq_succ_of_ne_zero ?_
  rintro rfl
  have htrue := begun_of_pendingCount_eq_zero hdefined (Nat.le_zero.1 h.pending)
  simp [hbegun] at htrue

/-- A definition is recorded with the type and the value that the first analysis ends with. -/
theorem record (h : Follows c p' last (n :: opened) room u) (hopen : n ∉ opened)
    (hbegun : u.hasBegun (c.name n)) {sig : Signature}
    (hsig : p'.signatures.get? (c.name n) = some sig) {e : Expr}
    (hty : (if sig.ty.isUnknown then e.ty else sig.ty) = (last.tyOf n).rename c)
    (hvalue : e.value? = (last.valueOf? n).map (Value.rename c)) :
    Follows c p' last opened (room + 1) (record u (c.name n) sig e) where
  original := by
    refine h.original.record ?_ hbegun hsig e
    rwa [List.mem_map_of_injective c.name.injective]
  answers m hm hclosed := by
    by_cases hmn : m = n
    · subst hmn
      refine ⟨?_, valueOf?_record_self.trans hvalue⟩
      rw [← hty]
      cases hunknown : sig.ty.isUnknown with
      | true => exact tyOf_record_self hunknown
      | false =>
        have hget := h.original.signatures (c.name m) (.inr (by simp))
        rw [tyOf_record_of_known hunknown]
        exact tyOf_of_get? (hget.trans hsig)
    · have hne : c.name m ≠ c.name n := fun heq => hmn (c.name.injective heq)
      rw [tyOf_record_of_ne hne, valueOf?_record_of_ne hne]
      exact h.answers m hm (mt mem_cons.1 (not_or.2 ⟨hmn, hclosed⟩))
  pending := Nat.le_succ_of_le h.pending

end Follows

section Orders

variable {lt : String → String → Prop} [IsStrictOrder String lt] {m n : String}
  {opened : List String}

theorem lt_of_mem_cons (hopened : ∀ o ∈ opened, lt n o) (h : lt m n) : ∀ o ∈ n :: opened, lt m o :=
  forall_mem_cons.2 ⟨h, fun o ho => trans_of lt h (hopened o ho)⟩

theorem not_mem_of_lt (hopened : ∀ o ∈ opened, lt n o) (h : lt m n) : m ∉ n :: opened := by
  intro hm
  have hself : lt m m := lt_of_mem_cons hopened h m hm
  exact irrefl_of lt m hself

theorem within_of_lt {p : Program} (h : lt m n) {t : Ty} (ht : t.Within (p.Before lt m)) :
    t.Within (p.Before lt n) :=
  ht.mono fun _ hk hwanted => .inr ((hk hwanted).elim (fun heq => heq ▸ h) (trans_of lt · h))

end Orders

section Known

variable {p : Program} {last : State} {n : String} {sig : Signature}

theorem tyOf_of_declared (hkeeps : Keeps (start p) last) (hsig : p.signatures.get? n = some sig)
    (hknown : sig.ty.isUnknown = false) : last.tyOf n = sig.ty :=
  tyOf_of_get? (hkeeps n sig hsig hknown)

/-- What may be asked for in a state may be asked for in the program. -/
theorem wanted_of_isWanted {sig₀ : Signature} (hsig₀ : p.signatures.get? n = some sig₀)
    (hdeclares : sig.declares = sig₀.declares) (hparams : sig.hasParams = sig₀.hasParams)
    (hinfers : sig.ty.isUnknown → p.Infers n) (h : sig.isWanted) : p.Wanted n := by
  cases hunknown : sig.ty.isUnknown with
  | true => exact (hinfers hunknown).wanted
  | false =>
    refine ⟨sig₀, hsig₀, ?_⟩
    simp only [isWanted, hunknown, Bool.false_or] at h
    rw [hdeclares, hparams] at h
    simp only [isWanted]
    rw [Bool.or_assoc, h, Bool.or_true]

end Known

section Simulations

variable {c : Respelling} {lt : String → String → Prop} {p p' : Program} {last : State}

/-- What both analyses have done while some definitions are open in them. -/
structure Beside (c : Respelling) (lt : String → String → Prop) (p p' : Program) (last : State)
    (opened opened' : List String) (room : Nat) (t u : State) : Prop where
  original : Original p opened t
  agrees : Agrees opened t last
  explained : ∀ k, t.hasBegun k = true → k ∉ opened → Explained c lt p p' last k
  follows : Follows c p' last opened' room u

variable {opened opened' : List String} {room : Nat} {t u : State} {n : String}

section First

variable (hkeeps : Keeps (start p) last) (h : Beside c lt p p' last opened opened' room t u)

include hkeeps h

/-- A known type in the course of the first analysis is the one that it ends with. -/
theorem Beside.tyOf_eq (hknown : (t.tyOf n).isUnknown = false) : t.tyOf n = last.tyOf n := by
  rcases h.original.finished_or n with ⟨hbegun, hclosed⟩ | hget
  · exact (h.agrees n hbegun hclosed).1.symm
  · cases hsig : p.signatures.get? n with
    | none => simp [State.tyOf, hget, hsig, Ty.isUnknown] at hknown
    | some sig =>
      rw [tyOf_of_get? (hget.trans hsig)] at hknown ⊢
      exact (tyOf_of_declared hkeeps hsig hknown).symm

theorem Beside.infers {sig : Signature} (hsig : t.signatures.get? n = some sig)
    (hunknown : sig.ty.isUnknown) : p.Infers n := by
  obtain ⟨sig₀, hsig₀, -⟩ := h.original.exists_signature hsig
  refine ⟨sig₀, hsig₀, ?_⟩
  by_contra hknown
  rw [Bool.not_eq_true] at hknown
  have hlast := tyOf_of_declared hkeeps hsig₀ hknown
  rcases h.original.finished_or n with ⟨hbegun, hclosed⟩ | hget
  · rw [(h.agrees n hbegun hclosed).1, tyOf_of_get? hsig] at hlast
    simp [hlast, hknown] at hunknown
  · cases hsig.symm.trans (hget.trans hsig₀)
    simp [hknown] at hunknown

end First

section Second

variable (halike : AlikeDefinitions c lt p p') (hkeeps : Keeps (start p) last)
  (h : Follows c p' last opened' room u)

include halike hkeeps h

/-- A known type in the course of the second analysis is the one that the first one ends with. -/
theorem Follows.tyOf_eq (hknown : (u.tyOf (c.name n)).isUnknown = false) :
    u.tyOf (c.name n) = (last.tyOf n).rename c := by
  rcases h.original.finished_or (c.name n) with ⟨hbegun, hclosed⟩ | hget
  · rw [List.mem_map_of_injective c.name.injective] at hclosed
    exact (h.answers n hbegun hclosed).1
  · rw [halike.signatures] at hget
    cases hsig : p.signatures.get? n with
    | none => simp [State.tyOf, hget, hsig, Ty.isUnknown] at hknown
    | some sig =>
      rw [hsig] at hget
      rw [tyOf_of_get? hget] at hknown ⊢
      have hsame : (sig.rename c).ty = sig.ty.rename c := rfl
      rw [hsame, Ty.isUnknown_rename] at hknown
      rw [hsame, tyOf_of_declared hkeeps hsig hknown]

theorem Follows.infers {sig' : Signature} (hsig' : u.signatures.get? (c.name n) = some sig')
    (hunknown : sig'.ty.isUnknown) : p.Infers n := by
  obtain ⟨sig₀', hsig₀', -⟩ := h.original.exists_signature hsig'
  rw [halike.signatures] at hsig₀'
  obtain ⟨sig₀, hsig₀, rfl⟩ := map_eq_some_iff.1 hsig₀'
  refine ⟨sig₀, hsig₀, ?_⟩
  by_contra hknown
  rw [Bool.not_eq_true] at hknown
  have hlast := tyOf_of_declared hkeeps hsig₀ hknown
  have hty := tyOf_of_get? hsig'
  rcases h.original.finished_or (c.name n) with ⟨hbegun, hclosed⟩ | hget
  · rw [List.mem_map_of_injective c.name.injective] at hclosed
    rw [(h.answers n hbegun hclosed).1, hlast] at hty
    rw [← hty] at hunknown
    simp [hknown] at hunknown
  · rw [halike.signatures, hsig₀] at hget
    cases hsig'.symm.trans hget
    have hsame : (sig₀.rename c).ty = sig₀.ty.rename c := rfl
    rw [hsame] at hunknown
    simp [hknown] at hunknown

end Second

/-- What the resolution of a name does on the way to the end of the first analysis: all that it
finishes is explained. -/
structure Explains (c : Respelling) (lt : String → String → Prop) (p p' : Program) (last : State)
    (n : String) (s s' : State) : Prop where
  grows : Grows s s'
  idle : s.hasBegun n = true → s' = s
  begun : s'.hasBegun n = true
  explains : ∀ opened, (∀ o ∈ opened, lt n o) → Original p opened s → Agrees opened s' last →
    (∀ k, s.hasBegun k = true → k ∉ opened → Explained c lt p p' last k) →
    Original p opened s' ∧ ∀ k, s'.hasBegun k = true → k ∉ opened → Explained c lt p p' last k

section Names

variable (halike : AlikeDefinitions c lt p p')
  (h : Beside c lt p p' last opened opened' room t u)

include halike h

theorem Beside.static (m : String) :
    Option.Rel (Signature.Respelled c) (t.signatures.get? m) (u.signatures.get? (c.name m)) := by
  have hfirst := h.original.static m
  have hsecond := h.follows.original.static (c.name m)
  rw [halike.signatures] at hsecond
  cases hsig₀ : p.signatures.get? m with
  | none =>
    rw [hsig₀] at hfirst hsecond
    rw [map_eq_none_iff.1 hfirst, map_eq_none_iff.1 hsecond]
    exact .none
  | some sig₀ =>
    rw [hsig₀] at hfirst hsecond
    obtain ⟨sig, hsig, hbare⟩ := map_eq_some_iff.1 hfirst
    obtain ⟨sig', hsig', hbare'⟩ := map_eq_some_iff.1 hsecond
    rw [hsig, hsig']
    exact .some (respelled_of_bare hbare hbare')

theorem Beside.enum_iff (m : String) :
    c.enum m ↔ ∃ sig, t.signatures.get? m = some sig ∧ sig.declares = .enum := by
  rw [halike.enum]
  constructor
  · rintro ⟨sig₀, hsig₀, henum⟩
    have hstatic := h.original.static m
    rw [hsig₀, map_some, map_eq_some_iff] at hstatic
    obtain ⟨sig, hsig, hbare⟩ := hstatic
    exact ⟨sig, hsig, (congrArg declares hbare).trans henum⟩
  · rintro ⟨sig, hsig, henum⟩
    obtain ⟨sig₀, hsig₀, hbare⟩ := h.original.exists_signature hsig
    exact ⟨sig₀, hsig₀, (congrArg declares hbare).trans henum⟩

variable {m : String}

theorem Beside.types (hp : p.Grounded) {sig : Signature} (hsig : t.signatures.get? m = some sig)
    (henum : sig.declares = .enum) : c.type m = c.name m ∧ c.type sig.name = c.name sig.name := by
  have hm := halike.type m ((h.enum_iff halike m).2 ⟨sig, hsig, henum⟩)
  obtain ⟨sig₀, hsig₀, hbare⟩ := h.original.exists_signature hsig
  have hname : sig.name = m := (congrArg name hbare).symm.trans (hp.keyed m sig₀ hsig₀)
  exact ⟨hm, hname ▸ hm⟩

theorem Beside.wanted (hkeeps : Keeps (start p) last) (hm : t.Wants m ∨ u.Wants (c.name m)) :
    p.Wanted m := by
  rcases hm with ⟨sig, hsig, hwanted⟩ | ⟨sig', hsig', hwanted⟩
  · obtain ⟨sig₀, hsig₀, hbare⟩ := h.original.exists_signature hsig
    have hdeclares : sig.declares = sig₀.declares := (congrArg declares hbare).symm
    have hparams : sig.hasParams = sig₀.hasParams := (congrArg hasParams hbare).symm
    exact wanted_of_isWanted hsig₀ hdeclares hparams (h.infers hkeeps hsig) hwanted
  · obtain ⟨sig₀', hsig₀', hbare⟩ := h.follows.original.exists_signature hsig'
    rw [halike.signatures] at hsig₀'
    obtain ⟨sig₀, hsig₀, rfl⟩ := map_eq_some_iff.1 hsig₀'
    have hdeclares : sig'.declares = sig₀.declares := (congrArg declares hbare).symm
    have hparams : sig'.hasParams = sig₀.hasParams :=
      (congrArg hasParams hbare).symm.trans (sig₀.hasParams_rename c)
    exact wanted_of_isWanted hsig₀ hdeclares hparams (h.follows.infers halike hkeeps hsig') hwanted

end Names

section Asking

variable [IsStrictOrder String lt] (hkeeps : Keeps (start p) last)

include hkeeps

variable {m : String} {R : Resolution}

/-- The types of names that come before a definition name functions that do. -/
theorem Beside.within (hp : p.Grounded) (h : Beside c lt p p' last (n :: opened) opened' room t u)
    (hm : p.Before lt n m) : (t.tyOf m).Within (p.Before lt n) := by
  cases hsig : t.signatures.get? m with
  | none =>
    simp only [State.tyOf, hsig]
    trivial
  | some sig =>
    obtain ⟨sig₀, hsig₀, -⟩ := h.original.exists_signature hsig
    have hwritten : sig₀.ty.Within (p.Before lt n) := (hp.ty m sig₀ hsig₀).mono fun _ => False.elim
    rcases h.original.finished_or m with ⟨hbegun, hclosed⟩ | hget
    · rw [← (h.agrees m hbegun hclosed).1]
      cases hunknown : sig₀.ty.isUnknown with
      | true =>
        have hinfers : p.Infers m := ⟨sig₀, hsig₀, hunknown⟩
        have hlt : lt m n := (hm hinfers.wanted).resolve_left fun heq =>
          hclosed (heq ▸ mem_cons_self)
        exact within_of_lt hlt (h.explained m hbegun hclosed).ty
      | false =>
        rw [tyOf_of_declared hkeeps hsig₀ hunknown]
        exact hwritten
    · rw [tyOf_of_get? (hget.trans hsig₀)]
      exact hwritten

/-- A name that the first analysis asks for, or need not ask for, has the type that this analysis
ends with then. -/
theorem Beside.ask_first (hopened : ∀ o ∈ opened, lt n o)
    (hR : ∀ {m t t'}, R m t t' → Explains c lt p p' last m t t' ∧ Agrees (n :: opened) t' last)
    (h : Beside c lt p p' last (n :: opened) opened' room t u) {b : Bool} {t₁ : State}
    (hm : b → lt m n) (hb : b = false → (t.tyOf m).isUnknown = false)
    (hasked : Asked R b m t t₁) :
    Beside c lt p p' last (n :: opened) opened' room t₁ u ∧ t₁.tyOf m = last.tyOf m ∧
      (b → t₁.hasBegun m ∧ t₁.valueOf? m = last.valueOf? m) := by
  cases b with
  | false =>
    cases hasked
    exact ⟨h, h.tyOf_eq hkeeps (hb rfl), nofun⟩
  | true =>
    obtain ⟨⟨-, -, hbegun, hexplains⟩, hagrees⟩ := hR hasked
    obtain ⟨horiginal, hexplained⟩ := hexplains (n :: opened) (lt_of_mem_cons hopened (hm rfl))
      h.original hagrees h.explained
    obtain ⟨hty, hvalue⟩ := hagrees m hbegun (not_mem_of_lt hopened (hm rfl))
    exact ⟨⟨horiginal, hagrees, hexplained, h.follows⟩, hty.symm, fun _ => ⟨hbegun, hvalue.symm⟩⟩

/-- A name that the second analysis asks for, or need not ask for, has the type that the first one
ends with then. -/
theorem Beside.ask_second (halike : AlikeDefinitions c lt p p') (hopened' : ∀ o ∈ opened', lt n o)
    (h : Beside c lt p p' last opened (n :: opened') room t u) {d : Bool} (hm : d → lt m n)
    (hexplained : d → Explained c lt p p' last m)
    (hd : d = false → (u.tyOf (c.name m)).isUnknown = false) :
    ∃ u₁, Asked (.of (resolve · room)) d (c.name m) u u₁ ∧
      Beside c lt p p' last opened (n :: opened') room t u₁ ∧
      u₁.tyOf (c.name m) = (last.tyOf m).rename c ∧
      (d → u₁.valueOf? (c.name m) = (last.valueOf? m).map (Value.rename c)) := by
  cases d with
  | false => exact ⟨u, rfl, h, h.follows.tyOf_eq halike hkeeps (hd rfl), nofun⟩
  | true =>
    obtain ⟨u₁, hrun, hfollows, hbegun⟩ := (hexplained rfl).replays (n :: opened')
      (lt_of_mem_cons hopened' (hm rfl)) room u h.follows
    obtain ⟨hty, hvalue⟩ := hfollows.answers m hbegun (not_mem_of_lt hopened' (hm rfl))
    exact ⟨u₁, hrun, { h with follows := hfollows }, hty, fun _ => hvalue⟩

omit [IsStrictOrder String lt] hkeeps in
theorem Beside.of_open (halike : AlikeDefinitions c lt p p')
    (h : Beside c lt p p' last (n :: opened) (n :: opened') room t u) :
    u.tyOf (c.name n) = (t.tyOf n).rename c ∧
      u.valueOf? (c.name n) = (t.valueOf? n).map (Value.rename c) ∧
      ∀ v, t.valueOf? n = some v → v.ty.Within (p.Before lt n) := by
  have hopen : n ∈ n :: opened := mem_cons_self
  have hopen' : c.name n ∈ (n :: opened').map c.name := List.mem_map_of_mem mem_cons_self
  have hty : u.tyOf (c.name n) = (t.tyOf n).rename c := by
    unfold State.tyOf
    rw [h.original.signatures n (.inr hopen), h.follows.original.signatures _ (.inr hopen'),
      halike.signatures]
    cases p.signatures.get? n <;> rfl
  refine ⟨hty, ?_⟩
  unfold State.valueOf?
  rw [h.original.identifiers n (.inr hopen), h.follows.original.identifiers _ (.inr hopen')]
  have hbodies := halike.identifiers n
  generalize p.identifiers.get? n = body? at hbodies ⊢
  generalize p'.identifiers.get? (c.name n) = body?' at hbodies ⊢
  cases hbodies with
  | none => exact ⟨rfl, nofun⟩
  | some hbody => exact hbody.value?_eq

/-- The second analysis simulates the first one while a definition is open in both. -/
theorem simulation_of_explains (hp : p.Grounded) (halike : AlikeDefinitions c lt p p')
    (hopened : ∀ o ∈ opened, lt n o) (hopened' : ∀ o ∈ opened', lt n o)
    (hR : ∀ {m t t'}, R m t t' → Explains c lt p p' last m t t' ∧ Agrees (n :: opened) t' last) :
    Simulation c (p.Before lt n) p.Wanted p.Infers
      (Beside c lt p p' last (n :: opened) (n :: opened') room) R (.of (resolve · room)) where
  static h := h.static halike
  enums h := h.enum_iff halike
  types h m sig := h.types halike hp
  noted h b v := ⟨h.original.noted b v, h.agrees.noted b v, by
    have hexplained := h.explained
    unfold State.noted
    split <;> exact hexplained, h.follows.noted b _⟩
  wanted h m := h.wanted halike hkeeps
  inferred h m sig' := h.follows.infers halike hkeeps
  within h m hm := h.within hkeeps hp hm
  keeps :=
    { refl := fun _ _ _ h _ => h
      trans := fun h h' k sig hsig hknown => h' k sig (h k sig hsig hknown) hknown
      notes := fun _ _ _ _ h _ => h
      asked := fun h => (hR h).1.grows.known }
  keeps' := carries_keeps room
  asked := by
    intro t u t₁ m b d h hm hwanted hinferred hb hd hasked
    by_cases hmn : m = n
    · -- What a definition asks of itself changes nothing, and it is not finished yet.
      subst hmn
      obtain ⟨hty, hvalue⟩ := h.of_open halike
      have hbegun := h.original.begun m mem_cons_self
      have hbegun' := h.follows.original.begun (c.name m) (List.mem_map_of_mem mem_cons_self)
      have hsame : t₁ = t := by
        cases b with
        | true => exact (hR hasked).1.idle hbegun
        | false => exact hasked
      have hasked' : Asked (.of (resolve · room)) d (c.name m) u u := by
        cases d with
        | true => exact resolve_of_begun hbegun' room
        | false => rfl
      rw [hsame]
      exact ⟨u, hasked', h, hty, fun _ _ => hvalue⟩
    have hlt : b = true ∨ d = true → lt m n := fun hbd => (hm (hwanted hbd)).resolve_left hmn
    obtain ⟨h₁, hty, hvalue⟩ := h.ask_first hkeeps hopened hR (fun h => hlt (.inl h)) hb hasked
    have hexplained : d = true → Explained c lt p p' last m := by
      intro hdt
      have hclosed := not_mem_of_lt hopened (hlt (.inr hdt))
      cases b with
      | true => exact h₁.explained m (hvalue rfl).1 hclosed
      | false =>
        -- The first analysis knows a type that was not declared, so it has finished the name.
        obtain ⟨sig₀, hsig₀, hunknown⟩ := hinferred rfl hdt
        rcases h.original.finished_or m with ⟨hbegun, hclosed⟩ | hget
        · exact h.explained m hbegun hclosed
        · have hknown := hb rfl
          rw [tyOf_of_get? (hget.trans hsig₀), hunknown] at hknown
          cases hknown
    obtain ⟨u₁, hasked', h₂, hty', hvalue'⟩ := h₁.ask_second hkeeps halike hopened'
      (fun h => hlt (.inr h)) hexplained hd
    refine ⟨u₁, hasked', h₂, by rw [hty', hty], fun hbt hdt => ⟨?_, fun v hv => ?_⟩⟩
    · rw [hvalue' hdt, (hvalue hbt).2]
    · rw [(hvalue hbt).2] at hv
      exact within_of_lt (hlt (.inl hbt)) ((hexplained hdt).value v hv)

end Asking

theorem paired_bodyScope (hp : p.Grounded) {sig : Signature} (hsig : p.signatures.get? n = some sig)
    (D : String → Prop) :
    Paired c D false (p.paramNames n) (bodyScope sig) (bodyScope (sig.rename c)) := by
  have hparams : p.paramNames n = sig.paramNames := by
    unfold Program.paramNames
    rw [hsig]
    rfl
  have hwithin : ∀ q ∈ sig.paramList, q.ty.Within D := fun q hq =>
    (hp.params n sig hsig q hq).mono fun _ => False.elim
  rw [hparams]
  refine ⟨binds_bodyScope sig, allowTime_withParams .top sig.paramList, ?_⟩
  unfold bodyScope
  rw [paramList_rename]
  exact scopeAlike_top.withParams hwithin

section Definitions

variable [IsStrictOrder String lt] (hp : p.Grounded) (halike : AlikeDefinitions c lt p p')
  (hkeeps : Keeps (start p) last)

/-- What is known of a definition that the first analysis has derived, on the way to its end, while
others are open. -/
structure Derivation (c : Respelling) (lt : String → String → Prop) (p p' : Program) (last : State)
    (n : String) (opened : List String) (sig : Signature) (body : Expr) (s : State) (body' : Expr)
    (s₁ : State) : Prop where
  signature : p.signatures.get? n = some sig
  definition : p.identifiers.get? n = some body
  later : ∀ o ∈ opened, lt n o
  original : Original p (n :: opened) s
  agrees : Agrees (n :: opened) s last
  explained : ∀ k, s.hasBegun k = true → k ∉ n :: opened → Explained c lt p p' last k
  derives : ∃ R : Resolution, Derives R (bodyScope sig) (bodyScope sig) body s body' s₁ ∧
    ∀ {m t t'}, R m t t' → Explains c lt p p' last m t t' ∧ Agrees (n :: opened) t' last

variable {sig : Signature} {body body' : Expr} {s s₁ : State}

include hp halike hkeeps

variable (h : Derivation c lt p p' last n opened sig body s body' s₁)

include h

/-- The derivation of a definition can be replayed while later ones are open. -/
theorem Derivation.replay
    (hopened' : ∀ o ∈ opened', lt n o) (hu : Follows c p' last (n :: opened') room u) :
    ∃ body₀ body₁ v, p'.identifiers.get? (c.name n) = some body₀ ∧
      Derives (.of (resolve · room)) (bodyScope (sig.rename c))
        (bodyScope (sig.rename c)) body₀ u body₁ v ∧
      Matches c (p.Before lt n) body' body₁ ∧
      Beside c lt p p' last (n :: opened) (n :: opened') room s₁ v := by
  obtain ⟨R, hderives, hR⟩ := h.derives
  have hbodies := halike.identifiers n
  rw [h.definition] at hbodies
  obtain ⟨body₀, hbody₀, hbody⟩ := exists_of_optionRel_some hbodies
  have hscope := paired_bodyScope (c := c) hp h.signature (p.Before lt n)
  obtain ⟨body₁, v, hderives', hmatches, hbeside⟩ := hderives.alike
    (simulation_of_explains hkeeps hp halike h.later hopened' hR) hscope hscope hbody
    ⟨h.original, h.agrees, h.explained, hu⟩
  exact ⟨body₀, body₁, v, hbody₀, hderives', hmatches, hbeside⟩

variable {e : Expr}

theorem Derivation.explained_self
    (haccept : accept sig body' = .ok e)
    (hty : last.tyOf n = if sig.ty.isUnknown then e.ty else sig.ty)
    (hvalue : last.valueOf? n = e.value?) (hmatches : body'.Within (p.Before lt n)) :
    Explained c lt p p' last n := by
  have hwritten : sig.ty.Within (p.Before lt n) :=
    (hp.ty n sig h.signature).mono fun _ => False.elim
  obtain ⟨-, he⟩ := accept_eq_ok_iff.1 haccept
  have hwithin : (last.tyOf n).Within (p.Before lt n) ∧
      ∀ v, last.valueOf? n = some v → v.ty.Within (p.Before lt n) := by
    rw [hty, hvalue]
    cases hunknown : sig.ty.isUnknown with
    | true =>
      rw [hunknown] at he
      subst he
      exact ⟨hmatches.ty, hmatches.value⟩
    | false =>
      rw [hunknown] at he
      refine ⟨hwritten, fun v hv => ?_⟩
      rw [he.2] at hv
      unfold Expr.convertTo at hv
      cases hv' : body'.value? with
      | none =>
        rw [hv'] at hv
        exact absurd (hv'.symm.trans hv) nofun
      | some w =>
        rw [hv'] at hv
        cases hv
        exact Value.over_convert hwritten (hmatches.value w hv')
  refine ⟨fun opened' hopened' room u hu => ?_, hwithin.1, hwithin.2⟩
  cases hbegun : u.hasBegun (c.name n) with
  | true => exact ⟨u, resolve_of_begun hbegun room, hu, hbegun⟩
  | false =>
    have hsig' : p'.signatures.get? (c.name n) = some (sig.rename c) := by
      rw [halike.signatures, h.signature]
      rfl
    have hdefined : p'.Defines (c.name n) := by
      have hbodies := halike.identifiers n
      rw [h.definition] at hbodies
      obtain ⟨body₀, hbody₀, -⟩ := exists_of_optionRel_some hbodies
      exact NameMap.contains_eq_true_iff.2 ⟨body₀, hbody₀⟩
    obtain ⟨room, rfl⟩ := hu.exists_room hbegun hdefined
    obtain ⟨body₀, body₁, v, hbody₀, hderives, hmatches', hbeside⟩ :=
      h.replay hp halike hkeeps hopened' (hu.begin hbegun hdefined)
    obtain ⟨e', haccept', hrespelled⟩ := accept_respelled c.injective hmatches'.respelled haccept
    have hstate := hderives.relates (carries_grows fun h => (grows_of_resolve h).1)
    have hbegun' : v.hasBegun (c.name n) = true :=
      hstate.progress.begun _ (by simp [contains_begin])
    have hopen : n ∉ opened' := fun hn => irrefl_of lt n (hopened' n hn)
    refine ⟨record v (c.name n) (sig.rename c) e', resolve_succ_eq_ok_iff.2 (.inr
      ⟨hbegun, _, body₀, body₁, e', v, ?_, ?_, hderives, haccept', rfl⟩),
      hbeside.follows.record hopen hbegun' hsig' ?_ ?_, hbegun'⟩
    · rw [hu.original.signatures _ (.inl hbegun), hsig']
    · rw [hu.original.identifiers _ (.inl hbegun), hbody₀]
    · have hsame : (sig.rename c).ty = sig.ty.rename c := rfl
      rw [hty, hsame, Ty.isUnknown_rename, hrespelled.ty]
      split <;> rfl
    · rw [hvalue, hrespelled.value]

theorem Derivation.explained_record
    (haccept : accept sig body' = .ok e) (hbegun : s₁.hasBegun n)
    (hagrees : Agrees opened (record s₁ n sig e) last) :
    Original p opened (record s₁ n sig e) ∧
      ∀ k, s₁.hasBegun k → k ∉ opened → Explained c lt p p' last k := by
  have hopen : n ∉ opened := fun hn => irrefl_of lt n (h.later n hn)
  have hdefined : p'.Defines (c.name n) := by
    have hbodies := halike.identifiers n
    rw [h.definition] at hbodies
    obtain ⟨body₀, hbody₀, -⟩ := exists_of_optionRel_some hbodies
    exact NameMap.contains_eq_true_iff.2 ⟨body₀, hbody₀⟩
  -- The derivation is replayed at the very start to see what has been asked for in it.
  have hstart := follows_start c p' last
  have hfresh : (start p').hasBegun (c.name n) = false := rfl
  obtain ⟨room, hroom⟩ := hstart.exists_room hfresh hdefined
  rw [hroom] at hstart
  obtain ⟨_, _, v, -, -, hmatches, hbeside⟩ :=
    h.replay hp halike hkeeps (forall_mem_nil _) (hstart.begin hfresh hdefined)
  refine ⟨hbeside.original.record hopen hbegun h.signature e, fun k hk hclosed => ?_⟩
  by_cases hkn : k = n
  · subst hkn
    obtain ⟨hty, hvalue⟩ := hagrees k hbegun hopen
    refine h.explained_self hp halike hkeeps haccept ?_ (hvalue.trans valueOf?_record_self)
      hmatches.within
    rw [hty]
    cases hunknown : sig.ty.isUnknown with
    | true => exact tyOf_record_self hunknown
    | false =>
      rw [tyOf_record_of_known hunknown]
      exact tyOf_of_get? ((hbeside.original.signatures k (.inr (by simp))).trans h.signature)
  · exact hbeside.explained k hk (mt mem_cons.1 (not_or.2 ⟨hkn, hclosed⟩))

omit h

theorem explains_of_resolve {k : Nat} {s' : State} (h : resolve n k s = .ok () s') :
    Explains c lt p p' last n s s' := by
  refine (resolve_induction
    (P := fun n s s' => Resolves n s s' ∧ Explains c lt p p' last n s s') ?_ ?_ h).2
  · intro n s hn
    exact ⟨⟨.refl s, hn, fun _ => .refl s⟩, .refl s, fun _ => rfl, hn,
      fun _ _ horiginal _ hexplained => ⟨horiginal, hexplained⟩⟩
  · intro R n s sig body body' e s₁ hR hn hsig hbody hderives haccept
    have hresolves := resolves_record (fun h => (hR _ _ _ h).1) hn hsig hbody hderives haccept
    have hcarries : Carries R Grows := carries_grows fun h => (hR _ _ _ h).2.grows
    have hgrows : Grows (begin s n) s₁ := hderives.relates hcarries
    have hbegun : s₁.hasBegun n = true := hgrows.progress.begun n (by simp [contains_begin])
    refine ⟨hresolves, .record hn hsig hgrows hresolves.progress,
      fun h => by simp [hn] at h, hbegun, fun opened hopened horiginal hagrees hexplained => ?_⟩
    have hagrees₁ : Agrees (n :: opened) s₁ last := hagrees.of_record
    -- What is asked for in the derivation agrees with the end, as the rest of it leaves it alone.
    have htransfer : Transfer R (fun m t t' => R m t t' ∧ Grows t' s₁) Eq Grows s₁ :=
      { carries := hcarries
        same := fun h => h ▸ .refl _
        noted := fun h _ _ => h ▸ rfl
        asked := fun {m t t' u} h hlast heq => ⟨t', heq ▸ ⟨h, hlast⟩, rfl⟩ }
    obtain ⟨_, hderives₁, rfl⟩ := hderives.transfer htransfer (.refl s₁) rfl
    have hderivation : Derivation c lt p p' last n opened sig body (begin s n) body' s₁ :=
      { signature := (horiginal.signatures n (.inl hn)).symm.trans hsig
        definition := (horiginal.identifiers n (.inl hn)).symm.trans hbody
        later := hopened
        original := horiginal.begin hn
        agrees := hagrees₁.of_grows hgrows
        explained := fun k hk hclosed => by
          obtain ⟨hkn, hclosed⟩ := not_or.1 (mt mem_cons.2 hclosed)
          rw [contains_begin, Bool.or_eq_true, decide_eq_true_eq] at hk
          exact hexplained k (hk.resolve_left hkn) hclosed
        derives := ⟨_, hderives₁, fun h => ⟨(hR _ _ _ h.1).2, hagrees₁.of_grows h.2⟩⟩ }
    exact hderivation.explained_record hp halike hkeeps haccept hbegun hagrees

omit hkeeps in
/-- All definitions that an analysis finishes are explained by where it ends. -/
theorem explained_of_forM {names : List String}
    (h : names.forM resolveAny (start p) = .ok () last) :
    Original p [] last ∧ ∀ k, last.hasBegun k → Explained c lt p p' last k := by
  have hkeeps : Keeps (start p) last := (grows_of_forM h).known
  have hforM : ∀ (names : List String) (s : State), names.forM resolveAny s = .ok () last →
      Original p [] s → (∀ k, s.hasBegun k = true → Explained c lt p p' last k) →
      Original p [] last ∧ ∀ k, last.hasBegun k = true → Explained c lt p p' last k := by
    intro names
    induction names with
    | nil =>
      intro s h horiginal hexplained
      obtain ⟨-, rfl⟩ := pure_eq_ok_iff.1 h
      exact ⟨horiginal, hexplained⟩
    | cons n names ih =>
      intro s h horiginal hexplained
      obtain ⟨_, s₁, hfirst, hrest⟩ := bind_eq_ok_iff.1 h
      have hexplains := explains_of_resolve hp halike hkeeps hfirst
      have hagrees : Agrees [] s₁ last := by
        intro k hk _
        have hgrows := grows_of_forM hrest
        exact ⟨hgrows.tyOf_eq hk, hgrows.valueOf?_eq hk⟩
      obtain ⟨horiginal₁, hexplained₁⟩ := hexplains.explains [] (forall_mem_nil _) horiginal
        hagrees fun k hk _ => hexplained k hk
      exact ih s₁ hrest horiginal₁ fun k hk => hexplained₁ k hk not_mem_nil
  exact hforM names (start p) h (original_start p) nofun

end Definitions

end Simulations

end Typing

end Diagram
