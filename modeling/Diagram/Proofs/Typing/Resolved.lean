import Diagram.Proofs.Typing.Inferred

/-!
# Analysis of programs that were read

A definition is analyzed when it is first needed, and there is always room to begin it: more room
makes no difference.  The analysis of a program that was read from tokens ends with a program that
is analyzed in all of its parts, or with a failure at a place of the source.

Main statements: `outcome_resolve`, `resolveAny_eq_visit`, `analyze_outcome`.
-/

namespace Diagram.Typing

open List

variable {tokens : List Token} {p : Program} {k : Nat}

section Definitions

variable {sig : Signature} {body : Expr}

theorem ruled_accept {D : String → Prop} (hty : sig.ty.Within D) (hbody : body.Analyzed tokens D) :
    Ruled (Area.Among tokens) (accept sig body) (Expr.Analyzed tokens D) := by
  unfold accept
  dsimp only
  split
  · exact hbody.area
  · split
    · exact hbody.area
    · split
      · exact hbody
      · refine .bind (ruled_requireCoercion hbody.area) fun _ _ => ?_
        split
        · rename_i v hv
          exact .literal hbody.area (Value.over_convert hty (hbody.value hv))
        · exact hbody

variable {s : State} {name : String}

theorem begun_of_pendingCount_eq_zero (hname : p.Defines name) (h : pendingCount p s = 0) :
    s.hasBegun name := by
  have hnil := filter_eq_nil_iff.1 (length_eq_zero_iff.1 h)
  simpa using hnil name (NameMap.mem_names_iff.2 hname)

def begin (s : State) (name : String) : State :=
  { s with begun := name :: s.begun }

theorem contains_begin (s : State) (name n : String) :
    (begin s name).hasBegun n = (decide (n = name) || s.hasBegun n) :=
  contains_cons

theorem pendingCount_begin (hname : p.Defines name) (hbegun : s.hasBegun name = false) :
    pendingCount p (begin s name) < pendingCount p s := by
  have hfilter : (p.identifiers.names.filter fun n => !(begin s name).hasBegun n) =
      (p.identifiers.names.filter fun n => !s.hasBegun n).filter fun n =>
        !decide (n = name) := by
    rw [filter_filter]
    congr 1
    funext n
    rw [contains_begin, Bool.not_or]
  unfold pendingCount
  rw [hfilter]
  refine length_filter_lt_length_iff_exists.2 ⟨name, ?_, by simp⟩
  exact mem_filter.2 ⟨NameMap.mem_names_iff.2 hname, by simp [hbegun]⟩

theorem consistent_begin (hs : Consistent tokens p (k + 1) s) (hname : p.Defines name)
    (hbegun : s.hasBegun name = false) : Consistent tokens p k (begin s name) :=
  { hs with
    raw := by
      intro n e he hn
      rw [contains_begin, Bool.or_eq_false_iff] at hn
      exact hs.raw n e he hn.2
    pending := by
      have hless := pendingCount_begin hname hbegun
      have hroom := hs.pending
      omega
    orderly := by
      have hnew : name ∉ s.begun := by simpa [State.hasBegun] using hbegun
      exact ⟨nodup_cons.2 ⟨hnew, hs.orderly.nodup⟩, forall_mem_cons.2 ⟨hname, hs.orderly.defined⟩⟩ }

def record (s : State) (name : String) (sig : Signature) (body : Expr) : State :=
  { s with
    identifiers := s.identifiers.insert name body
    signatures :=
      if sig.ty.isUnknown then s.signatures.insert name { sig with ty := body.ty }
      else s.signatures }

theorem consistent_record (hs : Consistent tokens p k s) (hname : p.Defines name)
    (hbegun : s.hasBegun name) (hsig : sig.Backed p.Defines name)
    (hbody : body.Analyzed tokens p.Defines) :
    Consistent tokens p k (record s name sig body) where
  names := by
    obtain ⟨e, he⟩ := hs.defined hname
    have hcontains := NameMap.contains_eq_true_iff.2 ⟨e, he⟩
    exact (NameMap.names_insert hcontains body).trans hs.names
  signed n hn := by
    unfold record
    split
    · exact NameMap.contains_insert_of_contains _ (hs.signed n hn)
    · exact hs.signed n hn
  backed n sig' hget := by
    unfold record at hget
    split at hget
    · refine NameMap.forall_get?_insert hs.backed ?_ n sig' hget
      exact { hsig with ty := hbody.ty }
    · exact hs.backed n sig' hget
  raw n e he hn := by
    -- The recorded definition has begun, so it need not be as it was read.
    have hne : n ≠ name := by
      rintro rfl
      exact Bool.eq_false_iff.1 hn hbegun
    exact hs.raw n e (by simpa [record, NameMap.get?_insert, hne] using he) hn
  constants n e v he hv := by
    have hget : (s.identifiers.insert name body).get? n = some e := he
    rw [NameMap.get?_insert] at hget
    split at hget
    · cases hget
      exact hbody.value hv
    · exact hs.constants n e v hget hv
  pending := hs.pending
  orderly := hs.orderly

theorem advances_record (hbegun : s.hasBegun name = false) {s' : State}
    (h : Advances tokens p (begin s name) s') (hbody : body.Analyzed tokens p.Defines) :
    Advances tokens p s (record s' name sig body) where
  begun n hn := h.begun n (by simp [contains_begin, hn])
  frozen n hn := by
    have hne : n ≠ name := by
      rintro rfl
      simp [hbegun] at hn
    have hfrozen := h.frozen n (by simp [contains_begin, hn])
    change (s'.identifiers.insert name body).get? n = s.identifiers.get? n
    rw [NameMap.get?_insert, if_neg hne]
    exact hfrozen
  finished n hn hn' := by
    change ∃ e, (s'.identifiers.insert name body).get? n = some e ∧ e.Analyzed tokens p.Defines
    rw [NameMap.get?_insert]
    by_cases hname : n = name
    · exact ⟨body, if_pos hname, hbody⟩
    · rw [if_neg hname]
      exact h.finished n (by simp [contains_begin, hname, hn]) hn'

theorem run_of_begun (hbegun : s.hasBegun name) (next : Check Unit) :
    (if s.hasBegun name = true then pure () else next : Check Unit) s = .ok () s := by
  rw [if_pos hbegun]
  rfl

theorem visit_of_begun (hbegun : s.hasBegun name) (r : String → Check Unit) :
    visit r name s = .ok () s :=
  run_of_begun hbegun _

theorem resolve_of_begun (hbegun : s.hasBegun name) (k : Nat) : resolve name k s = .ok () s := by
  cases k with
  | zero => exact run_of_begun hbegun _
  | succ k => exact visit_of_begun hbegun _

def inferBody (r : String → Check Unit) (sig : Signature) (body : Expr) : Check Expr := do
  let scope := Scope.top.withParams sig.paramList
  let body ← infer r scope scope body
  follow (accept sig body)

theorem visit_of_not_begun (hbegun : s.hasBegun name = false)
    (hsig : s.signatures.get? name = some sig) (hbody : s.identifiers.get? name = some body)
    (r : String → Check Unit) :
    visit r name s = (inferBody r sig body >>= define name sig) (begin s name) := by
  have hbegin : (modify fun s => { s with begun := name :: s.begun } : Check Unit) s =
      .ok () (begin s name) := rfl
  have hsig' : signature? name (begin s name) = .ok (some sig) (begin s name) :=
    congrArg (EStateM.Result.ok · (begin s name)) hsig
  have hbody' : (begin s name).identifiers.get? name = some body := hbody
  have hget : (get : Check State) (begin s name) = .ok (begin s name) (begin s name) := rfl
  unfold visit inferBody
  simp only [bind_assoc]
  change (if s.hasBegun name = true then pure () else _ : Check Unit) s = _
  rw [if_neg (by simp [hbegun])]
  rw [bind_of_ok hbegin, bind_of_ok hsig']
  dsimp only
  rw [bind_of_ok hget, hbody']

variable (hp : p.Shaped tokens)

include hp

theorem sound_inferBody {r r' : String → Check Unit} (hr : Answers tokens p k r r')
    (hsig : sig.Backed p.Defines name) (hbody : body.Shaped tokens) :
    Concurs tokens p k (inferBody r sig body) (inferBody r' sig body)
      (Expr.Analyzed tokens p.Defines) := by
  have hscope : (Scope.top.withParams sig.paramList).Within p.Defines :=
    Scope.over_top.withParams hsig.params
  refine .bind ((infers_of_shaped hp hr hbody).1 _ _ hscope hscope) fun e he => ?_
  exact .follow (ruled_accept hsig.ty he)

/-- To begin a definition takes some of the room for definitions.  It is analyzed, or it fails at a
place of the source. -/
theorem outcome_visit {r r' : String → Check Unit} (hr : Answers tokens p k r r')
    (hname : p.Defines name) (hs : Consistent tokens p (k + 1) s) :
    visit r' name s = visit r name s ∧
      Outcome tokens p (k + 1) s (fun _ s' => s'.hasBegun name) (visit r name s) := by
  cases hbegun : s.hasBegun name with
  | true =>
    rw [visit_of_begun hbegun, visit_of_begun hbegun]
    exact ⟨rfl, hs, .refl s, hbegun⟩
  | false =>
    obtain ⟨body, hbody⟩ := hs.defined hname
    obtain ⟨sig, hsig⟩ := hs.signature (hp.signed name hname)
    have hbacked := hs.backed name sig hsig
    obtain ⟨hsame, hrun⟩ := sound_inferBody hp hr hbacked (hs.raw name body hbody hbegun)
      (begin s name) (consistent_begin hs hname hbegun)
    rw [visit_of_not_begun hbegun hsig hbody, visit_of_not_begun hbegun hsig hbody]
    cases hresult : inferBody r sig body (begin s name) with
    | error e s' =>
      rw [bind_of_error hresult, bind_of_error (hsame.trans hresult)]
      rw [hresult] at hrun
      exact ⟨rfl, hrun⟩
    | ok e s' =>
      rw [bind_of_ok hresult, bind_of_ok (hsame.trans hresult)]
      rw [hresult] at hrun
      obtain ⟨hs', hadvances, he⟩ := hrun
      have hbegun' : s'.hasBegun name = true := hadvances.begun name (by simp [contains_begin])
      refine ⟨rfl, ?_, advances_record hbegun hadvances he, hbegun'⟩
      exact (consistent_record hs' hname hbegun' hbacked he).mono (Nat.le_succ k)

/-- A definition that is needed is analyzed, or fails at a place of the source, and more room
makes no difference. -/
theorem outcome_resolve (hname : p.Defines name) (hs : Consistent tokens p k s) {k' : Nat}
    (hk : k ≤ k') : resolve name k' s = resolve name k s ∧
      Outcome tokens p k s (fun _ s' => s'.hasBegun name) (resolve name k s) := by
  -- The induction is on the room for definitions; without room every definition has begun.
  induction k generalizing name s k' with
  | zero =>
    have hbegun : s.hasBegun name = true :=
      begun_of_pendingCount_eq_zero hname (Nat.le_zero.1 hs.pending)
    rw [resolve_of_begun hbegun, resolve_of_begun hbegun]
    exact ⟨rfl, hs, .refl s, hbegun⟩
  | succ k ih =>
    obtain ⟨j, rfl⟩ : ∃ j, k' = j + 1 := ⟨k' - 1, by omega⟩
    have hr : Answers tokens p k (resolve · k) (resolve · j) := by
      intro n hn t ht
      obtain ⟨hsame, hrun⟩ := ih hn ht (Nat.le_of_succ_le_succ hk)
      exact ⟨hsame, hrun.mono fun _ _ _ => trivial⟩
    exact outcome_visit hp hr hname hs

omit hp in
theorem resolveAny_eq (hs : Consistent tokens p k s) (name : String) :
    resolveAny name s = resolve name p.identifiers.size s := by
  have hlength := congrArg List.length hs.names
  have hsize : s.identifiers.size = p.identifiers.size := by
    simpa [NameMap.names, NameMap.size] using hlength
  rw [← hsize]
  rfl

theorem outcome_resolveAny (hname : p.Defines name)
    (hs : Consistent tokens p p.identifiers.size s) :
    Outcome tokens p p.identifiers.size s (fun _ s' => s'.hasBegun name) (resolveAny name s) := by
  rw [resolveAny_eq hs]
  exact (outcome_resolve hp hname hs (Nat.le_refl _)).2

/-- The analysis of a definition visits it once, and the definitions that it needs in the same
way. -/
theorem resolveAny_eq_visit (hname : p.Defines name)
    (hs : Consistent tokens p p.identifiers.size s) :
    resolveAny name s = visit resolveAny name s := by
  obtain ⟨k, hk⟩ : ∃ k, p.identifiers.size = k + 1 := by
    have hlength := length_pos_of_mem (NameMap.mem_names_iff.2 hname)
    simpa [NameMap.names, NameMap.size] using hlength
  have hr : Answers tokens p k (resolve · k) resolveAny := by
    intro n hn t ht
    obtain ⟨hsame, hrun⟩ := outcome_resolve hp hn ht (Nat.le_succ k)
    rw [resolveAny_eq ht, hk]
    exact ⟨hsame, hrun.mono fun _ _ _ => trivial⟩
  rw [resolveAny_eq hs, hk]
  exact (outcome_visit hp hr hname (hk ▸ hs)).1.symm

theorem sound_resolveAny : Answers tokens p p.identifiers.size resolveAny resolveAny :=
  fun _ hn _ hs => ⟨rfl, (outcome_resolveAny hp hn hs).mono fun _ _ _ => trivial⟩

end Definitions

section Parts

variable (hp : p.Shaped tokens)

include hp

variable {scope : Scope} {Q : Action → Prop} {a : Action}

theorem sound_inferIn (hscope : scope.Within p.Defines) {e : Expr} (he : e.Shaped tokens) :
    Sound tokens p p.identifiers.size (inferIn scope e) (Expr.Analyzed tokens p.Defines) :=
  (infers_of_shaped hp (sound_resolveAny hp) he).1 scope scope hscope hscope

omit hp in
theorem sound_inferActions {actions : List Action}
    (h : ∀ a ∈ actions, Sound tokens p k (inferAction scope a) Q) :
    Sound tokens p k (inferActions scope actions) fun actions' => ∀ a ∈ actions', Q a := by
  induction actions with
  | nil =>
    exact .pure (by simp)
  | cons a actions ih =>
    obtain ⟨ha, hactions⟩ := forall_mem_cons.1 h
    refine .bind ha fun a' ha' => .bind (ih hactions) fun rest hrest => .pure ?_
    exact forall_mem_cons.2 ⟨ha', hrest⟩

theorem sound_inferArms (hscope : scope.Within p.Defines) {arms : List (Expr × Action)}
    (hconditions : ∀ arm ∈ arms, arm.1.Shaped tokens)
    (hbodies : ∀ arm ∈ arms, Sound tokens p p.identifiers.size (inferAction scope arm.2) Q) :
    Sound tokens p p.identifiers.size (inferArms scope arms) fun arms' =>
      (∀ arm ∈ arms', arm.1.Analyzed tokens p.Defines) ∧ ∀ arm ∈ arms', Q arm.2 := by
  induction arms with
  | nil =>
    exact .pure ⟨by simp, by simp⟩
  | cons arm arms ih =>
    obtain ⟨hcondition, hconditions⟩ := forall_mem_cons.1 hconditions
    obtain ⟨hbody, hbodies⟩ := forall_mem_cons.1 hbodies
    refine .bind (sound_inferIn hp hscope hcondition) fun condition' hcondition' => ?_
    refine .bind (.follow (ruled_requireCoercion hcondition'.area)) fun _ _ => ?_
    refine .bind hbody fun body' hbody' => ?_
    refine .bind (ih hconditions hbodies) fun rest hrest => .pure ⟨?_, ?_⟩
    · exact forall_mem_cons.2 ⟨hcondition', hrest.1⟩
    · exact forall_mem_cons.2 ⟨hbody', hrest.2⟩

/-- Every action that was read is analyzed or refused at a place of the source. -/
theorem sound_inferAction (hscope : scope.Within p.Defines) (ha : a.Whole (Expr.Shaped tokens)) :
    Sound tokens p p.identifiers.size (inferAction scope a)
      (Action.Whole (Expr.Analyzed tokens p.Defines)) := by
  induction ha with
  | block _ ih =>
    exact .bind (sound_inferActions ih) fun actions' hactions' =>
      .pure (.block hactions')
  | update htarget hvalue =>
    refine .bind (sound_updateTarget (sound_resolveAny hp) scope htarget.area) fun _ ht => ?_
    refine .bind (sound_inferIn hp hscope hvalue) fun value' hvalue' => ?_
    refine .bind (.follow (ruled_requireCoercion hvalue'.area)) fun _ _ => ?_
    exact .pure (.update ht hvalue')
  | call hcallee hargs =>
    refine .bind (sound_actionSignature scope hcallee.area _) fun sig hsig => ?_
    obtain ⟨⟨info, n, rfl⟩, hcount⟩ := hsig
    have hinfers := fun e he => (infers_of_shaped hp (sound_resolveAny hp) (hargs e he)).1
    refine .bind (sound_inferArgs hscope hinfers _ _ hcount) fun args' hargs' => .pure ?_
    exact .call (.name hcallee.area (Ty.within_action _ sig.name)) hargs'
  | conditional hconditions _ ih =>
    refine .bind (sound_inferArms hp hscope hconditions ih) fun arms' harms' => ?_
    exact .pure (.conditional harms'.1 harms'.2)
  | conditionalElse hconditions _ hdefault ih ihdefault =>
    unfold inferAction
    refine .bind (sound_inferArms hp hscope hconditions ih) fun arms' harms' => ?_
    split
    · nomatch hdefault
    · refine .bind ihdefault fun default' hdefault' => ?_
      exact .pure (.conditionalElse harms'.1 harms'.2 hdefault')

theorem sound_inferNamedAction {name : String} (hget : p.actions.get? name = some a) :
    Sound tokens p p.identifiers.size (inferNamedAction name a)
      (Action.Whole (Expr.Analyzed tokens p.Defines)) := by
  have hcontains := hp.actionSigned name (NameMap.contains_eq_true_iff.2 ⟨a, hget⟩)
  refine .bind (sound_signature?_of_contains hcontains) fun sig? hsig => ?_
  obtain ⟨sig, rfl, hbacked⟩ := hsig
  have hscope : (Scope.top.withParams sig.paramList).Within p.Defines :=
    Scope.over_top.withParams hbacked.params
  exact sound_inferAction hp hscope (hp.actions name a hget)

def TickerAnalyzed (tokens : List Token) (D : String → Prop) (t : Ticker) : Prop :=
  (∀ e, t.interval = some e → e.Analyzed tokens D) ∧ t.action.Whole (Expr.Analyzed tokens D)

theorem sound_inferTicker {t : Ticker} (ht : p.ticker = some t) :
    Sound tokens p p.identifiers.size (inferTicker t) (TickerAnalyzed tokens p.Defines) := by
  have hinterval : ∀ e, t.interval = some e → Sound tokens p p.identifiers.size (do
      let e ← inferIn .top e
      follow (requireCoercion e .real)
      return e) (Expr.Analyzed tokens p.Defines) := by
    intro e he
    refine .bind (sound_inferIn hp Scope.over_top (hp.interval t e ht he)) fun e' he' => ?_
    refine .bind (.follow (ruled_requireCoercion he'.area)) fun _ _ => ?_
    exact .pure he'
  have hscope : Scope.Within p.Defines { Scope.top with allowTime := true } := Scope.over_top
  refine .bind (sound_optionMapM hinterval) fun interval' hinterval' => ?_
  refine .bind (sound_inferAction hp hscope (hp.tick t ht)) fun action' haction' => ?_
  exact .pure ⟨hinterval', haction'⟩

theorem sound_inferQuantity {q : Option Expr} (hq : Given (Expr.Quantity tokens) q) :
    Sound tokens p p.identifiers.size (inferQuantity q) (Given Expr.Ready) := by
  obtain ⟨e, rfl, he | ⟨x, rfl⟩⟩ := hq
  · refine .bind (sound_inferIn hp Scope.over_top he) fun e' he' => ?_
    exact .pure ⟨e', rfl, he'.ready⟩
  · exact .pure ⟨_, rfl, .literal⟩

theorem sound_inferElement {e : Element}
    (he : e.Whole (Expr.Quantity tokens) (Expr.Shaped tokens)) :
    Sound tokens p p.identifiers.size (inferElement e) (Element.Whole Expr.Ready Expr.Ready) := by
  obtain ⟨hquantities, hclick⟩ := Element.whole_iff.1 he
  have hact : ∀ a, e.click = some a → Sound tokens p p.identifiers.size (inferAction .top a)
      (Action.Whole Expr.Ready) :=
    fun a ha => (sound_inferAction hp Scope.over_top (hclick a ha)).mono
      fun _ hwhole => hwhole.mono fun _ => Expr.Analyzed.ready
  unfold inferElement
  rw [Element.traverse_eq]
  refine .bind (sound_mapM fun q hq => sound_inferQuantity hp (hquantities q hq))
    fun qs hqs => ?_
  refine .bind (sound_optionMapM hact) fun click hclick => .pure ?_
  rw [Element.whole_iff, Element.quantities_refill hqs.1]
  exact ⟨hqs.2, hclick⟩

theorem outcome_resolveAll {names : List String} (hnames : ∀ n ∈ names, p.Defines n) {s : State}
    (hs : Consistent tokens p p.identifiers.size s) :
    Outcome tokens p p.identifiers.size s
      (fun _ s' => ∀ n ∈ names, s'.hasBegun n) (names.forM resolveAny s) := by
  induction names generalizing s with
  | nil => exact ⟨hs, .refl s, by simp⟩
  | cons n names ih =>
    obtain ⟨hn, hnames⟩ := forall_mem_cons.1 hnames
    refine outcome_bind (outcome_resolveAny hp hn hs) fun _ s₁ hs₁ _ hbegun => ?_
    refine (ih hnames hs₁).reached.mono fun _ s₂ h => ?_
    obtain ⟨hrest, -, hadvances⟩ := h
    exact forall_mem_cons.2 ⟨hadvances.begun n hbegun, hrest⟩

end Parts

section Programs

theorem consistent_start (hp : p.Shaped tokens) :
    Consistent tokens p p.identifiers.size (start p) where
  names := rfl
  signed _ hn := hn
  backed := hp.signatures
  raw n e he _ := hp.identifiers n e he
  constants n e v he hv := by
    cases hp.identifiers n e he with
    | literal _ hitem =>
      cases hv
      exact Value.over_of_isPlain hitem
    | _ => cases hv
  pending := by
    refine Nat.le_trans (length_filter_le _ _) ?_
    simp [NameMap.names, NameMap.size]
  orderly := ⟨nodup_nil, nofun⟩

/-- What a program `q` is put together from at the end of the analysis of `p`. -/
structure Assembled (p q : Program) (s : State) : Prop where
  signatures : q.signatures = s.signatures
  identifiers : q.identifiers = s.identifiers
  actions : ∀ n a, q.actions.get? n = some a → p.actions.contains n = true ∧ a.Whole Expr.Ready
  entries : ∀ es, q.entries = some es → ∀ e ∈ es, e.Ready
  interval : ∀ t e, q.ticker = some t → t.interval = some e → e.Ready
  tick : ∀ t, q.ticker = some t → t.action.Whole Expr.Ready
  display : ∀ es, q.display = some es → ∀ e ∈ es, e.Whole Expr.Ready Expr.Ready

theorem Assembled.ready (hp : p.Shaped tokens) {q : Program} {s : State} (h : Assembled p q s)
    (hs : Consistent tokens p k s) (hadvances : Advances tokens p (start p) s)
    (hbegun : ∀ n ∈ p.identifiers.names, s.hasBegun n) : q.Ready where
  signed n hn := by
    have hdefines : n ∈ p.identifiers.names :=
      hs.names ▸ NameMap.mem_names_iff.2 (h.identifiers ▸ hn)
    rw [h.signatures]
    exact hs.signed n (hp.signed n (NameMap.mem_names_iff.1 hdefines))
  actionSigned n hn := by
    obtain ⟨a, ha⟩ := NameMap.contains_eq_true_iff.1 hn
    rw [h.signatures]
    exact hs.signed n (hp.actionSigned n (h.actions n a ha).1)
  identifiers n e he := by
    rw [h.identifiers] at he
    have hname : n ∈ p.identifiers.names :=
      hs.names ▸ NameMap.mem_names_iff.2 (NameMap.contains_eq_true_iff.2 ⟨e, he⟩)
    obtain ⟨e', he', hanalyzed⟩ := hadvances.finished n rfl (hbegun n hname)
    rw [he] at he'
    cases he'
    exact hanalyzed.ready
  actions n a ha := (h.actions n a ha).2
  entries := h.entries
  interval := h.interval
  tick := h.tick
  display := h.display

/-- The analysis gives a program that is ready, after it has begun all definitions, or it finds a
fault at a place. -/
theorem outcome_inferProgram (hp : p.Shaped tokens) :
    Outcome tokens p p.identifiers.size (start p)
      (fun q s => q.Ready ∧ ∀ n ∈ p.identifiers.names, s.hasBegun n)
      (inferProgram p (start p)) := by
  have hnames : ∀ n ∈ p.identifiers.names, p.Defines n := fun n hn => NameMap.mem_names_iff.1 hn
  have haction : ∀ n a, p.actions.get? n = some a → Sound tokens p p.identifiers.size
      (inferNamedAction n a) (Action.Whole Expr.Ready) := fun n a ha =>
    (sound_inferNamedAction hp ha).mono fun _ hwhole => hwhole.mono fun _ => Expr.Analyzed.ready
  have hentries : ∀ es, p.entries = some es → Sound tokens p p.identifiers.size
      (es.mapM (inferIn .top)) fun es' => ∀ e ∈ es', e.Ready := fun es hes =>
    (sound_mapM fun e he => (sound_inferIn hp Scope.over_top (hp.entries es hes e he)).mono
      fun _ => Expr.Analyzed.ready).mono fun _ h => h.2
  have hticker : ∀ t, p.ticker = some t → Sound tokens p p.identifiers.size (inferTicker t)
      fun t' => (∀ e, t'.interval = some e → e.Ready) ∧ t'.action.Whole Expr.Ready := fun t ht =>
    (sound_inferTicker hp ht).mono fun t' ht' =>
      ⟨fun e he => (ht'.1 e he).ready, ht'.2.mono fun _ => Expr.Analyzed.ready⟩
  have hdisplay : ∀ es, p.display = some es → Sound tokens p p.identifiers.size
      (es.mapM inferElement) fun es' => ∀ e ∈ es', e.Whole Expr.Ready Expr.Ready := fun es hes =>
    (sound_mapM fun e he => sound_inferElement hp (hp.display es hes e he)).mono fun _ h => h.2
  refine outcome_bind (outcome_resolveAll hp hnames (consistent_start hp))
    fun _ s₁ hs₁ hadvances₁ hbegun => ?_
  -- The definitions that have begun stay finished while the other parts are analyzed.
  refine (Outcome.reached (Q := Assembled p) ?_).mono fun q s₂ h => ?_
  · refine outcome_bind (sound_tell _ s₁ hs₁).2 fun _ s hs _ _ => ?_
    refine outcome_bind (sound_nameMapM haction s hs).2 fun actions s hs _ hactions => ?_
    refine outcome_bind (sound_tell _ s hs).2 fun _ s hs _ _ => ?_
    refine outcome_bind (sound_optionMapM hentries s hs).2 fun entries s hs _ hentries => ?_
    refine outcome_bind (sound_optionMapM hticker s hs).2 fun ticker s hs _ hticker => ?_
    refine outcome_bind (sound_optionMapM hdisplay s hs).2 fun display s hs _ hdisplay => ?_
    refine outcome_bind (sound_tell _ s hs).2 fun _ s hs _ _ => ?_
    exact ⟨hs, .refl s, rfl, rfl, hactions, hentries, fun t e ht he => (hticker t ht).1 e he,
      fun t ht => (hticker t ht).2, hdisplay⟩
  · obtain ⟨hassembled, hs₂, hadvances₂⟩ := h
    have hbegun₂ := fun n hn => hadvances₂.begun n (hbegun n hn)
    exact ⟨hassembled.ready hp hs₂ (hadvances₁.trans hadvances₂) hbegun₂, hbegun₂⟩

end Programs

end Diagram.Typing

namespace Diagram

/-- The analysis of a program that was read ends with a program that is ready, or with a failure
at a place of the source. -/
theorem Program.Shaped.analyze_outcome {tokens : List Token} {p : Program}
    (hp : p.Shaped tokens) :
    (∃ q, p.analyze.outcome = .ok q ∧ q.Ready) ∨
      ∃ e, p.analyze.outcome = .error (.rejected e) ∧ e.area.Among tokens := by
  have hrun := Typing.outcome_inferProgram hp
  unfold Program.analyze
  split
  · rename_i q s hresult
    rw [hresult] at hrun
    exact .inl ⟨q, rfl, hrun.2.2.1⟩
  · rename_i e s hresult
    rw [hresult] at hrun
    cases e with
    | rejected e => exact .inr ⟨e, rfl, hrun.1⟩
    | defective d => exact hrun.1.elim

end Diagram
