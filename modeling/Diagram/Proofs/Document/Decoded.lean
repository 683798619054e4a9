import Diagram.Proofs.Document.Compiled
import Diagram.Proofs.Json.Reader
import Mathlib.Data.List.Nodup

/-!
# Reading documents

A document is read from its text by the names of the fields; a field that is not there is empty,
false or missing, and an entry is told by its type.  Every document is read back from its own text,
so different documents have different texts.

Main statement: `Document.decode?_encode`.
-/

namespace Diagram.Document

open List Option

abbrev Fields := List (String × Json)

/-! ### The decoder -/

def text? (fields : Fields) (key : String) : Option String :=
  match fields.lookup key with
  | none => some ""
  | some (.text s) => some s
  | some _ => none

/-- The truth value in a field, false if there is no such field. -/
def flag? (fields : Fields) (key : String) : Option Bool :=
  match fields.lookup key with
  | none => some false
  | some (.bool b) => some b
  | some _ => none

/-- What an object in a field holds, missing if there is no such field. -/
def part? {α : Type} (ofFields? : Fields → Option α) (fields : Fields) (key : String) :
    Option (Option α) :=
  match fields.lookup key with
  | none => some none
  | some (.object inner) => (ofFields? inner).map some
  | some _ => none

def Folder.ofFields? (fields : Fields) : Option Folder := do
  return {
    id := ← text? fields "id"
    title := ← text? fields "title"
    collapsed := ← flag? fields "collapsed"
    secret := ← flag? fields "secret" }

def Clickable.ofFields? (fields : Fields) : Option Clickable := do
  return {
    enabled := ← flag? fields "enabled"
    latex := ← text? fields "latex" }

def Expression.ofFields? (fields : Fields) : Option Expression := do
  return {
    id := ← text? fields "id"
    folderId := ← text? fields "folderId"
    latex := ← text? fields "latex"
    hidden := ← flag? fields "hidden"
    color := ← text? fields "color"
    colorLatex := ← text? fields "colorLatex"
    pointStyle := ← text? fields "pointStyle"
    pointSize := ← text? fields "pointSize"
    pointOpacity := ← text? fields "pointOpacity"
    lineStyle := ← text? fields "lineStyle"
    lineWidth := ← text? fields "lineWidth"
    lineOpacity := ← text? fields "lineOpacity"
    fill := ← flag? fields "fill"
    fillOpacity := ← text? fields "fillOpacity"
    label := ← text? fields "label"
    showLabel := ← flag? fields "showLabel"
    labelSize := ← text? fields "labelSize"
    labelAngle := ← text? fields "labelAngle"
    labelOrientation := ← text? fields "labelOrientation"
    dragMode := ← text? fields "dragMode"
    clickableInfo := ← part? Clickable.ofFields? fields "clickableInfo"
    description := ← text? fields "description" }

def Remark.ofFields? (fields : Fields) : Option Remark := do
  return {
    id := ← text? fields "id"
    text := ← text? fields "text"
    folderId := ← text? fields "folderId" }

def Entry.ofJson? : Json → Option Entry
  | .object fields =>
    match text? fields "type" with
    | some "folder" => (Folder.ofFields? fields).map .folder
    | some "expression" => (Expression.ofFields? fields).map .expression
    | some "text" => (Remark.ofFields? fields).map .remark
    | _ => none
  | _ => none

def Clock.ofFields? (fields : Fields) : Option Clock := do
  return {
    isOpen := ← flag? fields "open"
    playing := ← flag? fields "playing"
    handlerLatex := ← text? fields "handlerLatex"
    minStepLatex := ← text? fields "minStepLatex" }

/-- The integer in a field, zero if there is no such field. -/
def number? (fields : Fields) (key : String) : Option Int64 :=
  match fields.lookup key with
  | none => some 0
  | some (.number n) => if (Int64.ofInt n).toInt = n then some (Int64.ofInt n) else none
  | some _ => none

def entries? (fields : Fields) (key : String) : Option (List Entry) :=
  match fields.lookup key with
  | none => some []
  | some (.list items) => items.mapM Entry.ofJson?
  | some _ => none

/-- The fields of an object in a field, none if there is no such field. -/
def fields? (fields : Fields) (key : String) : Option Fields :=
  (part? some fields key).map (·.getD [])

def ofJson? : Json → Option Document
  | .object fields => do
    let graph ← fields? fields "graph"
    let expressions ← fields? fields "expressions"
    return {
      version := ← number? fields "version"
      product := ← text? graph "product"
      entries := ← entries? expressions "list"
      ticker := ← part? Clock.ofFields? expressions "ticker" }
  | _ => none

def decode? (s : String) : Option Document :=
  (Json.read? s.toList).bind ofJson?

/-! ### Fields that can be left out -/

def present (slots : List (String × Option Json)) : Fields :=
  slots.filterMap fun s => s.2.map (s.1, ·)

/-- A text, unless it is empty. -/
def unlessEmpty (s : String) : Option Json :=
  if s.isEmpty then none else some (.text s)

/-- A truth value, unless it is false. -/
def unlessFalse (b : Bool) : Option Json :=
  if b then some (.bool true) else none

theorem present_cons (key : String) (v : Option Json) (slots : List (String × Option Json)) :
    present ((key, v) :: slots) = (v.map (key, ·)).toList ++ present slots := by
  cases v <;> rfl

@[simp] theorem present_nil : present [] = [] := rfl

theorem textField_eq (key s : String) : textField key s = ((unlessEmpty s).map (key, ·)).toList := by
  unfold textField unlessEmpty
  split <;> rfl

theorem flagField_eq (key : String) (b : Bool) :
    flagField key b = ((unlessFalse b).map (key, ·)).toList := by
  cases b <;> rfl

theorem optionalField_eq {α : Type} (key : String) (toJson : α → Json) (a : Option α) :
    optionalField key toJson a = ((a.map toJson).map (key, ·)).toList := by
  cases a <;> rfl

variable {key : String}

theorem lookup_present_of_not_mem {slots : List (String × Option Json)}
    (h : key ∉ slots.map Prod.fst) : (present slots).lookup key = none := by
  rw [lookup_eq_none_iff]
  intro e he
  obtain ⟨⟨k, v⟩, hslot, hv⟩ := mem_filterMap.1 he
  obtain ⟨j, -, rfl⟩ := map_eq_some_iff.1 hv
  rw [bne_iff_ne]
  rintro rfl
  exact h (List.mem_map_of_mem hslot)

/-- Among places with different keys, a key finds what is in its place. -/
theorem lookup_present {slots : List (String × Option Json)} (hnodup : (slots.map Prod.fst).Nodup)
    {v : Option Json} (h : (key, v) ∈ slots) : (present slots).lookup key = v := by
  induction slots with
  | nil => cases h
  | cons slot slots ih =>
    obtain ⟨k, w⟩ := slot
    obtain ⟨hfresh, hrest⟩ := nodup_cons.1 hnodup
    rw [present_cons, lookup_append]
    rcases mem_cons.1 h with heq | hmem
    · cases heq
      rw [lookup_present_of_not_mem hfresh, or_none]
      cases v with
      | none => rfl
      | some j => exact lookup_cons_self
    · have hne : (key == k) = false := by
        rw [beq_eq_false_iff_ne]
        rintro rfl
        exact hfresh (List.mem_map.2 ⟨_, hmem, rfl⟩)
      rw [ih hrest hmem]
      cases w with
      | none => rfl
      | some j => simp [lookup_cons, hne]

section Slots

variable {slots : List (String × Option Json)} (hnodup : (slots.map Prod.fst).Nodup) {key : String}
include hnodup

variable {s : String} {b : Bool}

theorem text?_of_text (h : (key, some (.text s)) ∈ slots) : text? (present slots) key = some s := by
  rw [text?, lookup_present hnodup h]

theorem text?_of_unlessEmpty (h : (key, unlessEmpty s) ∈ slots) :
    text? (present slots) key = some s := by
  rw [text?, lookup_present hnodup h, unlessEmpty]
  cases hs : s.isEmpty with
  | false => rfl
  | true => rw [String.isEmpty_iff.1 hs]; rfl

theorem flag?_of_bool (h : (key, some (.bool b)) ∈ slots) : flag? (present slots) key = some b := by
  rw [flag?, lookup_present hnodup h]

theorem flag?_of_unlessFalse (h : (key, unlessFalse b) ∈ slots) :
    flag? (present slots) key = some b := by
  rw [flag?, lookup_present hnodup h]
  cases b <;> rfl

theorem part?_of_map {α : Type} {toFields : α → Fields} {ofFields? : Fields → Option α}
    (hback : ∀ a, ofFields? (toFields a) = some a) {a : Option α}
    (h : (key, a.map fun a => Json.object (toFields a)) ∈ slots) :
    part? ofFields? (present slots) key = some a := by
  rw [part?, lookup_present hnodup h]
  cases a with
  | none => rfl
  | some a => exact congrArg (Option.map some) (hback a)

end Slots

/-! ### The parts of a document -/

def Folder.slots (f : Folder) : List (String × Option Json) :=
  [("type", some (.text "folder")), ("id", some (.text f.id)), ("title", some (.text f.title)),
    ("collapsed", some (.bool f.collapsed)), ("secret", unlessFalse f.secret)]

theorem Folder.toJson_eq (f : Folder) : f.toJson = .object (present f.slots) := by
  simp [Folder.toJson, Folder.slots, present_cons, flagField_eq]

theorem Folder.nodup_slots (f : Folder) : (f.slots.map Prod.fst).Nodup := by
  show ["type", "id", "title", "collapsed", "secret"].Nodup
  decide

theorem Folder.ofFields?_slots (f : Folder) : Folder.ofFields? (present f.slots) = some f := by
  have htext : ∀ key s, (key, some (.text s)) ∈ f.slots → text? (present f.slots) key = some s :=
    fun _ _ => text?_of_text f.nodup_slots
  have hcollapsed : flag? (present f.slots) "collapsed" = some f.collapsed :=
    flag?_of_bool f.nodup_slots (by simp [slots])
  have hsecret : flag? (present f.slots) "secret" = some f.secret :=
    flag?_of_unlessFalse f.nodup_slots (by simp [slots])
  simp only [Folder.ofFields?, hcollapsed, hsecret, htext "id" f.id (by simp [slots]),
    htext "title" f.title (by simp [slots])]
  rfl

def Clickable.fields (c : Clickable) : Fields :=
  [("enabled", .bool c.enabled), ("latex", .text c.latex)]

theorem Clickable.ofFields?_fields (c : Clickable) : Clickable.ofFields? c.fields = some c := by
  simp [Clickable.ofFields?, Clickable.fields, flag?, text?, lookup_cons]

/-- The places of the fields of a formula. -/
def Expression.slots (e : Expression) : List (String × Option Json) :=
  [("type", some (.text "expression")), ("id", some (.text e.id)),
    ("folderId", unlessEmpty e.folderId), ("latex", some (.text e.latex)),
    ("hidden", unlessFalse e.hidden), ("color", unlessEmpty e.color),
    ("colorLatex", unlessEmpty e.colorLatex), ("pointStyle", unlessEmpty e.pointStyle),
    ("pointSize", unlessEmpty e.pointSize), ("pointOpacity", unlessEmpty e.pointOpacity),
    ("lineStyle", unlessEmpty e.lineStyle), ("lineWidth", unlessEmpty e.lineWidth),
    ("lineOpacity", unlessEmpty e.lineOpacity), ("fill", unlessFalse e.fill),
    ("fillOpacity", unlessEmpty e.fillOpacity), ("label", unlessEmpty e.label),
    ("showLabel", unlessFalse e.showLabel), ("labelSize", unlessEmpty e.labelSize),
    ("labelAngle", unlessEmpty e.labelAngle),
    ("labelOrientation", unlessEmpty e.labelOrientation), ("dragMode", unlessEmpty e.dragMode),
    ("clickableInfo", e.clickableInfo.map fun c => .object c.fields),
    ("description", unlessEmpty e.description)]

theorem Expression.toJson_eq (e : Expression) : e.toJson = .object (present e.slots) := by
  have hclick : Clickable.toJson = fun c => .object c.fields := rfl
  simp [Expression.toJson, Expression.slots, present_cons, textField_eq, flagField_eq,
    optionalField_eq, hclick]

theorem Expression.nodup_slots (e : Expression) : (e.slots.map Prod.fst).Nodup := by
  show ["type", "id", "folderId", "latex", "hidden", "color", "colorLatex", "pointStyle",
    "pointSize", "pointOpacity", "lineStyle", "lineWidth", "lineOpacity", "fill", "fillOpacity",
    "label", "showLabel", "labelSize", "labelAngle", "labelOrientation", "dragMode",
    "clickableInfo", "description"].Nodup
  decide

theorem Expression.ofFields?_slots (e : Expression) :
    Expression.ofFields? (present e.slots) = some e := by
  have htext : ∀ key s, (key, some (.text s)) ∈ e.slots → text? (present e.slots) key = some s :=
    fun _ _ => text?_of_text e.nodup_slots
  have hempty : ∀ key s, (key, unlessEmpty s) ∈ e.slots → text? (present e.slots) key = some s :=
    fun _ _ => text?_of_unlessEmpty e.nodup_slots
  have hflag : ∀ key b, (key, unlessFalse b) ∈ e.slots → flag? (present e.slots) key = some b :=
    fun _ _ => flag?_of_unlessFalse e.nodup_slots
  have hclick : part? Clickable.ofFields? (present e.slots) "clickableInfo" =
      some e.clickableInfo :=
    part?_of_map e.nodup_slots Clickable.ofFields?_fields (by simp [slots])
  simp only [Expression.ofFields?, hclick,
    htext "id" e.id (by simp [slots]), htext "latex" e.latex (by simp [slots]),
    hempty "folderId" e.folderId (by simp [slots]), hempty "color" e.color (by simp [slots]),
    hempty "colorLatex" e.colorLatex (by simp [slots]),
    hempty "pointStyle" e.pointStyle (by simp [slots]),
    hempty "pointSize" e.pointSize (by simp [slots]),
    hempty "pointOpacity" e.pointOpacity (by simp [slots]),
    hempty "lineStyle" e.lineStyle (by simp [slots]),
    hempty "lineWidth" e.lineWidth (by simp [slots]),
    hempty "lineOpacity" e.lineOpacity (by simp [slots]),
    hempty "fillOpacity" e.fillOpacity (by simp [slots]),
    hempty "label" e.label (by simp [slots]), hempty "labelSize" e.labelSize (by simp [slots]),
    hempty "labelAngle" e.labelAngle (by simp [slots]),
    hempty "labelOrientation" e.labelOrientation (by simp [slots]),
    hempty "dragMode" e.dragMode (by simp [slots]),
    hempty "description" e.description (by simp [slots]),
    hflag "hidden" e.hidden (by simp [slots]), hflag "fill" e.fill (by simp [slots]),
    hflag "showLabel" e.showLabel (by simp [slots])]
  rfl

/-- The places of the fields of a note. -/
def Remark.slots (r : Remark) : List (String × Option Json) :=
  [("type", some (.text "text")), ("id", some (.text r.id)), ("text", some (.text r.text)),
    ("folderId", unlessEmpty r.folderId)]

theorem Remark.toJson_eq (r : Remark) : r.toJson = .object (present r.slots) := by
  simp [Remark.toJson, Remark.slots, present_cons, textField_eq]

theorem Remark.nodup_slots (r : Remark) : (r.slots.map Prod.fst).Nodup := by
  show ["type", "id", "text", "folderId"].Nodup
  decide

theorem Remark.ofFields?_slots (r : Remark) : Remark.ofFields? (present r.slots) = some r := by
  have htext : ∀ key s, (key, some (.text s)) ∈ r.slots → text? (present r.slots) key = some s :=
    fun _ _ => text?_of_text r.nodup_slots
  have hfolder : text? (present r.slots) "folderId" = some r.folderId :=
    text?_of_unlessEmpty r.nodup_slots (by simp [slots])
  simp only [Remark.ofFields?, htext "id" r.id (by simp [slots]),
    htext "text" r.text (by simp [slots]), hfolder]
  rfl

theorem Entry.ofJson?_toJson (entry : Entry) : Entry.ofJson? entry.toJson = some entry := by
  cases entry with
  | folder f =>
    have htype : text? (present f.slots) "type" = some "folder" :=
      text?_of_text f.nodup_slots (by simp [Folder.slots])
    simp only [Entry.toJson, f.toJson_eq, Entry.ofJson?, htype, f.ofFields?_slots, map_some]
  | expression e =>
    have htype : text? (present e.slots) "type" = some "expression" :=
      text?_of_text e.nodup_slots (by simp [Expression.slots])
    simp only [Entry.toJson, e.toJson_eq, Entry.ofJson?, htype, e.ofFields?_slots, map_some]
  | remark r =>
    have htype : text? (present r.slots) "type" = some "text" :=
      text?_of_text r.nodup_slots (by simp [Remark.slots])
    simp only [Entry.toJson, r.toJson_eq, Entry.ofJson?, htype, r.ofFields?_slots, map_some]

/-- The places of the fields of the ticker. -/
def Clock.slots (c : Clock) : List (String × Option Json) :=
  [("open", some (.bool c.isOpen)), ("playing", some (.bool c.playing)),
    ("handlerLatex", unlessEmpty c.handlerLatex), ("minStepLatex", unlessEmpty c.minStepLatex)]

theorem Clock.toJson_eq (c : Clock) : c.toJson = .object (present c.slots) := by
  simp [Clock.toJson, Clock.slots, present_cons, textField_eq]

theorem Clock.ofFields?_slots (c : Clock) : Clock.ofFields? (present c.slots) = some c := by
  have hnodup : (c.slots.map Prod.fst).Nodup := by
    show ["open", "playing", "handlerLatex", "minStepLatex"].Nodup
    decide
  have hflag : ∀ key b, (key, some (.bool b)) ∈ c.slots → flag? (present c.slots) key = some b :=
    fun _ _ => flag?_of_bool hnodup
  have hempty : ∀ key s, (key, unlessEmpty s) ∈ c.slots → text? (present c.slots) key = some s :=
    fun _ _ => text?_of_unlessEmpty hnodup
  simp only [Clock.ofFields?, hflag "open" c.isOpen (by simp [slots]),
    hflag "playing" c.playing (by simp [slots]),
    hempty "handlerLatex" c.handlerLatex (by simp [slots]),
    hempty "minStepLatex" c.minStepLatex (by simp [slots])]
  rfl

theorem mapM_ofJson?_toJson (entries : List Entry) :
    (entries.map Entry.toJson).mapM Entry.ofJson? = some entries := by
  induction entries with
  | nil => rfl
  | cons entry entries ih =>
    rw [map_cons, mapM_cons, Entry.ofJson?_toJson, ih]
    rfl

theorem ofJson?_toJson (d : Document) : ofJson? d.toJson = some d := by
  let expressions : Fields :=
    ("list", .list (d.entries.map Entry.toJson)) :: optionalField "ticker" Clock.toJson d.ticker
  let fields : Fields :=
    [("version", .number d.version.toInt), ("graph", .object [("product", .text d.product)]),
      ("expressions", .object expressions)]
  have hversion : number? fields "version" = some d.version := by
    simp [number?, fields]
  have hgraph : fields? fields "graph" = some [("product", .text d.product)] := rfl
  have hexpressions : fields? fields "expressions" = some expressions := rfl
  have hproduct : text? [("product", .text d.product)] "product" = some d.product := rfl
  have hentries : entries? expressions "list" = some d.entries := mapM_ofJson?_toJson d.entries
  have hticker : part? Clock.ofFields? expressions "ticker" = some d.ticker := by
    cases hclock : d.ticker with
    | none => simp [part?, expressions, hclock, optionalField, lookup_cons]
    | some c =>
      simp [part?, expressions, hclock, optionalField, lookup_cons, c.toJson_eq, c.ofFields?_slots]
  show (do
    let graph ← fields? fields "graph"
    let expressions ← fields? fields "expressions"
    return {
      version := ← number? fields "version"
      product := ← text? graph "product"
      entries := ← entries? expressions "list"
      ticker := ← part? Clock.ofFields? expressions "ticker" }) = some d
  rw [hgraph, hexpressions, hversion]
  simp only [bind_eq_bind, bind_some, hproduct, hentries, hticker]
  rfl

/-- A document is read back from its text, which spells a JSON value, and no other document has
the same text. -/
theorem decode?_encode (d : Document) :
    Json.Spells d.toJson d.encode.toList ∧ decode? d.encode = some d ∧
      ∀ d' : Document, d'.encode = d.encode ↔ d' = d := by
  have hdecode : ∀ d : Document, decode? d.encode = some d := by
    intro d
    rw [decode?, Json.read?_eq_some_iff.2 d.spells_encode]
    exact d.ofJson?_toJson
  refine ⟨d.spells_encode, hdecode d, fun d' => ⟨fun h => ?_, fun h => by rw [h]⟩⟩
  have hback := hdecode d'
  rw [h, hdecode d] at hback
  exact (Option.some.inj hback).symm

end Diagram.Document
