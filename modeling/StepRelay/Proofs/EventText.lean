import StepRelay.Proofs.Records
import StepRelay.Proofs.TimestampText
import StepRelay.Wire.Event
import StepRelay.Wire.LogEntry

/-!
# Events and log entries through text and back

A log entry is a record, and read as one (`LogEntry.read_written`). The fields of an event have no
types until its tag is known, and that may stand behind them. So its members are kept as trees:
whichever field comes next, what has been read of the object is the type and the trees of the keys
seen so far (`Event.readMember_envelope`). Then the trees are read like a record, in any order, into
a draft of the variant (`Event.ofMembers_perm`).

What is read of a text can be written and read again, since a version that was read is below
`2 ^ 64` (`Event.versionFits_of_readWire`); nothing else of an event or an entry has a bound.
-/

namespace StepRelay

/-- A timestamp is read back from its text, with whatever stands behind it. -/
theorem Timestamp.readTimestamp_wireText (t : Timestamp) (rest : List Char) :
    (Json.readTimestamp (t.wireText ++ rest)).toOption = some (t, rest) := by
  rw [Json.readTimestamp, Timestamp.wireText, toOption_bind, Json.readText_stringText]
  simp only [Option.bind_some, String.toList_ofList, t.read_text]
  rfl

/-! ## Log entries

The fields of an entry have their types from the start, and may come in any order. The invariant of
the reading is `draft`: the fields that were seen have their values, the others none.
-/

namespace LogEntry

open Json

/-- What has been read of an entry when the fields of the given names have been. -/
def draft (entry : Dated LogEntry) (seen : List String) : Draft where
  date := given seen "timestamp" entry.date
  step := given seen "step_id" entry.body.step
  level := given seen "level" entry.body.level
  message := given seen "message" entry.body.message

/-- Whichever field comes next, the draft is that of one field more. -/
theorem readMember_draft {entry : Dated LogEntry} {field : String × List Char}
    (hfield : field ∈ wireFields entry) (seen : List String) (rest : List Char)
    (hnew : field.1 ∉ seen) :
    (record.readMember (draft entry seen) field.1 (':' :: (field.2 ++ rest))).toOption =
      some (draft entry (seen ++ [field.1]), rest) := by
  simp only [wireFields, List.mem_cons, List.not_mem_nil, or_false] at hfield
  -- each field has a reader of its own, and fills an empty place of the draft
  rcases hfield with rfl | rfl | rfl | rfl
  · have hread := entry.date.readTimestamp_wireText rest
    exact Record.readMember_fills rfl (given_of_not_mem hnew _) hread (by simp [draft, given])
  · have hread := readStep_wireText entry.body.step rest
    exact Record.readMember_fills rfl (given_of_not_mem hnew _) hread (by simp [draft, given])
  · have hread : (LogLevel.readWire (entry.body.level.wireText ++ rest)).toOption =
        some (entry.body.level, rest) := by
      apply readChoice_stringText
      cases entry.body.level <;> rfl
    exact Record.readMember_fills rfl (given_of_not_mem hnew _) hread (by simp [draft, given])
  · have hread := readText_stringText "a string" entry.body.message rest
    exact Record.readMember_fills rfl (given_of_not_mem hnew _) hread (by simp [draft, given])

/-- The fields of an entry are read to the entry, in whichever order they are. -/
theorem read_written {entry : Dated LogEntry} {fields : List (String × List Char)}
    (hfields : fields.Perm (wireFields entry)) :
    readWhole? readWire (objectText fields) = .ok entry := by
  -- the names are distinct, and together they are all the names there are
  have hnames : (fields.map Prod.fst).Perm ["timestamp", "step_id", "level", "message"] :=
    hfields.map Prod.fst
  have hdistinct : (fields.map Prod.fst).Nodup := hnames.nodup_iff.2 (by decide)
  have hfinish : (draft entry (fields.map Prod.fst)).finish = .ok entry := by
    simp only [draft, given, hnames.mem_iff, List.mem_cons, true_or, or_true, if_true]
    rfl
  refine Record.read_all rfl (fun field hfield seen rest hnew _ => ?_) hdistinct hfinish
  exact readMember_draft (hfields.mem_iff.1 hfield) seen rest hnew

end LogEntry

/-! ## Events

A version is written as it is, and read only if it fits 64 bits; that is the one hypothesis of this
part.
-/

namespace Event

open Json

/-- A version that fits a 64-bit word. -/
def VersionFits : Event → Prop
  | began _ _ version | committed _ _ version => version < Nat.pow 2 64
  | failed .. | overridden .. => True

/-! ### Content as trees

Since the members are kept as trees, each field has a tree besides its text. The two are in step as
long as the version fits.
-/

/-- The tree of a natural that fits a 64-bit word; null stands for one that does not. -/
def naturalTree (n : Nat) : Json := (Number.ofInt? n).elim .null .number

/-- What `naturalTree` is where it is not null. -/
theorem naturalTree_eq {n : Nat} (h : n < Nat.pow 2 64) :
    naturalTree n = .number (.integer n (fits_natCast h)) := by
  rw [naturalTree, Number.ofInt?, dif_pos (fits_natCast h), Option.elim_some]

/-- The tree of a list of names. -/
def namesTree (names : List String) : Json := .array (names.map .string)

/-- The fields of an event's content, in order. -/
def contentTrees : Event → List (String × Json)
  | began step inputs version => [
      ("step_id", .string step.id),
      ("inputs", namesTree inputs),
      ("table_version", naturalTree version)]
  | committed step outputs version => [
      ("step_id", .string step.id),
      ("outputs", namesTree outputs),
      ("table_version", naturalTree version)]
  | failed step error => [("step_id", .string step.id), ("error", .string error)]
  | overridden name step previousStep => [
      ("name", .string name),
      ("step_id", .string step.id),
      ("previous_step", .string previousStep.id)]

/-- The fields of a dated event but for its type, in order. -/
def wireTrees (event : Dated Event) : List (String × Json) :=
  event.body.contentTrees ++ [("at", .string (.ofList event.date.text))]

/-- The list of names is written as its tree is. -/
theorem namesText_eq (names : List String) : namesText names = (namesTree names).text := by
  have hitems : names.map stringText = itemTexts (names.map .string) := by
    induction names with
    | nil => rfl
    | cons name rest ih =>
      rw [List.map_cons, List.map_cons, itemTexts, ih]
      rfl
  rw [namesText, namesTree, Json.text, hitems]

theorem depth_namesTree (names : List String) : (namesTree names).depth = 1 := by
  have hitems : depthOfItems (names.map .string) = 0 := by
    induction names with
    | nil => rfl
    | cons name rest ih =>
      rw [List.map_cons, depthOfItems, ih]
      rfl
  rw [namesTree, Json.depth, hitems]

/-- The names are read back from their tree. -/
theorem textsOf_namesTree (names : List String) : textsOf (namesTree names) = .ok names := by
  change (names.map Json.string).mapM (textOf "a string") = _
  induction names with
  | nil => rfl
  | cons name rest ih =>
    rw [List.map_cons, List.mapM_cons, ih]
    rfl

/-- A natural is written in decimal, as its tree is. -/
theorem naturalTree_text {n : Nat} (h : n < Nat.pow 2 64) :
    (naturalTree n).text = Nat.toDigits 10 n := by
  have hsign : ¬ (n : Int) < 0 := Int.not_lt.2 (Int.natCast_nonneg n)
  rw [naturalTree_eq h, Json.text, Number.text, integerText, if_neg hsign, Int.natAbs_natCast]

theorem naturalOfTree_naturalTree {n : Nat} (h : n < Nat.pow 2 64) :
    naturalOfTree "u64" (naturalTree n) = .ok n := by
  rw [naturalTree_eq h, naturalOfTree, naturalOf, if_pos (Int.natCast_nonneg n), Int.toNat_natCast]

theorem timestampOf_text (t : Timestamp) : timestampOf (.string (.ofList t.text)) = .ok t := by
  refine bind_eq_ok_iff.2 ⟨_, rfl, ?_⟩
  simp only [String.toList_ofList, t.read_text]
  rfl

/-- The text of a field is that of its tree. -/
theorem contentFields_eq {event : Event} (h : event.VersionFits) :
    event.contentFields = event.contentTrees.map fun member => (member.1, member.2.text) := by
  -- only names and versions are written otherwise than as strings
  cases event with
  | began step inputs version =>
    simp only [contentFields, contentTrees, List.map_cons, List.map_nil, namesText_eq,
      naturalTree_text h]
    rfl
  | committed step outputs version =>
    simp only [contentFields, contentTrees, List.map_cons, List.map_nil, namesText_eq,
      naturalTree_text h]
    rfl
  | failed step error => rfl
  | overridden name step previousStep => rfl

/-- An event is written as the name of its type and the texts of its trees. -/
theorem wireFields_eq {event : Dated Event} (h : event.body.VersionFits) :
    wireFields event = ("type", stringText event.body.type.name) ::
      (wireTrees event).map fun member => (member.1, member.2.text) := by
  rw [wireFields, contentFields_eq h, wireTrees, List.map_append]
  rfl

theorem depth_naturalTree {n : Nat} (h : n < Nat.pow 2 64) : (naturalTree n).depth = 0 := by
  rw [naturalTree_eq h]
  rfl

/-- No field of an event nests deeper than a list of names. -/
theorem depth_le_of_mem_wireTrees {event : Dated Event} (h : event.body.VersionFits)
    {member : String × Json} (hmember : member ∈ wireTrees event) : member.2.depth ≤ 1 := by
  obtain ⟨date, body⟩ := event
  cases body <;>
    simp only [wireTrees, contentTrees, List.cons_append, List.nil_append, List.mem_cons,
      List.not_mem_nil, or_false] at hmember
  -- one field is a list of names, and the others do not nest
  case began step names version | committed step names version =>
    rcases hmember with rfl | rfl | rfl | rfl <;>
      simp [depth_namesTree, depth_naturalTree h, Json.depth]
  case failed => rcases hmember with rfl | rfl | rfl <;> exact Nat.zero_le 1
  case overridden => rcases hmember with rfl | rfl | rfl | rfl <;> exact Nat.zero_le 1

/-- The names of the fields of a variant, in order. -/
def fieldNames : EventType → List String
  | .began => ["step_id", "inputs", "table_version", "at"]
  | .committed => ["step_id", "outputs", "table_version", "at"]
  | .failed => ["step_id", "error", "at"]
  | .overridden => ["name", "step_id", "previous_step", "at"]

/-- The names of the fields depend on the variant only. -/
theorem keys_wireTrees (event : Dated Event) :
    (wireTrees event).map Prod.fst = fieldNames event.body.type := by
  obtain ⟨date, body⟩ := event
  cases body <;> rfl

/-- They are distinct, and `type` is not among them. -/
theorem nodup_fieldNames (type : EventType) :
    "type" ∉ fieldNames type ∧ (fieldNames type).Nodup := by
  cases type <;> decide

theorem nodup_wireTrees (event : Dated Event) :
    "type" ∉ Entries.keys (wireTrees event) ∧ (Entries.keys (wireTrees event)).Nodup := by
  have hkeys : Entries.keys (wireTrees event) = fieldNames event.body.type := keys_wireTrees event
  rw [hkeys]
  exact nodup_fieldNames event.body.type

/-! ### From trees to the event

The variant is known now, and with it the types of its fields. Reading them is a fold over the
members, in the order of the text.
-/

/-- What has been read of an event's content when the fields of the given names have been. -/
def draft : Dated Event → List String → Draft
  | ⟨date, began step inputs version⟩, seen => {
      step := given seen "step_id" step
      names := given seen "inputs" inputs
      version := given seen "table_version" version
      date := given seen "at" date }
  | ⟨date, committed step outputs version⟩, seen => {
      step := given seen "step_id" step
      names := given seen "outputs" outputs
      version := given seen "table_version" version
      date := given seen "at" date }
  | ⟨date, failed step error⟩, seen => {
      step := given seen "step_id" step
      error := given seen "error" error
      date := given seen "at" date }
  | ⟨date, overridden name step previousStep⟩, seen => {
      name := given seen "name" name
      step := given seen "step_id" step
      previousStep := given seen "previous_step" previousStep
      date := given seen "at" date }

/-- Whichever field comes next, the draft is that of one field more. -/
theorem fills_wireTrees {event : Dated Event} (h : event.body.VersionFits) :
    ∀ member ∈ wireTrees event, Fills (Draft.fields event.body.type) (draft event) member := by
  intro member hmember
  obtain ⟨date, body⟩ := event
  have hdate := timestampOf_text date
  -- a version, names and a date are read from trees of their own; the rest are texts
  cases body <;>
    simp only [wireTrees, contentTrees, List.cons_append, List.nil_append, List.mem_cons,
      List.not_mem_nil, or_false] at hmember
  case began step names version | committed step names version =>
    -- began and committed have the same four members
    have hnames := textsOf_namesTree names
    have hversion := naturalOfTree_naturalTree h
    rcases hmember with rfl | rfl | rfl | rfl
    · exact .of rfl rfl (fun _ => rfl) (by simp [draft, given])
    · exact .of rfl hnames (fun _ => rfl) (by simp [draft, given])
    · exact .of rfl hversion (fun _ => rfl) (by simp [draft, given])
    · exact .of rfl hdate (fun _ => rfl) (by simp [draft, given])
  case failed step error =>
    rcases hmember with rfl | rfl | rfl
    · exact .of rfl rfl (fun _ => rfl) (by simp [draft, given])
    · exact .of rfl rfl (fun _ => rfl) (by simp [draft, given])
    · exact .of rfl hdate (fun _ => rfl) (by simp [draft, given])
  case overridden name step previousStep =>
    rcases hmember with rfl | rfl | rfl | rfl
    · exact .of rfl rfl (fun _ => rfl) (by simp [draft, given])
    · exact .of rfl rfl (fun _ => rfl) (by simp [draft, given])
    · exact .of rfl rfl (fun _ => rfl) (by simp [draft, given])
    · exact .of rfl hdate (fun _ => rfl) (by simp [draft, given])

/-- An event is made of its draft when all its fields have been read. -/
theorem finish_draft (event : Dated Event) {seen : List String}
    (h : ∀ name ∈ fieldNames event.body.type, name ∈ seen) :
    (draft event seen).finish event.body.type = .ok event := by
  obtain ⟨date, body⟩ := event
  cases body <;> simp only [Event.type, fieldNames, List.forall_mem_cons] at h <;>
    simp only [draft, given, h, if_true] <;> rfl

/-- The members of an event are read to the event, in whichever order they are. -/
theorem ofMembers_perm {event : Dated Event} (h : event.body.VersionFits)
    {members : List (String × Json)} (hmembers : members.Perm (wireTrees event)) :
    ofMembers event.body.type members = .ok event := by
  have hkeys := hmembers.map Prod.fst
  rw [keys_wireTrees] at hkeys
  have hdistinct := hkeys.nodup_iff.2 (nodup_fieldNames event.body.type).2
  -- the draft of no fields is the empty one, from which the reading starts
  have hinitial : draft event [] = {} := by
    obtain ⟨date, body⟩ := event
    cases body <;> rfl
  have hread := readTreeMembers_all
    (fun member hmember => fills_wireTrees h member (hmembers.mem_iff.1 hmember)) hdistinct
  rw [hinitial] at hread
  exact bind_eq_ok_iff.2 ⟨_, hread, finish_draft event fun name hname => hkeys.mem_iff.2 hname⟩

/-! ### From text to trees

Before that, every member is read without looking into it, except for the one called `type`.
-/

/-- What has been read of an event's object when the fields of the given names have been. -/
def envelope (event : Dated Event) (seen : List String) : Envelope where
  type := given seen "type" event.body.type
  members := seen.filterMap fun key =>
    (Entries.get? (wireTrees event) key).map fun json => (key, json)

/-- When all fields have been read, all members are there. -/
theorem members_envelope (event : Dated Event) :
    (envelope event ("type" :: fieldNames event.body.type)).members = wireTrees event := by
  obtain ⟨date, body⟩ := event
  cases body <;> rfl

/-- Reading the type sets the type and no member. -/
theorem envelope_concat_type (event : Dated Event) (seen : List String) :
    envelope event (seen ++ ["type"]) =
      { envelope event seen with type := some event.body.type } := by
  have hnone : Entries.get? (wireTrees event) "type" = none :=
    (Entries.get?_eq_none_iff _ _).2 (nodup_wireTrees event).1
  simp [envelope, given, List.filterMap_append, hnone]

/-- No field of the content is called `type`, so the two are told apart by the name. -/
theorem type_ne_of_mem {event : Dated Event} {member : String × Json}
    (h : member ∈ wireTrees event) : "type" ≠ member.1 := by
  intro heq
  exact (nodup_wireTrees event).1 (heq ▸ List.mem_map_of_mem h)

/-- Reading any other field appends its tree to the members. -/
theorem envelope_concat_member {event : Dated Event} {member : String × Json}
    (h : member ∈ wireTrees event) (seen : List String) :
    envelope event (seen ++ [member.1]) =
      { envelope event seen with members := (envelope event seen).members ++ [member] } := by
  have hget := Entries.get?_of_mem (nodup_wireTrees event).2 h
  simp [envelope, given, List.filterMap_append, hget, type_ne_of_mem h]

/-- Whichever field comes next, what has been read is that of one field more. -/
theorem readMember_envelope {event : Dated Event} (h : event.body.VersionFits)
    {field : String × List Char} (hfield : field ∈ wireFields event) (seen : List String)
    (rest : List Char) (hnew : field.1 ∉ seen) (hrest : EndsNumber rest) :
    (readMember (envelope event seen) field.1 (':' :: (field.2 ++ rest))).toOption =
      some (envelope event (seen ++ [field.1]), rest) := by
  have hcolon (text : List Char) : readColon (':' :: text) = .ok text := rfl
  rw [wireFields_eq h, List.mem_cons, List.mem_map] at hfield
  rcases hfield with rfl | ⟨member, hmember, rfl⟩
  · -- the field is the type: its name is looked up among those of the variants
    have hname : (readName EventType.name EventType.all
        (stringText event.body.type.name ++ rest)).toOption = some (event.body.type, rest) := by
      apply readName_stringText
      cases event.body.type <;> rfl
    have htype : (envelope event seen).type.isSome = false := by
      rw [envelope, given_of_not_mem hnew]
      rfl
    rw [readMember, if_pos rfl, htype, envelope_concat_type]
    simp only [Bool.false_eq_true, if_false, toOption_bind, hcolon, toOption_ok, Option.bind_some,
      hname]
    rfl
  · -- the field is one of the content: a tree, far from the limit of nesting
    have hdepth : member.2.depth ≤ 126 :=
      Nat.le_trans (depth_le_of_mem_wireTrees h hmember) (by decide)
    have hread := readValue_json member.2 126 hrest
    rw [if_pos hdepth] at hread
    rw [readMember, if_neg (Ne.symm (type_ne_of_mem hmember)), envelope_concat_member hmember]
    simp only [toOption_bind, hcolon, toOption_ok, Option.bind_some]
    change (readValue rawBuilder 126 (member.2.text ++ rest)).toOption.bind _ = _
    rw [hread]
    rfl

/-- The fields of an event are read to the event, in whichever order they are. -/
theorem read_written {event : Dated Event} (h : event.body.VersionFits)
    {fields : List (String × List Char)} (hfields : fields.Perm (wireFields event)) :
    readWhole? readWire (objectText fields) = .ok event := by
  have hnames : (fields.map Prod.fst).Perm ((wireFields event).map Prod.fst) :=
    hfields.map Prod.fst
  have hwritten : (wireFields event).map Prod.fst = "type" :: fieldNames event.body.type := by
    rw [wireFields_eq h, List.map_cons, List.map_map, ← keys_wireTrees]
    rfl
  have hdistinct : (fields.map Prod.fst).Nodup := by
    rw [hnames.nodup_iff, hwritten, List.nodup_cons]
    exact nodup_fieldNames event.body.type
  -- with all fields seen, the type is there
  have htype : (envelope event (fields.map Prod.fst)).type = some event.body.type := by
    refine given_of_mem (hnames.mem_iff.2 ?_) _
    rw [hwritten]
    exact List.mem_cons_self
  -- and so are the members, in the order of the text
  have hmembers : (envelope event (fields.map Prod.fst)).members.Perm (wireTrees event) := by
    rw [← members_envelope event, ← hwritten]
    exact hnames.filterMap _
  have hmember : ∀ field ∈ fields, ∀ seen rest, field.1 ∉ seen → EndsNumber rest →
      (readMember (envelope event seen) field.1 (':' :: (field.2 ++ rest))).toOption =
        some (envelope event (seen ++ [field.1]), rest) :=
    fun field hfield => readMember_envelope h (hfields.mem_iff.1 hfield)
  have hobject := readObject_all hmember hdistinct []
  refine bind_eq_ok_iff.2 ⟨(event, []), ?_, rfl⟩
  rw [readWire, objectText, bracketed, skipBlanks_cons rfl]
  refine bind_eq_ok_iff.2 ⟨_, hobject, ?_⟩
  simp only [htype, ofMembers_perm h hmembers]
  rfl

/-! ### Versions that were read

The check is in the one field that reads a version. What was read of an event can therefore be
written.
-/

/-- The version of a draft fits a 64-bit word. -/
def Draft.VersionFits (draft : Draft) : Prop := ∀ version ∈ draft.version, version < Nat.pow 2 64

/-- Reading the field leaves a version that fits, if it was so before. -/
def KeepsVersion (field : TreeField Draft) : Prop :=
  ∀ (draft : Draft) (json : Json) (after : Draft), draft.VersionFits →
    field.read draft json = .ok after → after.VersionFits

/-- The one field that sets the version checks it: a 64-bit word is all it takes. -/
theorem keepsVersion_versionField : KeepsVersion Draft.versionField := by
  intro draft json after _ hread
  obtain ⟨n, hn, hafter⟩ := bind_eq_ok_iff.1 hread
  rw [← Except.ok.inj hafter]
  intro version hversion
  exact Option.some.inj hversion ▸ lt_of_naturalOfTree hn

/-- A field that does not touch the version keeps it. -/
theorem keepsVersion_of {α : Type} {name : String} {get : Draft → Option α}
    {set : Draft → α → Draft} {reader : Json → Except Mismatch α}
    (h : ∀ draft a, (set draft a).version = draft.version) :
    KeepsVersion (.of name get set reader) := by
  intro draft json after hdraft hread
  obtain ⟨a, -, hafter⟩ := bind_eq_ok_iff.1 hread
  rw [← Except.ok.inj hafter, Draft.VersionFits, h]
  exact hdraft

theorem keepsVersion_fields (type : EventType) :
    ∀ field ∈ Draft.fields type, KeepsVersion field := by
  intro field hfield
  cases type <;>
    simp only [Draft.fields, List.mem_cons, List.not_mem_nil, or_false] at hfield
  case began | committed =>
    rcases hfield with rfl | rfl | rfl | rfl
    · exact keepsVersion_of fun _ _ => rfl
    · exact keepsVersion_of fun _ _ => rfl
    · exact keepsVersion_versionField
    · exact keepsVersion_of fun _ _ => rfl
  case failed => rcases hfield with rfl | rfl | rfl <;> exact keepsVersion_of fun _ _ => rfl
  case overridden =>
    rcases hfield with rfl | rfl | rfl | rfl <;> exact keepsVersion_of fun _ _ => rfl

theorem versionFits_empty : Draft.VersionFits {} := by
  intro version hversion
  cases hversion

/-- An event has the version of its draft. -/
theorem versionFits_of_finish {draft : Draft} (h : draft.VersionFits) {type : EventType}
    {event : Dated Event} (hfinish : draft.finish type = .ok event) : event.body.VersionFits := by
  cases type with
  -- the variants that have a version take it from the draft
  | began | committed =>
    obtain ⟨step, -, hfinish⟩ := bind_eq_ok_iff.1 hfinish
    obtain ⟨names, -, hfinish⟩ := bind_eq_ok_iff.1 hfinish
    obtain ⟨version, hversion, hfinish⟩ := bind_eq_ok_iff.1 hfinish
    obtain ⟨date, -, hfinish⟩ := bind_eq_ok_iff.1 hfinish
    rw [← Except.ok.inj hfinish]
    exact h version (required_eq_ok_iff.1 hversion)
  | failed =>
    obtain ⟨step, -, hfinish⟩ := bind_eq_ok_iff.1 hfinish
    obtain ⟨error, -, hfinish⟩ := bind_eq_ok_iff.1 hfinish
    obtain ⟨date, -, hfinish⟩ := bind_eq_ok_iff.1 hfinish
    rw [← Except.ok.inj hfinish]
    trivial
  | overridden =>
    obtain ⟨name, -, hfinish⟩ := bind_eq_ok_iff.1 hfinish
    obtain ⟨step, -, hfinish⟩ := bind_eq_ok_iff.1 hfinish
    obtain ⟨previousStep, -, hfinish⟩ := bind_eq_ok_iff.1 hfinish
    obtain ⟨date, -, hfinish⟩ := bind_eq_ok_iff.1 hfinish
    rw [← Except.ok.inj hfinish]
    trivial

/-- The version fits, if the content was an object. -/
theorem versionFits_of_ofMembers {type : EventType} {members : List (String × Json)}
    {event : Dated Event} (h : ofMembers type members = .ok event) : event.body.VersionFits := by
  obtain ⟨draft, hread, hfinish⟩ := bind_eq_ok_iff.1 h
  have hfits := readTreeMembers_keeps (keepsVersion_fields type) versionFits_empty hread
  exact versionFits_of_finish hfits hfinish

/-- It fits as well, if the content was an array. -/
theorem versionFits_of_ofItems {type : EventType} {items : List Json}
    {event : Dated Event} (h : ofItems type items = .ok event) : event.body.VersionFits := by
  obtain ⟨⟨draft, missing, extra⟩, hread, h⟩ := bind_eq_ok_iff.1 h
  have hfits := readTreeItems_keeps (keepsVersion_fields type) versionFits_empty hread
  simp only at h
  -- too few items, too many, or as many as there are fields
  split at h
  · cases h
  · split at h
    · cases h
    · exact versionFits_of_finish hfits h

/-- What is placed in the text is still what it was. -/
theorem of_placed {α : Type} {rest behind : List Char} {x : Except Mismatch α} {a : α}
    (h : placed rest x = .ok (a, behind)) : x = .ok a := by
  cases x with
  | ok value => exact congrArg Except.ok (Prod.mk.inj (Except.ok.inj h)).1
  | error mismatch => cases h

/-- Whatever text an event is read from, its version fits. -/
theorem versionFits_of_readWire {text rest : List Char} {event : Dated Event}
    (h : readWire text = .ok (event, rest)) : event.body.VersionFits := by
  rw [readWire] at h
  split at h
  · -- an object: its type may stand anywhere
    obtain ⟨⟨envelope, behind⟩, -, h⟩ := bind_eq_ok_iff.1 h
    simp only at h
    split at h
    · cases h
    · exact versionFits_of_ofMembers (of_placed h)
  · split at h
    · cases h
    · cases h
    · -- an array: the type is its first item, and the content the others
      obtain ⟨⟨type, behind⟩, -, h⟩ := bind_eq_ok_iff.1 h
      obtain ⟨⟨items, behind⟩, -, h⟩ := bind_eq_ok_iff.1 h
      exact versionFits_of_ofItems (of_placed h)
  · exact absurd h (refuse_ne_ok _ _ _)

theorem versionFits_of_readWhole {text : List Char} {event : Dated Event}
    (h : readWhole? readWire text = .ok event) : event.body.VersionFits := by
  obtain ⟨⟨found, rest⟩, hread, h⟩ := bind_eq_ok_iff.1 h
  dsimp only at h
  split at h
  · exact Except.ok.inj h ▸ versionFits_of_readWire hread
  · cases h

end Event

/-! ## Both

Events and entries share the argument: what was read has a text, and the text is read to it.
-/

/-- What is written again of what was read from a text. -/
def Json.rewritten {α : Type} (reader : Reader α) (write : α → List Char) (text : List Char) :
    Except Fault (List Char) :=
  (readWhole? reader text).map write

/-- If all that is read can be read again, a text that was rewritten stays as it is. -/
theorem Json.rewritten_rewritten {α : Type} {reader : Reader α} {write : α → List Char}
    (h : ∀ text a, readWhole? reader text = .ok a → readWhole? reader (write a) = .ok a)
    {text again : List Char} (hagain : rewritten reader write text = .ok again) :
    rewritten reader write again = .ok again := by
  rw [rewritten] at hagain
  cases hread : readWhole? reader text with
  | error fault =>
    rw [hread] at hagain
    cases hagain
  | ok a =>
    rw [hread] at hagain
    -- what was written is read to the same, and written the same again
    rw [← Except.ok.inj hagain, rewritten, h text a hread]
    rfl

open Json in
/-- **An event and a log entry come back from their texts**, whichever order the fields of the text
are put in, the type of an event included. The table version of an event is a 64-bit number; nothing
else has a bound. And whatever text one is read from, what is written of it is read to the same
again, so that from then on the text stays as it is. -/
theorem Dated.round_trips :
    ((∀ event : Dated Event, event.body.VersionFits →
        readWhole? Event.readWire (Event.wireText event) = .ok event ∧
        ∀ fields : List (String × List Char), fields.Perm (Event.wireFields event) →
          readWhole? Event.readWire (objectText fields) = .ok event) ∧
      (∀ text event, readWhole? Event.readWire text = .ok event →
        readWhole? Event.readWire (Event.wireText event) = .ok event) ∧
      (∀ text again, rewritten Event.readWire Event.wireText text = .ok again →
        rewritten Event.readWire Event.wireText again = .ok again)) ∧
    ((∀ entry : Dated LogEntry,
        readWhole? LogEntry.readWire (LogEntry.wireText entry) = .ok entry ∧
        ∀ fields : List (String × List Char), fields.Perm (LogEntry.wireFields entry) →
          readWhole? LogEntry.readWire (objectText fields) = .ok entry) ∧
      (∀ text entry, readWhole? LogEntry.readWire text = .ok entry →
        readWhole? LogEntry.readWire (LogEntry.wireText entry) = .ok entry) ∧
      (∀ text again, rewritten LogEntry.readWire LogEntry.wireText text = .ok again →
        rewritten LogEntry.readWire LogEntry.wireText again = .ok again)) := by
  -- whatever was read can be written, since its version was checked
  have hevent : ∀ text event, readWhole? Event.readWire text = .ok event →
      readWhole? Event.readWire (Event.wireText event) = .ok event :=
    fun _ _ hread => Event.read_written (Event.versionFits_of_readWhole hread) (.refl _)
  have hentry : ∀ text entry, readWhole? LogEntry.readWire text = .ok entry →
      readWhole? LogEntry.readWire (LogEntry.wireText entry) = .ok entry :=
    fun _ _ _ => LogEntry.read_written (.refl _)
  refine ⟨⟨fun event hfits => ⟨?_, ?_⟩, hevent, fun _ _ => rewritten_rewritten hevent⟩,
    fun entry => ⟨?_, ?_⟩, hentry, fun _ _ => rewritten_rewritten hentry⟩
  · exact Event.read_written hfits (.refl _)
  · exact fun _ => Event.read_written hfits
  · exact LogEntry.read_written (.refl _)
  · exact fun _ => LogEntry.read_written

open Json in
/-- The largest version, the last instant of a leap day and the type behind all other fields. -/
theorem Dated.round_trips_reversed :
    let date : Timestamp := ⟨⟨2024, 2, 29, by decide, by decide, by decide⟩, 1439, 60, 999999999⟩
    let event : Dated Event := ⟨date, .committed ⟨"é"⟩ ["\"", ""] (Nat.pow 2 64 - 1)⟩
    event.body.VersionFits ∧
      readWhole? Event.readWire (objectText (Event.wireFields event).reverse) = .ok event := by
  intro date event
  have hfits : Nat.pow 2 64 - 1 < Nat.pow 2 64 := by decide
  obtain ⟨-, hread⟩ := round_trips.1.1 event hfits
  exact ⟨hfits, hread _ (Event.wireFields event).reverse_perm⟩

/-- The type may come last, behind a field that nobody knows; a leap second stays one. -/
example :
    (Json.rewritten Event.readWire Event.wireText
      ("\x7b \"at\":\"2016-12-31 23:59:60+00:00\",\"error\":\"\"," ++
        "\"x\":[1],\"step_id\":\"a\",\"type\":\"step_failed\"\x7d").toList).toOption =
    some ("\x7b\"type\":\"step_failed\",\"step_id\":\"a\",\"error\":\"\"," ++
        "\"at\":\"2016-12-31T23:59:60Z\"\x7d").toList := by
  decide +kernel

end StepRelay
