import Mathlib.Data.List.Perm.Subperm
import StepRelay.Config.Load
import StepRelay.Proofs.ConfigPath
import StepRelay.Proofs.SpelledRecords

/-!
# Settings that are saved and loaded

Whatever is found at a path, and whichever reader of YAML is asked about it, settings that are
loaded are valid (`Config.valid_of_loadWith`): every way to settings but the defaults ends at the
check. Settings come back from what is written of them in a JSON file: their fields may stand in any
order and with others between them, and a field that is left out has its default
(`Config.readWire_objectOf`). Whether they are valid is asked behind that, so settings that are not
are refused for what is wrong with them, however they are written (`Config.loadedAs_of_readWire`).
-/

namespace StepRelay

/-! ## Names of JSON files

The extension is what stands behind the last dot of the last component, and it is compared without
regard to case.
-/

namespace Path

/-- The path ends with a name that has the extension json, in capital or small letters. -/
def NamesJson (path : Path) : Prop :=
  ∃ (stem : List UInt8) (letters : List Char), stem ≠ [] ∧
    letters.map Char.toLower = "json".toList ∧
      path.fileName? = some (stem ++ dot :: Text.utf8 letters)

/-- A letter is written small by itself or by the capital one that stands for it, which is 32 places
before it. -/
theorem eq_or_of_toLower {c small capital : Char} (h : c.toLower = small)
    (hcapital : capital.val + 0x20 = small.val) : c = small ∨ c = capital := by
  unfold Char.toLower at h
  split at h
  · have hval : c.val + 0x20 = small.val := congrArg Char.val h
    exact .inr (Char.ext ((UInt32.add_left_inj 0x20).1 (hval.trans hcapital.symm)))
  · exact .inl h

/-- The letters that become one of the extension when written small: one small and one capital
letter for each. -/
theorem mem_of_toLower {c : Char} (h : c.toLower ∈ "json".toList) : c ∈ "jsonJSON".toList := by
  have hsmall : c.toLower ∈ ['j', 's', 'o', 'n'] := h
  simp only [List.mem_cons, List.not_mem_nil, or_false] at hsmall
  rcases hsmall with h | h | h | h
  · rcases eq_or_of_toLower h (show 'J'.val + 0x20 = 'j'.val from rfl) with rfl | rfl <;> decide
  · rcases eq_or_of_toLower h (show 'S'.val + 0x20 = 's'.val from rfl) with rfl | rfl <;> decide
  · rcases eq_or_of_toLower h (show 'O'.val + 0x20 = 'o'.val from rfl) with rfl | rfl <;> decide
  · rcases eq_or_of_toLower h (show 'N'.val + 0x20 = 'n'.val from rfl) with rfl | rfl <;> decide

/-- What stands behind the last dot is the extension, if something stands before that dot. -/
theorem extension?_eq {path : Path} {stem extension : List UInt8} (hstem : stem ≠ [])
    (hextension : dot ∉ extension) (h : path.fileName? = some (stem ++ dot :: extension)) :
    path.extension? = some extension := by
  -- there is something in front of the dot, so it is not the dot of a hidden file
  have hdot : dot ∈ (stem ++ dot :: extension).drop 1 := by
    obtain ⟨b, rest, rfl⟩ := List.exists_cons_of_ne_nil hstem
    exact List.mem_append_right rest List.mem_cons_self
  -- and none behind it, so it is the last one
  have hletters : ∀ b ∈ extension.reverse, (b != dot) = true := by
    intro b hb
    rw [bne_iff_ne]
    rintro rfl
    exact hextension (List.mem_reverse.1 hb)
  rw [extension?, h]
  simp only [Option.bind_eq_bind, Option.bind_some, if_pos hdot]
  rw [List.reverse_append, List.reverse_cons, List.append_assoc,
    List.takeWhile_append_of_pos hletters]
  simp

/-- A letter of the extension is a byte of its own, which is no dot. -/
theorem byte_of_letter {c : Char} (h : c ∈ "jsonJSON".toList) :
    String.utf8EncodeChar c = [UInt8.ofNat c.toNat] ∧ UInt8.ofNat c.toNat ≠ dot ∧
      Char.ofNat (UInt8.ofNat c.toNat).toNat = c := by
  have hletter : c ∈ ['j', 's', 'o', 'n', 'J', 'S', 'O', 'N'] := h
  simp only [List.mem_cons, List.not_mem_nil, or_false] at hletter
  rcases hletter with rfl | rfl | rfl | rfl | rfl | rfl | rfl | rfl <;> decide

/-- A name that has the extension in letters of any case has it for the loader: the bytes of the
extension are its letters, and small letters are compared. -/
theorem NamesJson.hasExtension {path : Path} (h : path.NamesJson) :
    path.hasExtension "json" = true := by
  obtain ⟨stem, letters, hstem, hletters, hname⟩ := h
  have hletter : ∀ c ∈ letters, c ∈ "jsonJSON".toList :=
    fun c hc => mem_of_toLower (hletters ▸ List.mem_map_of_mem hc)
  -- letters of four kinds are one byte each, so the extension is compared byte by byte
  have hbytes : Text.utf8 letters = letters.map fun c => UInt8.ofNat c.toNat := by
    rw [Text.utf8, List.map_eq_flatMap]
    exact List.flatMap_congr fun c hc => (byte_of_letter (hletter c hc)).1
  -- and none of them is the dot that the extension begins behind
  have hdot : dot ∉ letters.map fun c => UInt8.ofNat c.toNat := by
    intro hmem
    obtain ⟨c, hc, hcdot⟩ := List.mem_map.1 hmem
    exact (byte_of_letter (hletter c hc)).2.1 hcdot
  have hsmall : "json".toList.map Char.toLower = "json".toList := by decide
  rw [hbytes] at hname
  rw [Path.hasExtension, extension?_eq hstem hdot hname, Option.any_some, List.map_map, beq_iff_eq,
    hsmall, ← hletters]
  exact List.map_congr_left fun c hc => congrArg Char.toLower (byte_of_letter (hletter c hc)).2.2

end Path

namespace Config

open Json

/-! ## Validity

Whatever has read the settings, they are checked at the end. So nothing has to be known of the
readers for this part, and the reader of the other format is a parameter.
-/

variable {yaml? : List Char → Option Config}

/-- Settings that pass the check are valid: the check returns one line only, and only behind both
tests. -/
theorem valid_of_validate {config : Config} {line : TraceLine} (h : config.validate = .ok line) :
    config.Valid := by
  have hline : line = config.validatedLine := by
    unfold validate at h
    split at h
    · cases h
    · split at h
      · cases h
      · exact (Except.ok.inj h).symm
  exact (validate_eq_ok_iff config).1 (hline ▸ h)

/-- Settings that a file's content gives are valid. How its text was read does not matter: the check
stands behind every reader. -/
theorem valid_of_ofContent {isJson : Bool} {content : List UInt8} {config : Config}
    (h : ofContent yaml? isJson content = .ok config) : config.Valid := by
  unfold ofContent at h
  split at h
  · cases h
  · -- some settings were found, and they passed the check
    obtain ⟨found, -, h⟩ := bind_eq_ok_iff.1 h
    obtain ⟨line, hline, h⟩ := bind_eq_ok_iff.1 h
    obtain rfl := Except.ok.inj h
    cases hvalidate : found.validate with
    | error error =>
      rw [hvalidate] at hline
      cases hline
    | ok line => exact valid_of_validate hvalidate

/-- **Settings that are loaded are valid**, whatever is found at the path and whatever the reader of
YAML makes of it. -/
theorem valid_of_loadWith {path : Path} {found : Found} {config : Config}
    (h : loadWith yaml? path found = .ok config) : config.Valid := by
  cases found with
  | missing =>
    -- the defaults are not checked, but they would pass
    obtain rfl := Except.ok.inj h
    decide
  | directory => cases h
  | file content => exact valid_of_ofContent h

/-- What comes of settings that a file holds: they are loaded if they are valid, and else refused
for the first capacity that is zero. -/
structure LoadedAs (config : Config) (loaded : Except LoadError Config) : Prop where
  valid : config.Valid → loaded = .ok config
  noScriptLog : config.scriptLogCapacity = 0 →
    loaded = .error (.invalid (.invalidField "scriptLogCapacity" "must be greater than zero"))
  noArchive : config.scriptLogCapacity ≠ 0 → config.archiveCapacity = 0 →
    loaded = .error (.invalid (.invalidField "archiveCapacity" "must be greater than zero"))

/-- The check does that to any settings. -/
theorem loadedAs_validate (config : Config) :
    LoadedAs config ((config.validate.mapError .invalid).map fun _ => config) where
  valid h := by
    rw [(validate_eq_ok_iff config).2 h]
    rfl
  noScriptLog h := by
    rw [validate, if_pos h]
    rfl
  noArchive hlog harchive := by
    rw [validate, if_neg hlog, if_pos harchive]
    rfl

/-- Settings that the text of a JSON file gives are loaded or refused; the reader of YAML is never
asked. -/
theorem loadedAs_of_readWire {path : Path} (hpath : path.NamesJson) {text : List Char}
    {config : Config} (h : readWhole? readWire text = .ok config) :
    LoadedAs config (loadWith yaml? path (.file (Text.utf8 text))) := by
  have hload : loadWith yaml? path (.file (Text.utf8 text)) =
      (config.validate.mapError .invalid).map fun _ => config := by
    rw [loadWith, hpath.hasExtension, ofContent, Text.fromUTF8?_utf8]
    simp only [String.toList_ofList]
    rw [ofText, if_pos rfl, h]
    change (config.validate.mapError LoadError.invalid >>= fun _ => pure config) = _
    cases config.validate <;> rfl
  rw [hload]
  exact config.loadedAs_validate

/-! ## Fields in any order

The fields of a record are read into a draft, one by one. Own fields are set and unknown ones passed
over, which leaves the same draft in any order.
-/

/-- The names of the fields of settings. -/
def fieldNames : List String := record.fields.map Field.name

/-- Those of the fields that are fields of settings. -/
def ownFields (fields : List (String × List Char)) : List (String × List Char) :=
  fields.filter fun field => field.1 ∈ fieldNames

/-- The settings with the fields of the given names, and with defaults for the others. -/
def keeping (config : Config) (names : List String) : Config :=
  let defaults : Config := {}
  { scriptLogCapacity :=
      if "scriptLogCapacity" ∈ names then config.scriptLogCapacity else defaults.scriptLogCapacity
    archiveCapacity :=
      if "archiveCapacity" ∈ names then config.archiveCapacity else defaults.archiveCapacity
    constantsOverridePublished :=
      if "constantsOverridePublished" ∈ names then config.constantsOverridePublished
      else defaults.constantsOverridePublished }

/-- Settings that keep all their fields are as they were. -/
theorem keeping_of_subset (config : Config) {names : List String} (h : fieldNames ⊆ names) :
    config.keeping names = config := by
  have hmem : ∀ name ∈ fieldNames, name ∈ names := fun name hname => h hname
  rw [keeping, if_pos (hmem _ (by decide)), if_pos (hmem _ (by decide)),
    if_pos (hmem _ (by decide))]

/-- What has been read of settings when the fields of the given names have been. -/
def draft (config : Config) (seen : List String) : Draft where
  scriptLogCapacity := given seen "scriptLogCapacity" config.scriptLogCapacity
  archiveCapacity := given seen "archiveCapacity" config.archiveCapacity
  constantsOverridePublished :=
    given seen "constantsOverridePublished" config.constantsOverridePublished

theorem getD_given {α : Type} (seen : List String) (name : String) (a other : α) :
    (given seen name a).getD other = if name ∈ seen then a else other := by
  unfold given
  split <;> rfl

theorem given_append {α : Type} {seen : List String} {name other : String} (h : name ≠ other)
    (a : α) : given (seen ++ [other]) name a = given seen name a := by
  simp [given, h]

/-- At the end of an object, the fields that have not come have their defaults. -/
theorem config_draft (config : Config) (seen : List String) :
    (config.draft seen).config = config.keeping seen := by
  simp only [Draft.config, draft, getD_given, keeping]

/-- A field of settings, when it comes for the first time, fills its place in the draft. -/
theorem takes_own {config : Config} (hlog : config.scriptLogCapacity < Nat.pow 2 64)
    (harchive : config.archiveCapacity < Nat.pow 2 64) {field : String × List Char}
    (h : field ∈ config.wireFields) :
    Takes record.readMember config.draft (· ∈ fieldNames) field := by
  intro seen hnew d hd behind before rest hrest
  have hmem : field.1 ∈ fieldNames := List.mem_map_of_mem h
  have hfree := hnew (decide_eq_true hmem)
  rw [Record.readMember_blanks, hd, ← List.append_assoc]
  simp only [wireFields, List.mem_cons, List.not_mem_nil, or_false] at h
  -- the two capacities are numbers, the third field is a flag
  rcases h with rfl | rfl | rfl
  · have hread := readNatural_padded before hlog "usize" hrest
    exact Record.readMember_fills rfl (given_of_not_mem hfree _) hread (by simp [draft, given])
  · have hread := readNatural_padded before harchive "usize" hrest
    exact Record.readMember_fills rfl (given_of_not_mem hfree _) hread (by simp [draft, given])
  · have hread := readBool_padded before config.constantsOverridePublished rest
    exact Record.readMember_fills rfl (given_of_not_mem hfree _) hread (by simp [draft, given])

/-- A field that is none of settings says nothing about them. -/
theorem takes_other {config : Config} {field : String × List Char} (h : field.1 ∉ fieldNames) :
    Takes record.readMember config.draft (· ∈ fieldNames) field := by
  intro seen _ d _ behind before rest hrest
  -- no field of the record has the name, so the value is skipped
  have hunknown : (record.fields.find? fun other => other.name == field.1) = none := by
    rw [List.find?_eq_none]
    intro other hother hname
    exact h (beq_iff_eq.1 hname ▸ List.mem_map_of_mem hother)
  -- and the draft does not ask whether the name has been seen
  have hdraft : config.draft (seen ++ [field.1]) = config.draft seen := by
    have hname : ∀ name ∈ fieldNames, name ≠ field.1 := fun name hown hsame => h (hsame ▸ hown)
    rw [draft, draft, given_append (hname "scriptLogCapacity" (by decide)),
      given_append (hname "archiveCapacity" (by decide)),
      given_append (hname "constantsOverridePublished" (by decide))]
  rw [Record.readMember_blanks, Record.readMember_unknown hunknown _ before d hrest, hdraft]

/-- Own fields of settings, none of them twice, are read from any object that holds them. -/
theorem readWire_objectOf {config : Config} (hlog : config.scriptLogCapacity < Nat.pow 2 64)
    (harchive : config.archiveCapacity < Nat.pow 2 64) {fields : List (String × List Char)}
    {text : List Char} (htext : ObjectOf fields text)
    (hown : (ownFields fields).Subperm config.wireFields) :
    readWhole? readWire text = .ok (config.keeping (fields.map Prod.fst)) := by
  -- own fields have the texts they were saved with, and any other is skipped
  have htakes : ∀ field ∈ fields, Takes record.readMember config.draft (· ∈ fieldNames) field := by
    intro field hfield
    by_cases hname : field.1 ∈ fieldNames
    · exact takes_own hlog harchive
        (hown.subset (List.mem_filter.2 ⟨hfield, decide_eq_true hname⟩))
    · exact takes_other hname
  -- a setting is not given twice, since those given are among those saved
  have hkeys : fields.Pairwise fun one other =>
      decide (one.1 ∈ fieldNames) = true → one.1 ≠ other.1 := by
    obtain ⟨written, hperm, hsublist⟩ := hown
    have hdistinct : (written.map Prod.fst).Nodup :=
      (hsublist.map Prod.fst).nodup (show fieldNames.Nodup by decide)
    have hpairs : (ownFields fields).Pairwise fun one other => one.1 ≠ other.1 :=
      List.pairwise_map.1 ((hperm.map Prod.fst).nodup_iff.1 hdistinct)
    refine (List.pairwise_filter.1 hpairs).imp ?_
    intro one other hpair hone hsame
    exact hpair hone (hsame ▸ hone) hsame
  exact Record.read_objectOf htext rfl htakes hkeys
    (congrArg Except.ok (config.config_draft (fields.map Prod.fst)))

/-! ## Saving and loading

What has been saved are all fields with their values. Reading them back gives the settings, which
are valid if they were.
-/

/-- What is written for a field of settings is the text of a document. -/
theorem exists_document_of_wireFields {config : Config} {field : String × List Char}
    (h : field ∈ config.wireFields) : ∃ d : Document, d.text = field.2 := by
  simp only [wireFields, List.mem_cons, List.not_mem_nil, or_false] at h
  rcases h with rfl | rfl | rfl
  · exact ⟨.number (.ofInt config.scriptLogCapacity), Literal.text_ofInt _⟩
  · exact ⟨.number (.ofInt config.archiveCapacity), Literal.text_ofInt _⟩
  · exact ⟨.bool config.constantsOverridePublished, rfl⟩

/-- **Loaded settings are valid, and settings survive being saved.** Whatever is found at a path,
and whatever a reader of YAML makes of it, what is loaded is valid. Settings with capacities below
`2 ^ 64` are loaded again from their text in a file whose name has the extension json, and from any
object with the same fields in any order and with other fields anywhere between them; without some
of the fields, the settings that have defaults there are loaded. Settings that are not valid are
refused for the first capacity that is zero. -/
theorem saved_settings_survive (yaml? : List Char → Option Config) :
    (∀ path found config, loadWith yaml? path found = .ok config → config.Valid) ∧
    ∀ config : Config, config.scriptLogCapacity < Nat.pow 2 64 →
      config.archiveCapacity < Nat.pow 2 64 → ∀ path : Path, path.NamesJson →
        LoadedAs config (loadWith yaml? path (.file (Text.utf8 config.wireText))) ∧
        ∀ fields text, ObjectOf fields text →
          ((ownFields fields).Perm config.wireFields →
            LoadedAs config (loadWith yaml? path (.file (Text.utf8 text)))) ∧
          ((ownFields fields).Subperm config.wireFields →
            LoadedAs (config.keeping (fields.map Prod.fst))
              (loadWith yaml? path (.file (Text.utf8 text)))) := by
  refine ⟨fun path found config => valid_of_loadWith, ?_⟩
  intro config hlog harchive path hpath
  have hpart : ∀ fields text, ObjectOf fields text → (ownFields fields).Subperm config.wireFields →
      LoadedAs (config.keeping (fields.map Prod.fst))
        (loadWith yaml? path (.file (Text.utf8 text))) :=
    fun fields text htext hown =>
      loadedAs_of_readWire hpath (readWire_objectOf hlog harchive htext hown)
  -- with all its fields there, what the settings keep is all of them
  have hwhole : ∀ fields text, ObjectOf fields text → (ownFields fields).Perm config.wireFields →
      LoadedAs config (loadWith yaml? path (.file (Text.utf8 text))) := by
    intro fields text htext hown
    have hnames : fieldNames ⊆ fields.map Prod.fst := by
      have hperm : ((ownFields fields).map Prod.fst).Perm fieldNames := hown.map Prod.fst
      exact fun name hname => List.map_subset Prod.fst (List.filter_subset_self _)
        (hperm.mem_iff.2 hname)
    have hloaded := hpart fields text htext hown.subperm
    rwa [config.keeping_of_subset hnames] at hloaded
  have hown : ownFields config.wireFields = config.wireFields := rfl
  have hsaved : ObjectOf config.wireFields config.wireText :=
    objectOf_objectText fun field => exists_document_of_wireFields
  refine ⟨hwhole _ _ hsaved (hown ▸ List.Perm.refl _), fun fields text htext => ?_⟩
  exact ⟨hwhole fields text htext, hpart fields text htext⟩

/-- With the library's own reader of YAML: a YAML file gives settings, and they are valid. Settings
without a script log are refused in reverse order with an unknown field in front. Without the field
that is wrong, its default is loaded. -/
theorem saved_settings_survive_reversed :
    let config : Config := ⟨0, 7, false⟩
    let path := Path.ofString "a/.b.jSoN"
    let unknown := ("x", "null".toList)
    (load (Path.ofString "b.yaml") (.file (Text.utf8 "archiveCapacity: 5".toList)) =
        .ok { archiveCapacity := 5 } ∧
      Valid { archiveCapacity := 5 }) ∧
    path.NamesJson ∧
      load path (.file (Text.utf8 (objectText (unknown :: config.wireFields.reverse)))) =
        .error (.invalid (.invalidField "scriptLogCapacity" "must be greater than zero")) ∧
      load path (.file (Text.utf8 (objectText [unknown, ("archiveCapacity", ['7'])]))) =
        .ok { archiveCapacity := 7 } := by
  intro config path unknown
  -- the project's own reader of the other format, on a document with one setting
  have hyaml : load (Path.ofString "b.yaml") (.file (Text.utf8 "archiveCapacity: 5".toList)) =
      .ok { archiveCapacity := 5 } := by
    rw [load, loadWith, ofContent, Text.fromUTF8?_utf8]
    have htext : ofDocument? "archiveCapacity: 5".toList = some { archiveCapacity := 5 } := by
      decide +kernel
    have hname : (Path.ofString "b.yaml").hasExtension "json" = false := by decide
    have hfull : Text.trim "archiveCapacity: 5".toList ≠ [] := by decide
    simp only [String.toList_ofList]
    rw [hname, ofText, if_neg Bool.false_ne_true, if_neg hfull, htext]
    rfl
  have hvalid : Valid { archiveCapacity := 5 } :=
    (saved_settings_survive ofDocument?).1 _ _ _ hyaml
  have hpath : path.NamesJson :=
    ⟨(Path.ofString ".b").bytes, "jSoN".toList, by decide, by decide, by decide⟩
  obtain ⟨-, hread⟩ :=
    (saved_settings_survive ofDocument?).2 config (by decide) (by decide) path hpath
  -- all members in the wrong order, and one that no setting has
  have hreversed : ObjectOf (unknown :: config.wireFields.reverse)
      (objectText (unknown :: config.wireFields.reverse)) := by
    apply objectOf_objectText
    intro field hfield
    rcases List.mem_cons.1 hfield with rfl | hfield
    · exact ⟨.null, rfl⟩
    · exact exists_document_of_wireFields (List.mem_reverse.1 hfield)
  -- one setting alone leaves the others at their defaults
  have hpart : ObjectOf [unknown, ("archiveCapacity", ['7'])]
      (objectText [unknown, ("archiveCapacity", ['7'])]) := by
    apply objectOf_objectText
    intro field hfield
    rcases List.mem_cons.1 hfield with rfl | hfield
    · exact ⟨.null, rfl⟩
    · obtain rfl := List.mem_singleton.1 hfield
      exact ⟨.number (.ofInt 7), rfl⟩
  refine ⟨⟨hyaml, hvalid⟩, hpath, ?_, ?_⟩
  · exact ((hread _ _ hreversed).1 (List.reverse_perm config.wireFields)).noScriptLog rfl
  · exact ((hread _ _ hpart).2 (List.Sublist.subperm (by decide))).valid (by decide)

end Config

end StepRelay
