import StepRelay.Proofs.Records
import StepRelay.Proofs.Writers

/-!
# Cells through text and back

The text of a value is the text of its tree (`Value.write_eq`), so it exists exactly if the doubles
are finite. It is taken off the front of a text by a reader of values, unless the value nests deeper
than the reader may go (`Value.Mirrors.readValue`). Reading a cell fills a draft: with each field
that is read, the draft of the fields seen so far becomes that of one field more
(`Cell.readMember_draft`), whichever field it is. So a cell comes back from its five fields in any
order (`Cell.read_written`); the brackets of the cell leave 126 for its value.
-/

namespace StepRelay

/-! ## Values

A value with a tree is written as that tree, and read back from it within the depth that the reader
has.
-/

namespace Value.Mirrors

variable {json : Json} {value : Value} (h : Mirrors json value)

include h

/-- A value is written as its tree is. -/
theorem write : value.write = .ok json.text := write_of_toJson (h.tree "$")

/-- Built without a tree, the value is the same, since no key repeats. -/
theorem build (hkeys : value.WellFormed) : Json.build? builder json = some value := by
  -- that its tree can be built means that all its integers fit
  have hfitting : json.Fitting := by
    refine (Json.build?_isSome_iff .mapping json).1 ?_
    change (Json.build? Json.plainBuilder json).isSome = true
    rw [h.back]
    rfl
  obtain ⟨other, hother⟩ := Option.isSome_iff_exists.1
    ((Json.build?_isSome_iff (fun members => mapping (Entries.merge members)) json).2 hfitting)
  have hsame := Json.build?_merged json hother
  rw [Json.merged_of_wellFormed json (h.wellFormed hkeys), h.back] at hsame
  rw [hsame]
  exact hother

/-- The value is read off the front of a text, unless it nests deeper than the reader may go. -/
theorem readValue (hkeys : value.WellFormed) (depth : Nat) {rest : List Char}
    (hrest : Json.EndsNumber rest) :
    (Json.readValue builder depth (json.text ++ rest)).toOption =
      if value.depth ≤ depth then some (value, rest) else none := by
  rw [Json.readValue_builds builder depth (json.text ++ rest), Json.readValue_json json depth hrest,
    h.depth]
  split
  · simp [h.build hkeys]
  · rfl

end Value.Mirrors

/-! ## Cells

The fields of a cell are written in one order and read in any. The one that can fail is the value.
-/

namespace Cell

open Json

/-- The written fields of a cell whose value has the given text. -/
def fieldsWith (cell : Cell) (text : List Char) : List (String × List Char) := [
  ("name", stringText cell.name),
  ("value", text),
  ("origin_step", cell.origin.wireText),
  ("kind", cell.kind.wireText),
  ("written_at", Nat.toDigits 10 cell.writtenAt)]

/-- What has been read of a cell when the fields of the given names have been. -/
def draft (cell : Cell) (seen : List String) : Draft where
  name := if "name" ∈ seen then some cell.name else none
  value := if "value" ∈ seen then some cell.value else none
  origin := if "origin_step" ∈ seen then some cell.origin else none
  kind := if "kind" ∈ seen then some cell.kind else none
  writtenAt := if "written_at" ∈ seen then some cell.writtenAt else none

/-- Whether a field can be read: the value takes the brackets that the cell leaves. -/
def readable (cell : Cell) (field : String × List Char) : Bool :=
  field.1 ≠ "value" ∨ cell.value.depth ≤ 126

section Written

variable {cell : Cell} {json : Json} (hjson : Value.Mirrors json cell.value)
  (hkeys : cell.value.WellFormed) (htime : cell.writtenAt < Nat.pow 2 64)

include hjson

/-- The fields of a cell are written with the tree of its value. -/
theorem wireFields_of_mirrors : cell.wireFields = .ok (cell.fieldsWith json.text) := by
  rw [wireFields, hjson.write]
  rfl

theorem wireText_of_mirrors : cell.wireText = .ok (objectText (cell.fieldsWith json.text)) := by
  rw [wireText, wireFields_of_mirrors hjson]
  rfl

include hkeys htime

/-- Whichever field comes next, the draft is that of one field more. -/
theorem readMember_draft {field : String × List Char} (hfield : field ∈ cell.fieldsWith json.text)
    (seen : List String) (rest : List Char) (hnew : field.1 ∉ seen) (hrest : EndsNumber rest) :
    (record.readMember (cell.draft seen) field.1 (':' :: (field.2 ++ rest))).toOption =
      if cell.readable field then some (cell.draft (seen ++ [field.1]), rest) else none := by
  simp only [fieldsWith, List.mem_cons, List.not_mem_nil, or_false] at hfield
  -- by its name, each field but the value is one that can be read
  rcases hfield with rfl | rfl | rfl | rfl | rfl
  · have hread := readText_stringText "a string" cell.name rest
    exact Record.readMember_fills rfl (if_neg hnew) hread (by simp [draft])
  · -- the value is the one field that can be too deep
    have hfree : (cell.draft seen).value = none := if_neg hnew
    have hmember := @Record.readMember_of _ _ record _ "value" Draft.value _ _ rfl _ hfree
      (json.text ++ rest)
    have hreadable : cell.readable ("value", json.text) = decide (cell.value.depth ≤ 126) := by
      simp [readable]
    rw [hmember, hreadable]
    change ((Json.readValue Value.builder 126 (json.text ++ rest)).toOption).map _ = _
    rw [hjson.readValue hkeys 126 hrest]
    by_cases hdepth : cell.value.depth ≤ 126 <;> simp [hdepth, draft]
  · have hread := readStep_wireText cell.origin rest
    exact Record.readMember_fills rfl (if_neg hnew) hread (by simp [draft])
  · have hread : (CellKind.readWire (cell.kind.wireText ++ rest)).toOption =
        some (cell.kind, rest) := by
      apply readChoice_stringText
      cases cell.kind <;> rfl
    exact Record.readMember_fills rfl (if_neg hnew) hread (by simp [draft])
  · have hread := readNatural_toDigits htime "u64" hrest
    exact Record.readMember_fills rfl (if_neg hnew) hread (by simp [draft])

/-- The fields of a cell are read to the cell, in whichever order they are. -/
theorem read_written {fields : List (String × List Char)}
    (hfields : fields.Perm (cell.fieldsWith json.text)) :
    (readWhole? readWire (objectText fields)).toOption =
      if cell.value.depth ≤ 126 then some cell else none := by
  have hnames : (fields.map Prod.fst).Perm ["name", "value", "origin_step", "kind", "written_at"] :=
    hfields.map Prod.fst
  have hdistinct : (fields.map Prod.fst).Nodup := hnames.nodup_iff.2 (by decide)
  -- all fields can be read if the value can
  have hall : fields.all cell.readable = decide (cell.value.depth ≤ 126) := by
    rw [hfields.all_eq]
    simp [fieldsWith, readable]
  have hfinish : (cell.draft (fields.map Prod.fst)).finish = .ok cell := by
    simp only [draft, hnames.mem_iff, List.mem_cons, true_or, or_true, if_true]
    rfl
  have hmember : ∀ field ∈ fields, ∀ seen rest, field.1 ∉ seen → EndsNumber rest →
      (record.readMember (cell.draft seen) field.1 (':' :: (field.2 ++ rest))).toOption =
        if cell.readable field then some (cell.draft (seen ++ [field.1]), rest) else none :=
    fun field hfield => readMember_draft hjson hkeys htime (hfields.mem_iff.1 hfield)
  have hread := Record.read_fields rfl hmember hdistinct
  rw [hall] at hread
  change (readWhole? record.read (objectText fields)).toOption = _
  rw [hread]
  change (if _ then (Draft.finish _).toOption else none) = _
  rw [hfinish]
  simp

end Written

/-- Only a double that is not finite keeps a cell from being written. -/
theorem exists_wireText_iff (cell : Cell) :
    (∃ text, cell.wireText = .ok text) ↔ cell.value.AllFinite := by
  constructor
  · -- the value was written on the way
    rintro ⟨text, htext⟩
    obtain ⟨fields, hfields, -⟩ := bind_eq_ok_iff.1 htext
    obtain ⟨written, hwritten, -⟩ := bind_eq_ok_iff.1 hfields
    exact cell.value.exists_write_iff.1 ⟨written, hwritten⟩
  · intro hfinite
    obtain ⟨json, hjson⟩ := Value.exists_tree cell.value hfinite
    exact ⟨_, wireText_of_mirrors hjson⟩

/-- **A cell comes back from its text**, whichever order the fields of the text are put in, exactly
if its value nests no deeper than 126 brackets; a deeper one makes the text an error. There is a
text exactly if all doubles of the value are finite. Written times go up to `2 ^ 64 - 1`. -/
theorem wire_round_trip (cell : Cell) (hkeys : cell.value.WellFormed)
    (htime : cell.writtenAt < Nat.pow 2 64) :
    ((∃ text, cell.wireText = .ok text) ↔ cell.value.AllFinite) ∧
    (cell.value.AllFinite → ∃ fields, cell.wireFields = .ok fields ∧
      cell.wireText = .ok (objectText fields) ∧
      ∀ others : List (String × List Char), others.Perm fields →
        (readWhole? readWire (objectText others) = .ok cell ↔ cell.value.depth ≤ 126) ∧
        (126 < cell.value.depth →
          ∃ fault, readWhole? readWire (objectText others) = .error fault)) := by
  refine ⟨cell.exists_wireText_iff, fun hfinite => ?_⟩
  -- the value is written as its tree, so one tree serves both directions
  obtain ⟨json, hjson⟩ := Value.exists_tree cell.value hfinite
  refine ⟨cell.fieldsWith json.text, wireFields_of_mirrors hjson, wireText_of_mirrors hjson, ?_⟩
  intro others hothers
  have hread := read_written hjson hkeys htime hothers
  constructor
  · rw [← toOption_eq_some_iff, hread]
    simp
  · intro hdeep
    rw [if_neg (Nat.not_le.2 hdeep)] at hread
    exact toOption_eq_none_iff.1 hread

/-- A cell with the last time there is and a minus zero is read from its fields in reverse. -/
theorem wire_round_trip_reversed :
    let cell : Cell := ⟨"\x00", .sequence [.float (.zero true)], ⟨"é"⟩, .output, Nat.pow 2 64 - 1⟩
    ∃ fields, cell.wireFields = .ok fields ∧
      readWhole? readWire (objectText fields.reverse) = .ok cell := by
  intro cell
  have hkeys : cell.value.WellFormed := ⟨trivial, trivial⟩
  have hfinite : cell.value.AllFinite := ⟨rfl, trivial⟩
  obtain ⟨-, hwritten⟩ := wire_round_trip cell hkeys (by decide)
  obtain ⟨fields, hfields, -, hread⟩ := hwritten hfinite
  exact ⟨fields, hfields, (hread fields.reverse fields.reverse_perm).1.2 (by decide)⟩

end Cell

end StepRelay
