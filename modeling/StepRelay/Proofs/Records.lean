import StepRelay.Json.TreeField
import StepRelay.Proofs.Spelling
import StepRelay.Wire.Cell

/-!
# Reading written records

What a printer writes, the reader of the same type takes off the front of a text: a string, the name
of a choice, a natural below `2 ^ 64`, a tree. An object of written fields is read member by member
(`readObject_fields`): if each member, whenever its key has not been seen, moves the reader from one
state to the next, the object leads to the state in which all its keys have been seen. The order of
the fields does not matter then, and neither does what stands in them, but for the question whether
it can be read.

## The argument

* A round of the loop reads one member and then goes on or ends (`readMembers_of_more`,
  `readMembers_of_last`).
* The state after some members is a function of their keys, and each member adds its own
  (`readMembers_fields`); so the fields may come in any order (`readObject_fields`).
* A record keeps each field in a component of its own (`readMember_fills`), and asks for missing
  ones at the end (`read_fields`).
-/

namespace StepRelay.Json

/-! ## Scalars

Every lemma has the text behind what is read, since a field may be followed by others. Only a number
has to be told where it ends.
-/

/-- A string is read back from its escapes, up to its closing quote. -/
theorem readString_escaped (text : String) (rest : List Char) :
    (readString (text.toList.flatMap escapeChar ++ '"' :: rest)).toOption = some (text, rest) := by
  obtain ⟨pieces, hquoted, hmeaning⟩ := exists_quoted text
  have htext : pieces.flatMap Piece.text = text.toList.flatMap escapeChar :=
    List.append_cancel_right (List.cons.inj hquoted).2
  rw [← htext, readString_pieces, hmeaning, Option.map_some, String.ofList_toList]

/-- A written string begins with a quote, and has its closing one. -/
theorem stringText_append (text : String) (rest : List Char) :
    stringText text ++ rest = '"' :: (text.toList.flatMap escapeChar ++ '"' :: rest) := by
  rw [stringText, List.cons_append, List.append_assoc]
  rfl

/-- Where a string is expected, a written one is read. -/
theorem readText_stringText (expected text : String) (rest : List Char) :
    (readText expected (stringText text ++ rest)).toOption = some (text, rest) := by
  rw [stringText_append, readText, skipBlanks_cons rfl]
  exact readString_escaped text rest

section Choices

variable {α : Type} {name : α → String} {choices : List α} {a : α}
  (h : choices.find? (fun b => name b == name a) = some a) (rest : List Char)

include h

/-- A name of a choice is read as a string, and looked up. -/
theorem readName_stringText :
    (readName name choices (stringText (name a) ++ rest)).toOption = some (a, rest) := by
  simp only [readName, toOption_bind, readText_stringText, Option.bind_some, choice, h]
  rfl

/-- A choice that its name leads to is read from its name. -/
theorem readChoice_stringText :
    (readChoice name choices (stringText (name a) ++ rest)).toOption = some (a, rest) := by
  have hname := readName_stringText h rest
  rw [stringText_append] at hname ⊢
  rw [readChoice, skipBlanks_cons rfl]
  simp only [if_true, hname]

end Choices

/-- A natural below `2 ^ 64` is a number that a reader takes for an integer. -/
theorem fits_natCast {n : Nat} (h : n < Nat.pow 2 64) :
    -Nat.pow 2 63 ≤ (n : Int) ∧ (n : Int) < Nat.pow 2 64 :=
  ⟨Int.le_trans (by decide) (Int.natCast_nonneg n), Int.ofNat_lt.2 h⟩

/-- A natural below `2 ^ 64` is read from its digits, if they end where the number does. -/
theorem readNatural_toDigits {n : Nat} (h : n < Nat.pow 2 64) (typeName : String) {rest : List Char}
    (hrest : EndsNumber rest) :
    (readNatural typeName (Nat.toDigits 10 n ++ rest)).toOption = some (n, rest) := by
  have hfits := fits_natCast h
  have htext : (Literal.ofInt n).text = Nat.toDigits 10 n := Literal.text_ofInt n
  have hnumber := readNumber_text (Literal.ofInt n) hrest
  rw [Literal.number?_ofInt hfits, htext] at hnumber
  -- a number begins with a digit or a sign, which no blank is
  obtain ⟨c, digits, hdigits, hc⟩ := (Literal.ofInt n).text_head
  rw [htext] at hdigits
  have hopens : Opens c := .inr hc
  rw [hdigits, List.cons_append] at hnumber ⊢
  rw [readNatural, skipBlanks_cons hopens.not_blank]
  have hnatural : naturalOf typeName (.integer n hfits) = .ok n := by
    rw [naturalOf, if_pos (Int.natCast_nonneg n), Int.toNat_natCast]
  simp only [if_pos hc, toOption_bind, hnumber, Option.map_some, Option.bind_some, hnatural]
  rfl

/-- A tree is read from its text, unless it nests deeper than the reader may go. -/
theorem readValue_json (json : Json) (depth : Nat) {rest : List Char} (hrest : EndsNumber rest) :
    (readValue rawBuilder depth (json.text ++ rest)).toOption =
      if json.depth ≤ depth then some (json, rest) else none := by
  obtain ⟨d, htext, htree, hdepth⟩ := exists_document json
  have hread := readValue_text depth .none d rest hrest
  change (readValue rawBuilder depth (d.text ++ rest)).toOption = _ at hread
  rw [htext, Document.within?, htree, hdepth] at hread
  rw [hread]
  split <;> rfl

/-- A step id is read back from its text. -/
theorem readStep_wireText (step : StepId) (rest : List Char) :
    (StepId.readWire (step.wireText ++ rest)).toOption = some (step, rest) := by
  rw [StepId.readWire, StepId.wireText, toOption_bind, readText_stringText]
  rfl

/-! ### Inversion

What a reader has taken tells something about what it took: a natural is below its bound. And a
reader that only says what it expected takes nothing.
-/

/-- **A natural that was read is below** `2 ^ 64`. -/
theorem lt_of_naturalOf {typeName : String} {number : Number} {n : Nat}
    (h : naturalOf typeName number = .ok n) : n < Nat.pow 2 64 := by
  cases number with
  | double d finite => cases h
  | integer value fits =>
    rw [naturalOf] at h
    split at h
    · -- an integer that was taken is not negative, and the type of numbers bounds it
      have hn : value.toNat = n := Except.ok.inj h
      have hpow : ((Nat.pow 2 64 : Nat) : Int) = 18446744073709551616 := rfl
      omega
    · cases h

/-- Whatever stands in front of a text, something else was expected. -/
theorem refuse_ne_ok {α : Type} (expected : String) (text : List Char) (a : α) :
    refuse expected text ≠ .ok a := by
  intro h
  rw [refuse] at h
  -- at the end of the text there is nothing to report
  split at h
  · cases h
  · -- what stands there is read to its end first, or else it is reported at once
    repeat' split at h
    all_goals first
      | cases h
      | obtain ⟨read, -, h⟩ := bind_eq_ok_iff.1 h
        cases h

/-! ## Objects of written fields

The invariant of the loop is a state that depends on the keys seen so far and on nothing else. The
order of the fields is the order in which the keys are seen; it does not show in the end, if the
final state does not depend on it.
-/

/-- The texts of the members of an object of written fields. -/
def fieldTexts (fields : List (String × List Char)) : List (List Char) :=
  fields.map fun field => memberText field.1 field.2

/-- What is left of an object, from behind the opening quote of a field's key. -/
def fromKey (field : String × List Char) (others : List (String × List Char)) (rest : List Char) :
    List Char :=
  field.1.toList.flatMap escapeChar ++
    '"' :: ':' :: (field.2 ++ follow '\x7d' rest (fieldTexts others))

/-- The fields with commas between them begin with the first one's key. -/
theorem intercalate_fieldTexts (field : String × List Char) (others : List (String × List Char))
    (rest : List Char) :
    [','].intercalate (fieldTexts (field :: others)) ++ '\x7d' :: rest =
      '"' :: fromKey field others rest := by
  rw [fieldTexts, List.map_cons, intercalate_cons, memberText, List.append_assoc, stringText_append]
  rfl

theorem follow_fieldTexts (rest : List Char) (second : String × List Char)
    (more : List (String × List Char)) :
    follow '\x7d' rest (fieldTexts (second :: more)) = ',' :: '"' :: fromKey second more rest :=
  congrArg (',' :: ·) (intercalate_fieldTexts second more rest)

theorem fromKey_nil (field : String × List Char) (rest : List Char) :
    fromKey field [] rest =
      field.1.toList.flatMap escapeChar ++ '"' :: ':' :: (field.2 ++ '\x7d' :: rest) :=
  rfl

/-- What is left at a key, if another field follows. -/
theorem fromKey_cons (first second : String × List Char) (more : List (String × List Char))
    (rest : List Char) :
    fromKey first (second :: more) rest = first.1.toList.flatMap escapeChar ++
      '"' :: ':' :: (first.2 ++ ',' :: '"' :: fromKey second more rest) := by
  rw [fromKey, follow_fieldTexts]

/-- A field ends where the text behind it begins, also if it is a number. -/
theorem endsNumber_fieldTexts (rest : List Char) (fields : List (String × List Char)) :
    EndsNumber (follow '\x7d' rest (fieldTexts fields)) :=
  endsNumber_follow .none (.inr rfl) rest (fieldTexts fields)

/-! ### One round of the loop

A member has been read when a comma or the closing brace is met behind it.
-/

section Round

variable {σ : Type} {member : σ → String → Reader σ} {before after : σ} {key : String}
  {text rest tail behind : List Char} (hkey : (readString text).toOption = some (key, rest))

include hkey

/-- A member that is refused ends the loop without a result. -/
theorem readMembers_of_refused (h : (member before key rest).toOption = none) (fuel : Nat) :
    (readMembers member (fuel + 1) before text).toOption = none := by
  rw [readMembers_succ, hkey, Option.bind_some, h]
  rfl

/-- A member with the closing brace behind it ends the loop. -/
theorem readMembers_of_last (h : (member before key rest).toOption = some (after, tail))
    (htail : afterMember? tail = some (.ends behind)) (fuel : Nat) :
    (readMembers member (fuel + 1) before text).toOption = some (after, behind) := by
  rw [readMembers_succ, hkey, Option.bind_some, h, Option.bind_some, htail]
  rfl

/-- A member with a comma behind it leaves the rest to the next round. -/
theorem readMembers_of_more (h : (member before key rest).toOption = some (after, tail))
    (htail : afterMember? tail = some (.goesOn behind)) (fuel : Nat) :
    (readMembers member (fuel + 1) before text).toOption =
      (readMembers member fuel after behind).toOption := by
  rw [readMembers_succ, hkey, Option.bind_some, h, Option.bind_some, htail]
  rfl

end Round

/-! ### All rounds

The induction is on the fields that are left. The state that a round begins with is given by the
keys seen so far, and each round adds one of them.
-/

section Fields

variable {σ : Type} {member : σ → String → Reader σ} {state : List String → σ}
  {readable : String × List Char → Bool} {fields : List (String × List Char)}
  (h : ∀ field ∈ fields, ∀ seen rest, field.1 ∉ seen → EndsNumber rest →
    (member (state seen) field.1 (':' :: (field.2 ++ rest))).toOption =
      if readable field then some (state (seen ++ [field.1]), rest) else none)

include h

/-- The members are read one after the other, each with a key that was not seen before. -/
theorem readMembers_fields (rest : List Char) {first : String × List Char}
    {others : List (String × List Char)} (hfields : ∀ field ∈ first :: others, field ∈ fields)
    (hkeys : ((first :: others).map Prod.fst).Nodup) {seen : List String}
    (hseen : ∀ field ∈ first :: others, field.1 ∉ seen) {fuel : Nat}
    (hfuel : (fromKey first others rest).length < fuel) :
    (readMembers member fuel (state seen) (fromKey first others rest)).toOption =
      if (first :: others).all readable then
        some (state (seen ++ (first :: others).map Prod.fst), rest)
      else none := by
  -- on the fields behind the first one; `seen` are the keys in front of it
  induction others generalizing first seen fuel with
  | nil =>
    obtain ⟨fuel, rfl⟩ := Nat.exists_eq_add_one_of_ne_zero (Nat.ne_zero_of_lt hfuel)
    -- the last field, with the closing brace behind it
    have hkey := readString_escaped first.1 (':' :: (first.2 ++ '\x7d' :: rest))
    have hends : EndsNumber ('\x7d' :: rest) := endsNumber_fieldTexts rest []
    have hmember := h first (hfields first List.mem_cons_self) seen _
      (hseen first List.mem_cons_self) hends
    rw [fromKey_nil]
    cases hreadable : readable first with
    | false =>
      rw [hreadable, if_neg Bool.false_ne_true] at hmember
      rw [readMembers_of_refused hkey hmember]
      simp [hreadable]
    | true =>
      rw [hreadable, if_pos rfl] at hmember
      rw [readMembers_of_last hkey hmember rfl]
      simp [hreadable]
  | cons second more ih =>
    obtain ⟨fuel, rfl⟩ := Nat.exists_eq_add_one_of_ne_zero (Nat.ne_zero_of_lt hfuel)
    rw [List.map_cons, List.nodup_cons] at hkeys
    have hkey := readString_escaped first.1
      (':' :: (first.2 ++ ',' :: '"' :: fromKey second more rest))
    -- a field with a comma behind it, and the next one to come
    have hends := endsNumber_fieldTexts rest (second :: more)
    rw [follow_fieldTexts] at hends
    have hmember := h first (hfields first List.mem_cons_self) seen _
      (hseen first List.mem_cons_self) hends
    rw [fromKey_cons]
    cases hreadable : readable first with
    | false =>
      rw [hreadable, if_neg Bool.false_ne_true] at hmember
      rw [readMembers_of_refused hkey hmember]
      simp [hreadable]
    | true =>
      rw [hreadable, if_pos rfl] at hmember
      -- the key that was just seen does not come again, and what is left is shorter
      have hothers : ∀ field ∈ second :: more, field.1 ∉ seen ++ [first.1] := by
        intro field hfield hmem
        rcases List.mem_append.1 hmem with hold | hlast
        · exact hseen field (List.mem_cons_of_mem first hfield) hold
        · exact hkeys.1 (List.mem_singleton.1 hlast ▸ List.mem_map_of_mem hfield)
      have hshorter : (fromKey second more rest).length < fuel := by
        rw [fromKey_cons] at hfuel
        simp only [List.length_append, List.length_cons] at hfuel
        omega
      have hmore := ih (fun field hfield => hfields field (List.mem_cons_of_mem first hfield))
        hkeys.2 hothers hshorter
      have hall : (first :: second :: more).all readable = (second :: more).all readable := by
        rw [List.all_cons, hreadable, Bool.true_and]
      rw [readMembers_of_more hkey hmember rfl, hmore, hall, List.append_assoc]
      rfl

/-- An object of written fields is read to the state in which all its keys have been seen, if every
field can be read. -/
theorem readObject_fields (hkeys : (fields.map Prod.fst).Nodup) (rest : List Char) :
    (readObject member (state [])
        ([','].intercalate (fieldTexts fields) ++ '\x7d' :: rest)).toOption =
      if fields.all readable then some (state (fields.map Prod.fst), rest) else none := by
  rw [readObject]
  cases fields with
  | nil => rfl
  | cons first others =>
    rw [intercalate_fieldTexts, skipBlanks_cons rfl]
    exact readMembers_fields h rest (fun field hfield => hfield) hkeys
      (fun field _ hseen => List.not_mem_nil hseen) (Nat.lt_succ_self _)

end Fields

/-- Where every field can be read, so can the object. -/
theorem readObject_all {σ : Type} {member : σ → String → Reader σ} {state : List String → σ}
    {fields : List (String × List Char)}
    (h : ∀ field ∈ fields, ∀ seen rest, field.1 ∉ seen → EndsNumber rest →
      (member (state seen) field.1 (':' :: (field.2 ++ rest))).toOption =
        some (state (seen ++ [field.1]), rest))
    (hkeys : (fields.map Prod.fst).Nodup) (rest : List Char) :
    readObject member (state []) ([','].intercalate (fieldTexts fields) ++ '\x7d' :: rest) =
      .ok (state (fields.map Prod.fst), rest) := by
  have hread := @readObject_fields σ member state (fun _ => true) fields h hkeys rest
  rwa [if_pos (List.all_eq_true.2 fun _ _ => rfl), toOption_eq_some_iff] at hread

/-! ## Records

A record puts each field into a component of its own, and refuses a field whose component is filled.
-/

namespace Record

variable {σ τ : Type} {record : Record σ τ}

/-- A field that a component of the state holds is read into it, if it has not been read before. -/
theorem readMember_of {α : Type} {name : String} {get : σ → Option α} {set : σ → α → σ}
    {reader : Reader α} (hfield : (record.fields.find? fun field => field.name == name) =
      some (.of name get set reader)) {state : σ} (hfree : get state = none) (text : List Char) :
    (record.readMember state name (':' :: text)).toOption =
      (reader text).toOption.map fun read => (set state read.1, read.2) := by
  have hunset : (Field.of name get set reader).isSet state = false := by
    change (get state).isSome = false
    rw [hfree]
    rfl
  rw [readMember, hfield]
  simp only [hunset, Bool.false_eq_true, if_false]
  rw [toOption_bind]
  change ((reader text) >>= _).toOption = _
  rw [toOption_bind]
  cases reader text <;> rfl

/-- Reading a field that has not been seen fills the state further. -/
theorem readMember_fills {state : List String → σ} {seen : List String} {α : Type} {name : String}
    {get : σ → Option α} {set : σ → α → σ} {reader : Reader α} {a : α} {text rest : List Char}
    (hfield : (record.fields.find? fun field => field.name == name) =
      some (.of name get set reader))
    (hfree : get (state seen) = none) (hread : (reader (text ++ rest)).toOption = some (a, rest))
    (hset : set (state seen) a = state (seen ++ [name])) :
    (record.readMember (state seen) name (':' :: (text ++ rest))).toOption =
      some (state (seen ++ [name]), rest) := by
  rw [readMember_of hfield hfree, hread, Option.map_some, hset]

/-- A record is read from an object of written fields, in whichever order they are. -/
theorem read_fields {state : List String → σ} {readable : String × List Char → Bool}
    {fields : List (String × List Char)} (hinitial : state [] = record.initial)
    (h : ∀ field ∈ fields, ∀ seen rest, field.1 ∉ seen → EndsNumber rest →
      (record.readMember (state seen) field.1 (':' :: (field.2 ++ rest))).toOption =
        if readable field then some (state (seen ++ [field.1]), rest) else none)
    (hkeys : (fields.map Prod.fst).Nodup) :
    (readWhole? record.read (objectText fields)).toOption =
      if fields.all readable then (record.finish (state (fields.map Prod.fst))).toOption
      else none := by
  have htext : objectText fields =
      '\x7b' :: ([','].intercalate (fieldTexts fields) ++ '\x7d' :: []) := rfl
  have hobject := readObject_fields h hkeys []
  rw [hinitial] at hobject
  rw [htext, readWhole?, toOption_bind, read, skipBlanks_cons rfl]
  simp only [toOption_bind, hobject]
  -- a field that cannot be read leaves no record, else the state of all keys decides
  cases fields.all readable with
  | false => rfl
  | true =>
    rw [if_pos rfl, if_pos rfl, Option.bind_some, close]
    cases record.finish (state (fields.map Prod.fst)) <;> rfl

/-- Where every field can be read, the state of all fields decides. -/
theorem read_all {state : List String → σ} {fields : List (String × List Char)} {a : τ}
    (hinitial : state [] = record.initial)
    (h : ∀ field ∈ fields, ∀ seen rest, field.1 ∉ seen → EndsNumber rest →
      (record.readMember (state seen) field.1 (':' :: (field.2 ++ rest))).toOption =
        some (state (seen ++ [field.1]), rest))
    (hkeys : (fields.map Prod.fst).Nodup)
    (hfinish : record.finish (state (fields.map Prod.fst)) = .ok a) :
    readWhole? record.read (objectText fields) = .ok a := by
  have hread := @read_fields σ τ record state (fun _ => true) fields hinitial h hkeys
  rwa [if_pos (List.all_eq_true.2 fun _ _ => rfl), hfinish, toOption_ok,
    toOption_eq_some_iff] at hread

end Record

/-- A component that is required is there. -/
theorem required_eq_ok_iff {α : Type} {name : String} {component : Option α} {a : α} :
    required name component = .ok a ↔ component = some a := by
  cases component <;> simp [required]

/-! ## Data from trees

The same for members that were read as trees first, because the types of the fields were not known
yet.
-/

/-- A natural that was read of a tree is below `2 ^ 64` as well. -/
theorem lt_of_naturalOfTree {typeName : String} {json : Json} {n : Nat}
    (h : naturalOfTree typeName json = .ok n) : n < Nat.pow 2 64 := by
  cases json with
  | number number => exact lt_of_naturalOf h
  | null | bool _ | string _ | array _ | object _ => cases h

/-- What has been read of a component when the fields of the given names have been. -/
def given {α : Type} (seen : List String) (name : String) (a : α) : Option α :=
  if name ∈ seen then some a else none

/-- A field that was seen has its value. -/
theorem given_of_mem {α : Type} {seen : List String} {name : String} (h : name ∈ seen) (a : α) :
    given seen name a = some a :=
  if_pos h

theorem given_of_not_mem {α : Type} {seen : List String} {name : String} (h : name ∉ seen) (a : α) :
    given seen name a = none :=
  if_neg h

/-- Whatever members have been read, a further one finds its field free and fills the state
further. -/
def Fills {σ : Type} (fields : List (TreeField σ)) (state : List String → σ)
    (member : String × Json) : Prop :=
  ∀ seen, member.1 ∉ seen → ∃ field,
    (fields.find? fun field => field.name == member.1) = some field ∧
      field.isSet (state seen) = false ∧
      field.read (state seen) member.2 = .ok (state (seen ++ [member.1]))

/-- A field that a component of the state holds. -/
theorem Fills.of {σ α : Type} {fields : List (TreeField σ)} {state : List String → σ}
    {name : String} {get : σ → Option α} {set : σ → α → σ} {reader : Json → Except Mismatch α}
    {json : Json} {a : α}
    (hfield : (fields.find? fun field => field.name == name) = some (.of name get set reader))
    (hread : reader json = .ok a) (hget : ∀ seen, get (state seen) = given seen name a)
    (hset : ∀ seen, set (state seen) a = state (seen ++ [name])) :
    Fills fields state (name, json) := by
  intro seen hnew
  refine ⟨_, hfield, ?_, bind_eq_ok_iff.2 ⟨a, hread, congrArg Except.ok (hset seen)⟩⟩
  change (get (state seen)).isSome = false
  rw [hget, given_of_not_mem hnew]
  rfl

section Members

variable {σ : Type} {fields : List (TreeField σ)} {state : List String → σ}

/-- Members fill the state, one key after the other, from whatever keys were seen before. -/
theorem readTreeMembers_from {members : List (String × Json)}
    (h : ∀ member ∈ members, Fills fields state member) (hkeys : (members.map Prod.fst).Nodup)
    {seen : List String} (hseen : ∀ member ∈ members, member.1 ∉ seen) :
    readTreeMembers fields (state seen) members = .ok (state (seen ++ members.map Prod.fst)) := by
  induction members generalizing seen with
  | nil =>
    rw [readTreeMembers, List.map_nil, List.append_nil]
  | cons member rest ih =>
    rw [List.map_cons, List.nodup_cons] at hkeys
    obtain ⟨field, hfield, hfree, hread⟩ :=
      h member List.mem_cons_self seen (hseen member List.mem_cons_self)
    -- the key does not come again, so the others find their fields free
    have hothers : ∀ other ∈ rest, other.1 ∉ seen ++ [member.1] := by
      intro other hother hmem
      rcases List.mem_append.1 hmem with hold | hlast
      · exact hseen other (List.mem_cons_of_mem member hother) hold
      · exact hkeys.1 (List.mem_singleton.1 hlast ▸ List.mem_map_of_mem hother)
    have hrest := ih (fun other hother => h other (List.mem_cons_of_mem member hother)) hkeys.2
      hothers
    rw [List.append_assoc] at hrest
    simp only [readTreeMembers, hfield, hfree, Bool.false_eq_true, if_false]
    exact bind_eq_ok_iff.2 ⟨_, hread, hrest⟩

/-- Members lead to the state in which all their keys have been seen, in whichever order they
are. -/
theorem readTreeMembers_all {members : List (String × Json)}
    (h : ∀ member ∈ members, Fills fields state member) (hkeys : (members.map Prod.fst).Nodup) :
    readTreeMembers fields (state []) members = .ok (state (members.map Prod.fst)) :=
  readTreeMembers_from h hkeys fun _ _ => List.not_mem_nil

/-! ### What reading keeps

A property of the state that each field keeps is kept by all of them, whatever text they are read
from.
-/

variable {P : σ → Prop} (h : ∀ field ∈ fields, ∀ state json after, P state →
  field.read state json = .ok after → P after)

include h

/-- **What every field keeps is kept by all members.** A member that no field has the name of is
passed over. -/
theorem readTreeMembers_keeps {members : List (String × Json)} {state after : σ} (hstate : P state)
    (hread : readTreeMembers fields state members = .ok after) : P after := by
  induction members generalizing state with
  | nil => exact Except.ok.inj hread ▸ hstate
  | cons member rest ih =>
    rw [readTreeMembers] at hread
    split at hread
    · -- the member of a field that was not filled yet
      next field hfield =>
      split at hread
      · cases hread
      · obtain ⟨next, hnext, hread⟩ := bind_eq_ok_iff.1 hread
        exact ih (h field (List.mem_of_find?_eq_some hfield) _ _ _ hstate hnext) hread
    · exact ih hstate hread

/-- **And by all items**, which are given to the fields in their order. -/
theorem readTreeItems_keeps {items : List Json} {state after : σ} {counts : Nat × Nat}
    (hstate : P state) (hread : readTreeItems fields state items = .ok (after, counts)) :
    P after := by
  induction items generalizing fields state with
  | nil =>
    cases fields <;> exact (Prod.mk.inj (Except.ok.inj hread)).1 ▸ hstate
  | cons item rest ih =>
    cases fields with
    | nil => exact (Prod.mk.inj (Except.ok.inj hread)).1 ▸ hstate
    | cons field others =>
      obtain ⟨next, hnext, hread⟩ := bind_eq_ok_iff.1 hread
      exact ih (fun other hother => h other (List.mem_cons_of_mem field hother))
        (h field List.mem_cons_self _ _ _ hstate hnext) hread

end Members

end StepRelay.Json
