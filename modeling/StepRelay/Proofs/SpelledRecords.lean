import Mathlib.Data.List.Forall2
import StepRelay.Proofs.Records
import StepRelay.Proofs.Skipping

/-!
# Reading records that others have written

Others may put blanks between the items of an object, escape characters of its keys that need no
escape, and add members of their own: `ObjectOf` says what fields such an object has. A record is
read from any object of its fields (`Record.read_objectOf`) if each field moves the reader to the
state in which one key more has been seen (`Takes`). Only the keys of the record's own fields may
not come twice; a field of another key is skipped, whatever stands in it
(`Record.readMember_unknown`).
-/

namespace StepRelay.Json

/-! ## Scalars behind blanks

The readers of wire fields skip the blanks in front of a value; the text behind it is left as it is.
-/

/-- A natural may have blanks before it. -/
theorem readNatural_padded (blanks : Blanks) {n : Nat} (h : n < Nat.pow 2 64) (typeName : String)
    {rest : List Char} (hrest : EndsNumber rest) :
    (readNatural typeName (blanks.chars ++ Nat.toDigits 10 n ++ rest)).toOption =
      some (n, rest) := by
  have hblanks : readNatural typeName (blanks.chars ++ (Nat.toDigits 10 n ++ rest)) =
      readNatural typeName (Nat.toDigits 10 n ++ rest) := by
    rw [readNatural, skipBlanks_append]
    rfl
  rw [List.append_assoc, hblanks, readNatural_toDigits h typeName hrest]

theorem readBool_padded (blanks : Blanks) (flag : Bool) (rest : List Char) :
    (readBool (blanks.chars ++ boolText flag ++ rest)).toOption = some (flag, rest) := by
  rw [List.append_assoc, readBool, skipBlanks_append]
  cases flag <;> rfl

/-! ## Fields of a written object

What is fixed of a member is what its key stands for and how its value is written. How the key is
escaped, and where blanks are, is left to the writer.
-/

/-- The member is a way to write the field: its key stands for the name, its value has the text. -/
structure Writes (member : Padded (List Piece) × Padded Document) (field : String × List Char) :
    Prop where
  key : Piece.meaning? member.1.inner = some field.1.toList
  value : member.2.inner.text = field.2

/-- The text is an object whose members write the fields, with any blanks around it and in it. -/
def ObjectOf (fields : List (String × List Char)) (text : List Char) : Prop :=
  ∃ (before inside behind : Blanks) (members : List (Padded (List Piece) × Padded Document)),
    List.Forall₂ Writes members fields ∧
      text = before.chars ++ ((Document.object inside members).text ++ behind.chars)

/-- Fields whose texts are documents can be written. -/
theorem exists_writes {fields : List (String × List Char)}
    (h : ∀ field ∈ fields, ∃ d : Document, d.text = field.2) :
    ∃ members, List.Forall₂ Writes members fields ∧
      Document.memberTexts members = fieldTexts fields := by
  induction fields with
  | nil => exact ⟨[], .nil, rfl⟩
  | cons field others ih =>
    obtain ⟨members, hmembers, htexts⟩ :=
      ih fun other hother => h other (List.mem_cons_of_mem field hother)
    obtain ⟨d, hd⟩ := h field List.mem_cons_self
    obtain ⟨pieces, hquoted, hmeaning⟩ := exists_quoted field.1
    -- spelled without blanks, as the printer does it
    refine ⟨(⟨.none, pieces, .none⟩, ⟨.none, d, .none⟩) :: members,
      .cons ⟨hmeaning, hd⟩ hmembers, ?_⟩
    rw [Document.memberTexts, htexts, hquoted, hd]
    simp [fieldTexts, memberText, Blanks.none]

/-- An object that is printed from its fields has these fields. -/
theorem objectOf_objectText {fields : List (String × List Char)}
    (h : ∀ field ∈ fields, ∃ d : Document, d.text = field.2) :
    ObjectOf fields (objectText fields) := by
  obtain ⟨members, hmembers, htexts⟩ := exists_writes h
  refine ⟨.none, .none, .none, members, hmembers, ?_⟩
  rw [Document.text, htexts]
  simp [objectText, bracketed, fieldTexts, Blanks.none]

/-! ## Members that move a reader on

The same invariant as for records that are printed: the state depends on the keys seen so far. Here
a key may come again, if the reader does not mind.
-/

/-- Whatever keys have been seen, a member of this key and value moves the reader to the state in
which its key has been seen as well. A key of which there may be only one must be new. -/
def Takes {σ : Type} (member : σ → String → Reader σ) (state : List String → σ)
    (once : String → Bool) (field : String × List Char) : Prop :=
  ∀ seen, (once field.1 = true → field.1 ∉ seen) → ∀ (d : Document), d.text = field.2 →
    ∀ (behind before : Blanks) (rest : List Char), EndsNumber rest →
      (member (state seen) field.1
        (behind.chars ++ ':' :: (before.chars ++ (d.text ++ rest)))).toOption =
          some (state (seen ++ [field.1]), rest)

section Members

variable {σ : Type} {member : σ → String → Reader σ} {state : List String → σ}
  {once : String → Bool}

/-- **A written member moves the reader on**: its key is read to the name of the field, and its
value is taken. -/
theorem Takes.writes {first : Padded (List Piece) × Padded Document} {field : String × List Char}
    (h : Takes member state once field) (hfirst : Writes first field) {seen : List String}
    (hnew : once field.1 = true → field.1 ∉ seen)
    (others : List (Padded (List Piece) × Padded Document)) (rest : List Char) {text : List Char}
    (htext : skipBlanks ([','].intercalate (Document.memberTexts (first :: others)) ++
      '\x7d' :: rest) = '"' :: text) :
    ∃ tail, (readString text).toOption = some (field.1, tail) ∧
      (member (state seen) field.1 tail).toOption =
        some (state (seen ++ [field.1]),
          first.2.behind.chars ++ follow '\x7d' rest (Document.memberTexts others)) := by
  obtain ⟨key, before, d, behind⟩ := first
  obtain ⟨hkey, hvalue⟩ := hfirst
  rw [membersText_cons] at htext
  obtain rfl := (List.cons.inj htext).2
  have hends := endsNumber_follow behind (.inr rfl) rest (Document.memberTexts others)
  refine ⟨_, ?_, h seen hnew d hvalue key.behind before _ hends⟩
  rw [readString_pieces, hkey, Option.map_some, String.ofList_toList]

/-- The members are read one after the other; `seen` are the keys in front of the first one. -/
theorem readMembers_written (rest : List Char) {first : Padded (List Piece) × Padded Document}
    {others : List (Padded (List Piece) × Padded Document)} {field : String × List Char}
    {more : List (String × List Char)} (hfirst : Writes first field)
    (hothers : List.Forall₂ Writes others more)
    (htakes : ∀ other ∈ field :: more, Takes member state once other)
    (hkeys : (field :: more).Pairwise fun one other => once one.1 = true → one.1 ≠ other.1)
    {seen : List String} (hseen : ∀ other ∈ field :: more, once other.1 = true → other.1 ∉ seen)
    {text : List Char} (htext : skipBlanks
      ([','].intercalate (Document.memberTexts (first :: others)) ++ '\x7d' :: rest) = '"' :: text)
    {fuel : Nat} (hfuel : text.length < fuel) :
    (readMembers member fuel (state seen) text).toOption =
      some (state (seen ++ (field :: more).map Prod.fst), rest) := by
  induction hothers generalizing first field seen text fuel with
  | nil =>
    obtain ⟨fuel, rfl⟩ := Nat.exists_eq_add_one_of_ne_zero (Nat.ne_zero_of_lt hfuel)
    -- the member is taken, and what is behind it tells whether it was the last
    obtain ⟨tail, hkey, hmember⟩ := (htakes field List.mem_cons_self).writes hfirst
      (hseen field List.mem_cons_self) [] rest htext
    exact readMembers_of_last hkey hmember (afterMember?_last first.2.behind rest) fuel
  | @cons second next others more hsecond hothers ih =>
    obtain ⟨fuel, rfl⟩ := Nat.exists_eq_add_one_of_ne_zero (Nat.ne_zero_of_lt hfuel)
    obtain ⟨tail, hkey, hmember⟩ := (htakes field List.mem_cons_self).writes hfirst
      (hseen field List.mem_cons_self) (second :: others) rest htext
    obtain ⟨hfirstKey, hkeys⟩ := List.pairwise_cons.1 hkeys
    obtain ⟨behindComma, hbehindComma⟩ := exists_membersText second others rest
    have hshorter := membersText_shorter htext hbehindComma
    -- the key that was just seen does not come again, unless it may
    have hnew : ∀ other ∈ next :: more, once other.1 = true → other.1 ∉ seen ++ [field.1] := by
      intro other hother honce hmem
      rcases List.mem_append.1 hmem with hold | hlast
      · exact hseen other (List.mem_cons_of_mem field hother) honce hold
      · have hsame := List.mem_singleton.1 hlast
        exact hfirstKey other hother (hsame ▸ honce) hsame.symm
    have hrest := ih hsecond (fun other hother => htakes other (List.mem_cons_of_mem field hother))
      hkeys hnew hbehindComma (show behindComma.length < fuel by omega)
    rw [readMembers_of_more hkey hmember (afterMember?_more first.2.behind hbehindComma), hrest,
      List.append_assoc]
    rfl

/-- **An object of written members is read** to the state in which all its keys have been seen. -/
theorem readObject_written (inside : Blanks)
    {members : List (Padded (List Piece) × Padded Document)}
    {fields : List (String × List Char)} (hmembers : List.Forall₂ Writes members fields)
    (htakes : ∀ field ∈ fields, Takes member state once field)
    (hkeys : fields.Pairwise fun one other => once one.1 = true → one.1 ≠ other.1)
    (rest : List Char) :
    (readObject member (state []) (inside.chars ++
      [','].intercalate (Document.memberTexts members) ++ '\x7d' :: rest)).toOption =
        some (state (fields.map Prod.fst), rest) := by
  rw [List.append_assoc, readObject, skipBlanks_append]
  cases hmembers with
  | nil =>
    rw [membersText_nil]
    rfl
  | @cons first field others more hfirst hothers =>
    obtain ⟨text, htext⟩ := exists_membersText first others rest
    rw [htext]
    exact readMembers_written rest hfirst hothers htakes hkeys (fun _ _ _ => List.not_mem_nil) htext
      (Nat.lt_succ_self _)

end Members

/-! ## Records

A record is read field by field, with all the blanks that the grammar permits. Each member is
written by a key, whose pieces may be escapes, and by any document.
-/

namespace Record

variable {σ τ : Type} {record : Record σ τ} {state : List String → σ} {once : String → Bool}

/-- Blanks in front of the colon say nothing. -/
theorem readMember_blanks (before : σ) (key : String) (blanks : Blanks) (text : List Char) :
    (record.readMember before key (blanks.chars ++ ':' :: text)).toOption =
      (record.readMember before key (':' :: text)).toOption := by
  have hcolon : readColon (':' :: text) = .ok text := rfl
  rw [readMember, readMember, readColon_blanks, hcolon]
  split
  · split <;> rfl
  · rfl

/-- The member of an unknown key is skipped, whatever its value. -/
theorem readMember_unknown {key : String}
    (hkey : (record.fields.find? fun field => field.name == key) = none) (before : σ)
    (blanks : Blanks) (d : Document) {rest : List Char} (hrest : EndsNumber rest) :
    (record.readMember before key (':' :: (blanks.chars ++ (d.text ++ rest)))).toOption =
      some (before, rest) := by
  have hcolon : readColon (':' :: (blanks.chars ++ (d.text ++ rest))) =
      .ok (blanks.chars ++ (d.text ++ rest)) := rfl
  rw [readMember, hkey, toOption_eq_some_iff]
  exact bind_eq_ok_iff.2 ⟨_, hcolon, bind_eq_ok_iff.2 ⟨rest, skipValue_text blanks d hrest, rfl⟩⟩

/-- A record is read from any object of fields that each move its reader on. -/
theorem read_objectOf {fields : List (String × List Char)} {text : List Char}
    (h : ObjectOf fields text) (hinitial : state [] = record.initial)
    (htakes : ∀ field ∈ fields, Takes record.readMember state once field)
    (hkeys : fields.Pairwise fun one other => once one.1 = true → one.1 ≠ other.1) {a : τ}
    (hfinish : record.finish (state (fields.map Prod.fst)) = .ok a) :
    readWhole? record.read text = .ok a := by
  obtain ⟨before, inside, behind, members, hmembers, rfl⟩ := h
  have hobject := toOption_eq_some_iff.1
    (readObject_written inside hmembers htakes hkeys behind.chars)
  -- nothing but blanks is left, and the state makes the record
  have hclose : record.close (state (fields.map Prod.fst)) behind.chars = .ok a := by
    rw [close, hfinish]
  have hread : record.read
      (before.chars ++ ((Document.object inside members).text ++ behind.chars)) =
        .ok (a, behind.chars) := by
    rw [read, Document.skipBlanks_text, Document.text_object_append]
    rw [hinitial] at hobject
    exact bind_eq_ok_iff.2 ⟨_, hobject, bind_eq_ok_iff.2 ⟨a, hclose, rfl⟩⟩
  refine bind_eq_ok_iff.2 ⟨_, hread, ?_⟩
  simp only [skipBlanks_chars]
  rfl

end Record

end StepRelay.Json
