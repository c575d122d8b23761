import Mathlib.Data.List.DropRight
import StepRelay.Environment

/-!
# Where the configuration is looked for

A variable that holds a text which is not blank names the configuration file, and nothing else in
the environment but the home directory has a say in it (`Environment.override_honoured`). A tilde in
front stands for the home directory. The components of a joined path are those of the directory, and
then where the pieces of the other path lead (`Path.components_join`); so what a tilde path names
stays under the home directory, unless what follows the tilde is an absolute path, which a join does
not put under anything (`Environment.tilde_path_under_home`).
-/

namespace StepRelay

/-! ## Texts as bytes

Paths and variables are bytes, of which only some are texts. What is joined and compared below has
come from texts or is kept as bytes all along.
-/

namespace Text

/-- The bytes of a text. -/
def utf8 (text : List Char) : List UInt8 := text.flatMap String.utf8EncodeChar

/-- They are the bytes that the text is stored as. -/
theorem toByteArray_utf8 (text : List Char) :
    (utf8 text).toByteArray = (String.ofList text).toByteArray :=
  String.toByteArray_ofList.symm

/-- The bytes of a text are read as that text. -/
theorem fromUTF8?_utf8 (text : List Char) :
    String.fromUTF8? (utf8 text).toByteArray = some (.ofList text) := by
  rw [toByteArray_utf8, String.fromUTF8?, dif_pos (String.ofList text).isValidUTF8]
  rfl

/-- Bytes are read as a text exactly if they are its bytes. -/
theorem fromUTF8?_eq_some_iff {bytes : List UInt8} {text : String} :
    String.fromUTF8? bytes.toByteArray = some text ↔ bytes = utf8 text.toList := by
  constructor
  · intro h
    rw [String.fromUTF8?] at h
    split at h
    · -- a text that was read is stored as the bytes that it was read from
      have hbytes : bytes.toByteArray = text.toByteArray := by
        rw [← Option.some.inj h]
        rfl
      rwa [← List.toByteArray_inj, toByteArray_utf8, String.ofList_toList]
    · cases h
  · rintro rfl
    rw [fromUTF8?_utf8, String.ofList_toList]

/-- Only a slash has the byte of a slash in front. -/
theorem head?_utf8EncodeChar (c : Char) :
    (String.utf8EncodeChar c).head? = some Path.slash ↔ c = '/' := by
  constructor
  · intro h
    have hbyte : ∀ n, UInt8.ofNat n = Path.slash → n % 256 = 47 := by
      intro n hn
      have hnat := congrArg UInt8.toNat hn
      rwa [UInt8.toNat_ofNat'] at hnat
    simp only [String.utf8EncodeChar] at h
    split at h
    · have hcode := hbyte _ (Option.some.inj h)
      exact Char.toNat_inj.1 (by change c.val.toNat = 47; omega)
    -- the first of several bytes stands for no character of its own
    all_goals
      repeat' split at h
      all_goals
        have hlead := hbyte _ (Option.some.inj h)
        omega
  · rintro rfl
    rfl

theorem head?_utf8 (text : List Char) :
    (utf8 text).head? = some Path.slash ↔ text.head? = some '/' := by
  cases text with
  | nil => simp [utf8]
  | cons c text =>
    have hlength := String.length_utf8EncodeChar c
    have hsize := c.utf8Size_pos
    have hne : String.utf8EncodeChar c ≠ [] := List.ne_nil_of_length_pos (by omega)
    rw [utf8, List.flatMap_cons, List.head?_append_of_ne_nil _ hne, head?_utf8EncodeChar,
      List.head?_cons, Option.some.injEq]

/-! ### Blanks around a text

A variable is trimmed before anything else is done to it. The first character that is no blank
survives this, so what is decided by it can be decided before.
-/

section RDropWhile

variable {α : Type} {p : α → Bool} {a : α} (h : p a = false)

include h

/-- What is kept in front is not touched by dropping at the end. -/
theorem rdropWhile_cons_of_neg (list : List α) :
    (a :: list).rdropWhile p = a :: list.rdropWhile p := by
  rw [List.rdropWhile, List.rdropWhile, List.reverse_cons, List.dropWhile_append]
  split
  · -- all the rest is dropped, but not what is in front
    next hempty =>
    rw [List.isEmpty_iff.1 hempty, List.dropWhile_cons_of_neg (Bool.eq_false_iff.1 h)]
    rfl
  · rw [List.reverse_append]
    rfl

/-- Dropping at the end does not change whether a text begins with something that is kept. -/
theorem head?_rdropWhile (list : List α) :
    (list.rdropWhile p).head? = some a ↔ list.head? = some a := by
  constructor
  · intro hhead
    obtain ⟨dropped, happend⟩ := List.rdropWhile_prefix p list
    rw [← happend, List.head?_append, hhead]
    rfl
  · intro hhead
    obtain ⟨rest, rfl⟩ := List.head?_eq_some_iff.1 hhead
    rw [rdropWhile_cons_of_neg h, List.head?_cons]

end RDropWhile

/-- Trimming drops blanks in front and then blanks behind. -/
theorem trim_eq (text : List Char) : trim text = (text.dropWhile isBlank).rdropWhile isBlank := rfl

/-- A text that begins with something visible is trimmed at its end only. -/
theorem trim_cons {c : Char} (h : isBlank c = false) (text : List Char) :
    trim (c :: text) = c :: text.rdropWhile isBlank := by
  rw [trim_eq, List.dropWhile_cons_of_neg (Bool.eq_false_iff.1 h), rdropWhile_cons_of_neg h]

/-- Behind the blanks in front of a text there is nothing, or something that is no blank. -/
theorem dropWhile_isBlank_cases (text : List Char) :
    (text.dropWhile isBlank = [] ∧ ∀ c ∈ text, isBlank c = true) ∨
    ∃ c rest, text.dropWhile isBlank = c :: rest ∧ isBlank c = false ∧ c ∈ text := by
  cases hdrop : text.dropWhile isBlank with
  | nil => exact .inl ⟨rfl, List.dropWhile_eq_nil_iff.1 hdrop⟩
  | cons c rest =>
    have hhead := List.head?_dropWhile_not isBlank text
    have hmem : c ∈ text.dropWhile isBlank := hdrop ▸ List.mem_cons_self
    rw [hdrop] at hhead
    exact .inr ⟨c, rest, rfl, hhead, (List.dropWhile_sublist isBlank).mem hmem⟩

/-- **A text is blank** if nothing but blanks is in it. -/
theorem trim_ne_nil_iff (text : List Char) : trim text ≠ [] ↔ ∃ c ∈ text, isBlank c = false := by
  rw [trim_eq]
  -- nothing but blanks, or a first character that stops the trimming
  obtain ⟨hdrop, hall⟩ | ⟨c, rest, hdrop, hc, hmem⟩ := dropWhile_isBlank_cases text
  · rw [hdrop]
    refine iff_of_false (fun hne => hne rfl) ?_
    rintro ⟨c, hmem, hc⟩
    rw [hall c hmem] at hc
    cases hc
  · rw [hdrop, rdropWhile_cons_of_neg hc]
    exact iff_of_true (List.cons_ne_nil _ _) ⟨c, hmem, hc⟩

/-- A trimmed text has no blanks left to drop. -/
theorem trim_trim (text : List Char) : trim (trim text) = trim text := by
  obtain ⟨hdrop, -⟩ | ⟨c, rest, hdrop, hc, -⟩ := dropWhile_isBlank_cases text
  · rw [trim_eq text, hdrop]
    rfl
  · rw [trim_eq text, hdrop, rdropWhile_cons_of_neg hc, trim_cons hc, List.rdropWhile_idempotent]

end Text

/-! ## The components of a joined path

A path is looked at by its components, since joining two of them may or may not put a slash between.
An absolute second part replaces the first.
-/

namespace Path

/-- A path is absolute if its text begins with a slash. -/
theorem isAbsolute_ofChars (text : List Char) :
    (ofChars text).isAbsolute = true ↔ text.head? = some '/' := by
  rw [isAbsolute, beq_iff_eq]
  exact Text.head?_utf8 text

/-- What stands in front of where the pieces of a path lead. -/
def opening (path : Path) : List Component :=
  if path.isAbsolute then [.root]
  else if path.pieces.head? = some [dot] then [.here]
  else []

/-- Where the pieces of a path lead, one after the other. -/
def steps (path : Path) : List Component := path.pieces.filterMap Component.ofPiece?

/-- The components of a path are how it opens and where its pieces lead. -/
theorem components_eq (path : Path) : path.components = path.opening ++ path.steps := by
  rw [components, opening]
  split
  · rfl
  · split <;> rfl

/-- A slash parts the pieces before it from those behind it. -/
theorem pieces_append_slash (front behind : List UInt8) :
    (Path.mk (front ++ slash :: behind)).pieces =
      (Path.mk front).pieces ++ (Path.mk behind).pieces :=
  List.splitOn_append_cons_self front behind

theorem steps_append_slash (front behind : List UInt8) :
    (Path.mk (front ++ slash :: behind)).steps =
      (Path.mk front).steps ++ (Path.mk behind).steps := by
  rw [steps, pieces_append_slash, List.filterMap_append]
  rfl

/-- How a path opens is seen in front of its slashes. -/
theorem opening_append_slash {front : List UInt8} (h : front ≠ []) (behind : List UInt8) :
    (Path.mk (front ++ slash :: behind)).opening = (Path.mk front).opening := by
  have habsolute :
      (Path.mk (front ++ slash :: behind)).isAbsolute = (Path.mk front).isAbsolute := by
    obtain ⟨b, rest, rfl⟩ := List.exists_cons_of_ne_nil h
    rfl
  have hpieces : (Path.mk front).pieces ≠ [] := List.splitOn_ne_nil slash front
  rw [opening, habsolute, pieces_append_slash, List.head?_append_of_ne_nil _ hpieces]
  rfl

/-- The components of a joined path are those of the directory, and then where the pieces of the
other path lead, unless that path is absolute. -/
theorem components_join {directory path : Path} (hdirectory : directory.bytes ≠ [])
    (hpath : path.isAbsolute = false) :
    (directory.join path).components = directory.components ++ path.steps := by
  obtain ⟨front⟩ := directory
  obtain ⟨behind⟩ := path
  rw [join, hpath, if_neg Bool.false_ne_true, components_eq, components_eq]
  by_cases hlast : front.getLast? = some slash
  · -- the slash at the end of the directory parts the two
    obtain ⟨before, rfl⟩ := List.getLast?_eq_some_iff.1 hlast
    have hopening : (Path.mk (before ++ slash :: behind)).opening =
        (Path.mk (before ++ [slash])).opening := by
      cases before with
      | nil => rfl
      | cons b rest =>
        rw [opening_append_slash (List.cons_ne_nil b rest),
          opening_append_slash (List.cons_ne_nil b rest)]
    have hends : (Path.mk (before ++ [slash])).steps = (Path.mk before).steps :=
      (steps_append_slash before []).trans (List.append_nil _)
    simp only [hlast, Option.all_some, beq_self_eq_true, if_true, List.append_assoc,
      List.singleton_append]
    rw [hopening, steps_append_slash, hends]
  · -- a slash is put between the two
    have hparted : front.getLast?.all (· == slash) = false := by
      rw [List.getLast?_eq_some_getLast hdirectory] at hlast ⊢
      simpa using hlast
    simp only [hparted, Bool.false_eq_true, if_false]
    rw [opening_append_slash hdirectory, steps_append_slash, List.append_assoc]

end Path

namespace Environment

/-! ## Tildes

A tilde in front stands for the home directory if nothing follows it, or a slash, or a backslash.
There may be no home directory, and then it stays.
-/

/-- A home directory that is known and not empty stands for the tilde. -/
theorem homeOrTilde_of_home {env : Environment} {home : List UInt8} (h : env.home = some home)
    (hne : home ≠ []) : env.homeOrTilde = ⟨home⟩ := by
  obtain ⟨b, rest, rfl⟩ := List.exists_cons_of_ne_nil hne
  rw [homeOrTilde, home?, h]
  rfl

/-- Blanks around a path make no difference to what its tilde stands for. -/
theorem expandTilde_trim (env : Environment) (text : List Char) :
    env.expandTilde (Text.trim text) = env.expandTilde text := by
  rw [expandTilde, Text.trim_trim]
  rfl

/-- Behind the slash of a tilde path only the blanks at the end are dropped. -/
theorem expandTilde_slash (env : Environment) (rest : List Char) :
    env.expandTilde ('~' :: '/' :: rest) =
      env.homeOrTilde.join (.ofChars (rest.rdropWhile Text.isBlank)) := by
  have htrim : Text.trim ('~' :: '/' :: rest) = '~' :: '/' :: rest.rdropWhile Text.isBlank := by
    rw [Text.trim_cons (by decide), Text.rdropWhile_cons_of_neg (by decide)]
  rw [expandTilde, htrim]
  rfl

/-! ## The variable for the configuration file

The variable counts if it is set to a text that is not blank. Anything else falls back to the
directory of the settings.
-/

/-- The variable for the configuration file holds the text, and that is not blank. -/
def OverriddenBy (env : Environment) (text : List Char) : Prop :=
  env.configFile = some (Text.utf8 text) ∧ ∃ c ∈ text, Text.isBlank c = false

/-- Where the configuration file is looked for if no variable names it. -/
def usualConfigPath (env : Environment) : Path :=
  (env.settingsDirectory.join (.ofString "stepwire")).join (.ofString "bridge.yaml")

/-- A variable with a text names a path, unless the text is blank. -/
theorem pathIn_utf8 (env : Environment) (text : List Char) :
    env.pathIn (some (Text.utf8 text)) =
      if Text.trim text = [] then none else some (env.expandTilde text) := by
  simp only [pathIn, Option.bind_eq_bind, Option.bind_some, Text.fromUTF8?_utf8,
    String.toList_ofList, expandTilde_trim]

/-- A variable that overrides names the file. -/
theorem configPath_of_overridden {env : Environment} {text : List Char}
    (h : env.OverriddenBy text) : env.configPath = env.expandTilde text := by
  obtain ⟨hheld, hblank⟩ := h
  rw [configPath, hheld, pathIn_utf8, if_neg ((Text.trim_ne_nil_iff text).2 hblank)]
  rfl

/-- Without one the file is where it usually is: the variable is unset, it is blank, or it holds
bytes that are no text. -/
theorem configPath_of_not_overridden {env : Environment} (h : ¬ ∃ text, env.OverriddenBy text) :
    env.configPath = env.usualConfigPath := by
  have hnone : env.pathIn env.configFile = none := by
    cases hheld : env.configFile with
    | none => rfl
    | some bytes =>
      -- a variable that is set may hold bytes that are no text
      cases htext : String.fromUTF8? bytes.toByteArray with
      | none => simp only [pathIn, Option.bind_eq_bind, Option.bind_some, htext, Option.bind_none]
      | some text =>
        obtain rfl := Text.fromUTF8?_eq_some_iff.1 htext
        rw [pathIn_utf8]
        by_contra hsome
        have hblank : Text.trim text.toList ≠ [] := fun hempty => hsome (if_pos hempty)
        exact h ⟨text.toList, hheld, (Text.trim_ne_nil_iff _).1 hblank⟩
  rw [configPath, hnone]
  rfl

/-- **A tilde path stays under the home directory unless a second slash follows that of the tilde.**
Then what is left is an absolute path, and the home directory has no say in it. Either way it is
there that the configuration file is looked for if its variable holds the tilde path. -/
theorem tilde_path_under_home {env : Environment} {home : List UInt8} (hhome : env.home = some home)
    (hne : home ≠ []) (rest : List Char) :
    (rest.head? ≠ some '/' →
      (Path.mk home).components <+: (env.expandTilde ('~' :: '/' :: rest)).components) ∧
    (rest.head? = some '/' →
      env.expandTilde ('~' :: '/' :: rest) = .ofChars (rest.rdropWhile Text.isBlank)) ∧
    configPath { env with configFile := some (Text.utf8 ('~' :: '/' :: rest)) } =
      env.expandTilde ('~' :: '/' :: rest) := by
  have hslash : Text.isBlank '/' = false := rfl
  have habsolute := (Path.isAbsolute_ofChars _).trans (Text.head?_rdropWhile hslash rest)
  refine ⟨fun hrest => ?_, fun hrest => ?_, ?_⟩
  · -- what follows is relative, so the join puts it behind the home directory
    have hrelative := Bool.eq_false_iff.2 (mt habsolute.1 hrest)
    rw [expandTilde_slash, homeOrTilde_of_home hhome hne, Path.components_join hne hrelative]
    exact List.prefix_append _ _
  · -- what follows is absolute, so the join gives it back as it is
    rw [expandTilde_slash, Path.join_of_isAbsolute _ (habsolute.2 hrest)]
  · exact configPath_of_overridden ⟨rfl, '~', List.mem_cons_self, by decide⟩

/-- A name that is a backslash, and a way up behind it, are still under the home directory. -/
theorem tilde_path_under_home_backslash :
    let home := (Path.ofString "/home/u/").bytes
    let env : Environment := { home := some home }
    env.home = some home ∧ home ≠ [] ∧
      (Path.mk home).components <+:
        (env.expandTilde ('~' :: '/' :: "\\/../~ ".toList)).components := by
  intro home env
  have hne : home ≠ [] := by decide
  exact ⟨rfl, hne, (tilde_path_under_home rfl hne _).1 (by decide)⟩

/-- A second slash is enough to leave the home directory. -/
theorem not_every_tilde_path_under_home :
    ¬ ∀ (env : Environment) (home : List UInt8) (rest : List Char),
        env.home = some home → home ≠ [] →
        (Path.mk home).components <+: (env.expandTilde ('~' :: '/' :: rest)).components ∧
        (Path.mk home).components <+: (configPath
          { env with configFile := some (Text.utf8 ('~' :: '/' :: rest)) }).components := by
  intro h
  have hunder := h { home := some (Path.ofString "/home/u").bytes } _ "/etc".toList rfl (by decide)
  exact absurd hunder.1 (by decide)

/-- The variable for the settings counts if it holds an absolute path. -/
theorem settingsDirectory_of_isAbsolute (env : Environment) {bytes : List UInt8}
    (h : (Path.mk bytes).isAbsolute = true) :
    settingsDirectory { env with settings := some bytes } = ⟨bytes⟩ := if_pos h

/-- **A text that names the configuration file is always honoured.** Wherever the settings are, the
file is looked for at the path that the text stands for. This is so for a text that is not blank,
and for nothing else: unless the variable holds such a text, the file is looked for among the
settings. -/
theorem override_honoured (env : Environment) :
    (∀ text, env.OverriddenBy text → ∀ settings,
      configPath { env with settings } = env.expandTilde text) ∧
    ((∃ text, env.OverriddenBy text) ↔ ∀ one other,
      configPath { env with settings := one } = configPath { env with settings := other }) ∧
    ((¬ ∃ text, env.OverriddenBy text) → env.configPath = env.usualConfigPath) := by
  have hhonoured : ∀ text, env.OverriddenBy text → ∀ settings,
      configPath { env with settings } = env.expandTilde text :=
    fun text htext settings => @configPath_of_overridden { env with settings } text htext
  refine ⟨hhonoured, ⟨?_, fun hsame => ?_⟩, configPath_of_not_overridden⟩
  · rintro ⟨text, htext⟩ one other
    rw [hhonoured text htext, hhonoured text htext]
  · by_contra hnone
    have husual : ∀ settings,
        configPath { env with settings } = usualConfigPath { env with settings } :=
      fun settings => @configPath_of_not_overridden { env with settings } hnone
    -- two places for settings that are not the same
    have hroot := hsame (some [Path.slash]) (some [Path.slash, Path.dot])
    rw [husual, husual, usualConfigPath, usualConfigPath, settingsDirectory_of_isAbsolute env rfl,
      settingsDirectory_of_isAbsolute env rfl] at hroot
    exact absurd hroot (by decide)

/-- With blanks around it and a tilde in front, a text leads to the home directory wherever the
settings are. -/
theorem override_honoured_tilde :
    let env : Environment := {
      home := some (Path.ofString "/home/u").bytes
      configFile := some (Text.utf8 " ~/é.json\n".toList) }
    env.OverriddenBy " ~/é.json\n".toList ∧
      ∀ settings, configPath { env with settings } = .ofString "/home/u/é.json" := by
  intro env
  have hheld : env.OverriddenBy " ~/é.json\n".toList := ⟨rfl, '~', by decide, by decide⟩
  have hpath : env.expandTilde " ~/é.json\n".toList = .ofString "/home/u/é.json" := by decide
  refine ⟨hheld, fun settings => ?_⟩
  rw [(override_honoured env).1 _ hheld settings, hpath]

/-- Bytes that are no text are neither empty nor blank, and yet they do not name the file. -/
theorem not_every_override_honoured :
    ¬ ∀ (env : Environment) (bytes : List UInt8), env.configFile = some bytes →
        (¬ ∃ text, bytes = Text.utf8 text ∧ ∀ c ∈ text, Text.isBlank c = true) →
        ∀ one other,
          configPath { env with settings := one } = configPath { env with settings := other } := by
  intro h
  -- a slash and a byte that is no part of any text
  have hnone : String.fromUTF8? [Path.slash, 0xFF].toByteArray = none := by decide
  have hblank : ¬ ∃ text, [Path.slash, 0xFF] = Text.utf8 text ∧
      ∀ c ∈ text, Text.isBlank c = true := by
    rintro ⟨text, htext, -⟩
    rw [htext, Text.fromUTF8?_utf8] at hnone
    cases hnone
  -- two directories for settings, which are looked at although the variable is set
  have hsame := h { configFile := some [Path.slash, 0xFF] } _ rfl hblank (some [Path.slash])
    (some [Path.slash, Path.dot])
  exact absurd hsame (by decide)

end Environment

end StepRelay
