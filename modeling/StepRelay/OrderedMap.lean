/-!
# String-keyed maps in insertion order

`Entries` is a plain list of named items with the operations of a map on it; it can occur inside a
recursive type. `OrderedMap` adds that no key occurs twice. Inserting under a key that is present
keeps the place of the key and replaces the item: `insert_keys` and `get?_insert` say so.
-/

namespace StepRelay

/-- Named items in order. -/
abbrev Entries (α : Type) := List (String × α)

namespace Entries

variable {α β : Type}

/-- The keys, in order. -/
def keys (entries : Entries α) : List String := entries.map (·.1)

/-- The first item under `key`. -/
def get? : Entries α → String → Option α
  | [], _ => none
  | (name, item) :: rest, key => if name = key then some item else get? rest key

def contains (entries : Entries α) (key : String) : Bool := (entries.get? key).isSome

/-- Puts an item under `key`: in the place of the key if it is present, else at the end. -/
def insert : Entries α → String → α → Entries α
  | [], key, item => [(key, item)]
  | (name, old) :: rest, key, item =>
    if name = key then (name, item) :: rest else (name, old) :: insert rest key item

/-- Removes what is under `key`. -/
def erase (entries : Entries α) (key : String) : Entries α :=
  entries.filter fun pair => pair.1 != key

/-- Inserts each pair in turn. -/
def insertAll (entries : Entries α) (pairs : Entries α) : Entries α :=
  pairs.foldl (fun acc pair => acc.insert pair.1 pair.2) entries

/-- The pairs without repeated keys: a repeated key keeps its first place and its last item. -/
def merge (pairs : Entries α) : Entries α := insertAll [] pairs

/-! ### What the operations do to keys and look-ups

Each operation is described by what is found afterwards and by the keys that are there, so nothing
behind this part looks into the recursions again.
-/

@[simp] theorem keys_nil : keys ([] : Entries α) = [] := rfl

@[simp] theorem keys_cons (name : String) (item : α) (rest : Entries α) :
    keys ((name, item) :: rest) = name :: rest.keys := rfl

/-- Nothing is found under a key that does not occur. -/
theorem get?_eq_none_iff (entries : Entries α) (key : String) :
    entries.get? key = none ↔ key ∉ entries.keys := by
  induction entries with
  | nil => simp [get?]
  | cons pair rest ih =>
    obtain ⟨name, item⟩ := pair
    by_cases h : name = key
    · simp [get?, h]
    · simp [get?, h, ih, Ne.symm h]

/-- A key is contained if it occurs. -/
theorem contains_iff (entries : Entries α) (key : String) :
    entries.contains key = true ↔ key ∈ entries.keys := by
  rw [contains, Option.isSome_iff_ne_none, ne_eq, get?_eq_none_iff, Decidable.not_not]

/-- A new key goes to the end; a present one stays where it is. -/
theorem insert_keys (entries : Entries α) (key : String) (item : α) :
    (entries.insert key item).keys =
      if key ∈ entries.keys then entries.keys else entries.keys ++ [key] := by
  induction entries with
  | nil => simp [insert]
  | cons pair rest ih =>
    obtain ⟨name, old⟩ := pair
    by_cases h : name = key
    · simp [insert, h]
    · have h' : ¬ key = name := fun e => h e.symm
      by_cases hm : key ∈ keys rest <;> simp [insert, h, h', ih, hm]

/-- **An insertion changes what is under its own key, and nothing else.** -/
theorem get?_insert (entries : Entries α) (key other : String) (item : α) :
    (entries.insert key item).get? other =
      if key = other then some item else entries.get? other := by
  induction entries with
  | nil => simp [insert, get?]
  | cons pair rest ih =>
    obtain ⟨name, old⟩ := pair
    by_cases h : name = key
    · subst h
      by_cases ho : name = other <;> simp [insert, get?, ho]
    · by_cases ho : name = other
      · subst ho
        simp [insert, get?, h, Ne.symm h]
      · simp [insert, get?, h, ho, ih]

/-- **An insertion makes no key come twice.** -/
theorem nodup_insert {entries : Entries α} (h : entries.keys.Nodup) (key : String) (item : α) :
    (entries.insert key item).keys.Nodup := by
  rw [insert_keys]
  split
  · exact h
  · next hk =>
    -- the key is new, and stands at the end
    refine List.nodup_append.2 ⟨h, by simp, ?_⟩
    rintro a ha b hb rfl
    exact hk (by simpa using List.mem_singleton.1 hb ▸ ha)

/-- Nor do several. -/
theorem nodup_insertAll {entries : Entries α} (h : entries.keys.Nodup) (pairs : Entries α) :
    (entries.insertAll pairs).keys.Nodup := by
  induction pairs generalizing entries with
  | nil => exact h
  | cons pair rest ih => exact ih (nodup_insert h pair.1 pair.2)

/-- So merged pairs have distinct keys, whatever the pairs are. -/
theorem nodup_merge (pairs : Entries α) : (merge pairs).keys.Nodup :=
  nodup_insertAll (by simp) pairs

/-- **Erasing changes what is under its own key, and nothing else.** -/
theorem get?_erase (entries : Entries α) (key other : String) :
    (entries.erase key).get? other = if key = other then none else entries.get? other := by
  induction entries with
  | nil => simp [erase, get?]
  | cons pair rest ih =>
    obtain ⟨name, old⟩ := pair
    unfold erase at ih ⊢
    by_cases hn : name = key
    · subst hn
      by_cases ho : name = other <;> simp_all [get?]
    · by_cases ho : name = other
      · subst ho
        simp [get?, hn, Ne.symm hn]
      · simp [get?, hn, ho, ih]

/-- It makes no key come twice. -/
theorem nodup_erase {entries : Entries α} (h : entries.keys.Nodup) (key : String) :
    (entries.erase key).keys.Nodup :=
  h.sublist (List.filter_sublist.map _)

/-- Applies a function to each item. -/
def mapItems (f : α → β) (entries : Entries α) : Entries β :=
  entries.map fun pair => (pair.1, f pair.2)

@[simp] theorem keys_mapItems (f : α → β) (entries : Entries α) :
    (entries.mapItems f).keys = entries.keys := by
  simp [mapItems, keys]

/-- What is found is what the function makes of it. -/
theorem get?_mapItems (f : α → β) (entries : Entries α) (key : String) :
    (entries.mapItems f).get? key = (entries.get? key).map f := by
  induction entries with
  | nil => rfl
  | cons pair rest ih =>
    obtain ⟨name, item⟩ := pair
    by_cases h : name = key
    · simp [mapItems, get?, h]
    · simpa [mapItems, get?, h] using ih

end Entries

/-- A map from strings that remembers the order in which its keys first came. -/
structure OrderedMap (α : Type) where
  entries : Entries α
  nodup : entries.keys.Nodup

namespace OrderedMap

variable {α β : Type}

@[ext] theorem ext {a b : OrderedMap α} (h : a.entries = b.entries) : a = b := by
  cases a; cases b; cases h; rfl

instance [DecidableEq α] : DecidableEq (OrderedMap α) := fun a b =>
  decidable_of_iff (a.entries = b.entries) ⟨ext, fun h => h ▸ rfl⟩

/-- The map without entries. -/
def empty : OrderedMap α := ⟨[], by simp⟩

instance : EmptyCollection (OrderedMap α) := ⟨empty⟩

instance : Inhabited (OrderedMap α) := ⟨empty⟩

def keys (m : OrderedMap α) : List String := m.entries.keys

def values (m : OrderedMap α) : List α := m.entries.map (·.2)

def size (m : OrderedMap α) : Nat := m.entries.length

def isEmpty (m : OrderedMap α) : Bool := m.entries.isEmpty

def get? (m : OrderedMap α) (key : String) : Option α := m.entries.get? key

def contains (m : OrderedMap α) (key : String) : Bool := m.entries.contains key

/-- Puts an item under `key`: in the place of the key if it is present, else at the end. -/
def insert (m : OrderedMap α) (key : String) (item : α) : OrderedMap α :=
  ⟨m.entries.insert key item, Entries.nodup_insert m.nodup key item⟩

/-- Removes what is under `key`. -/
def erase (m : OrderedMap α) (key : String) : OrderedMap α :=
  ⟨m.entries.erase key, Entries.nodup_erase m.nodup key⟩

/-- A map from pairs: a repeated key keeps its first place and its last item. -/
def ofPairs (pairs : Entries α) : OrderedMap α := ⟨Entries.merge pairs, Entries.nodup_merge pairs⟩

/-- Applies a function to each item. -/
def map (f : α → β) (m : OrderedMap α) : OrderedMap β :=
  ⟨m.entries.mapItems f, by simpa using m.nodup⟩

@[simp] theorem entries_empty : (∅ : OrderedMap α).entries = [] := rfl

@[simp] theorem get?_empty (key : String) : (∅ : OrderedMap α).get? key = none := rfl

theorem get?_insert (m : OrderedMap α) (key other : String) (item : α) :
    (m.insert key item).get? other = if key = other then some item else m.get? other :=
  Entries.get?_insert m.entries key other item

theorem get?_erase (m : OrderedMap α) (key other : String) :
    (m.erase key).get? other = if key = other then none else m.get? other :=
  Entries.get?_erase m.entries key other

theorem contains_iff (m : OrderedMap α) (key : String) :
    m.contains key = true ↔ key ∈ m.keys :=
  Entries.contains_iff m.entries key

theorem keys_insert (m : OrderedMap α) (key : String) (item : α) :
    (m.insert key item).keys = if key ∈ m.keys then m.keys else m.keys ++ [key] :=
  Entries.insert_keys m.entries key item

@[simp] theorem keys_map (f : α → β) (m : OrderedMap α) : (m.map f).keys = m.keys :=
  Entries.keys_mapItems f m.entries

theorem get?_map (f : α → β) (m : OrderedMap α) (key : String) :
    (m.map f).get? key = (m.get? key).map f :=
  Entries.get?_mapItems f m.entries key

end OrderedMap

end StepRelay
