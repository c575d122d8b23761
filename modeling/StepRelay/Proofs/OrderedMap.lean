import StepRelay.OrderedMap

/-!
# Ordered maps built by insertions

A map that is filled by insertions is determined by the list of what was inserted: each key holds
the item last given for it (`get?_ofPairs`), and the keys stand in the order of their first mention
(`keys_ofPairs`). `Entries.last?` names the item last given, so that histories of writes and of
publishes can be compared with the maps they leave behind.
-/

namespace StepRelay

/-- Where nothing repeats there is nothing to erase. -/
theorem eraseDups_of_nodup {names : List String} (h : names.Nodup) :
    names.eraseDups = names := by
  induction names with
  | nil => rfl
  | cons name rest ih =>
    rw [List.nodup_cons] at h
    have hrest : rest.filter (fun other => !other == name) = rest := by
      rw [List.filter_eq_self]
      intro other hother
      have hne : other ≠ name := fun heq => h.1 (heq ▸ hother)
      simpa using hne
    rw [List.eraseDups_cons, hrest, ih h.2]

/-! ## The item last given

For any list of pairs, whether or not keys repeat: which item was given last for a key, and what
happens to it when pairs are added, mapped or merged.
-/

namespace Entries

variable {α β : Type}

/-- The item last given for `key`. -/
def last? (pairs : Entries α) (key : String) : Option α :=
  (pairs.findRev? fun pair => pair.1 == key).map (·.2)

@[simp] theorem last?_nil (key : String) : last? ([] : Entries α) key = none := rfl

theorem last?_append (pairs more : Entries α) (key : String) :
    last? (pairs ++ more) key = (last? more key).or (last? pairs key) := by
  simp only [last?, List.findRev?_eq_find?_reverse, List.reverse_append, List.find?_append]
  cases more.reverse.find? (fun pair => pair.1 == key) <;> rfl

theorem last?_singleton (name key : String) (item : α) :
    last? [(name, item)] key = if name = key then some item else none := by
  by_cases h : name = key <;> simp [last?, h]

/-- No item was given for a key that was never mentioned. -/
theorem last?_eq_none_iff (pairs : Entries α) (key : String) :
    last? pairs key = none ↔ key ∉ pairs.keys := by
  simp [last?, keys]
  grind

/-- Where no key repeats, the last item under a key is the only one. -/
theorem last?_eq_get? {pairs : Entries α} (h : pairs.keys.Nodup) (key : String) :
    last? pairs key = pairs.get? key := by
  induction pairs with
  | nil => rfl
  | cons pair rest ih =>
    obtain ⟨name, item⟩ := pair
    rw [keys_cons, List.nodup_cons] at h
    have happ := last?_append [(name, item)] rest key
    rw [List.singleton_append, last?_singleton] at happ
    rw [happ]
    by_cases hk : name = key
    · -- `name` does not come again, so the rest has nothing to override it with
      have hnone : last? rest key = none := (last?_eq_none_iff rest key).2 (hk ▸ h.1)
      simp [get?, hk, hnone]
    · simp [get?, hk, ih h.2]

/-- Where no key repeats, each item can be looked up under its own key. -/
theorem get?_of_mem {pairs : Entries α} (h : pairs.keys.Nodup) {pair : String × α}
    (hpair : pair ∈ pairs) : pairs.get? pair.1 = some pair.2 := by
  induction pairs with
  | nil => cases hpair
  | cons first rest ih =>
    obtain ⟨name, item⟩ := first
    rw [keys_cons, List.nodup_cons] at h
    rcases List.mem_cons.1 hpair with rfl | hrest
    · simp [get?]
    · have hne : name ≠ pair.1 := by
        rintro rfl
        exact h.1 (List.mem_map_of_mem hrest)
      simpa [get?, hne] using ih h.2 hrest

/-- An item that is looked up was given for its key. -/
theorem mem_of_get? {pairs : Entries α} {key : String} {item : α}
    (h : pairs.get? key = some item) : (key, item) ∈ pairs := by
  induction pairs with
  | nil => cases h
  | cons first rest ih =>
    obtain ⟨name, old⟩ := first
    rw [get?] at h
    split at h
    · next hname =>
      rw [← hname, Option.some.inj h]
      exact List.mem_cons_self
    · exact List.mem_cons_of_mem _ (ih h)

/-- The last item under a key, where the items are made from a list by name. -/
theorem last?_map {γ : Type} (name : γ → String) (item : γ → α) (list : List γ) (key : String) :
    last? (list.map fun x => (name x, item x)) key =
      (list.findRev? fun x => name x == key).map item := by
  simp [last?, ← List.map_reverse, List.find?_map, Function.comp_def]

/-- An item can be put under its key before something is done to it or after. -/
theorem mapItems_insert (f : α → β) (entries : Entries α) (key : String) (item : α) :
    (entries.insert key item).mapItems f = (entries.mapItems f).insert key (f item) := by
  induction entries with
  | nil => rfl
  | cons pair rest ih =>
    obtain ⟨name, old⟩ := pair
    by_cases h : name = key
    · simp [insert, mapItems, h]
    · simpa [insert, mapItems, h] using ih

/-- Merging looks at keys only, so it goes along with what is done to the items. -/
theorem mapItems_merge (f : α → β) (pairs : Entries α) :
    (merge pairs).mapItems f = merge (pairs.mapItems f) := by
  -- for every map that the pairs are merged into, since that grows along the pairs
  have hall : ∀ entries : Entries α,
      (entries.insertAll pairs).mapItems f = (entries.mapItems f).insertAll (pairs.mapItems f) := by
    induction pairs with
    | nil => intro entries; rfl
    | cons pair rest ih =>
      intro entries
      have hrest := ih (entries.insert pair.1 pair.2)
      rw [mapItems_insert] at hrest
      exact hrest
  exact hall []

theorem insert_of_not_mem {entries : Entries α} {key : String} (h : key ∉ entries.keys)
    (item : α) : entries.insert key item = entries ++ [(key, item)] := by
  induction entries with
  | nil => rfl
  | cons pair rest ih =>
    obtain ⟨name, old⟩ := pair
    rw [keys_cons, List.mem_cons, not_or] at h
    rw [insert, if_neg (Ne.symm h.1), ih h.2, List.cons_append]

/-- A pair is the one that was inserted, or it was there before. -/
theorem mem_of_mem_insert {entries : Entries α} {key : String} {item : α} {pair : String × α}
    (h : pair ∈ entries.insert key item) : pair = (key, item) ∨ pair ∈ entries := by
  induction entries with
  | nil => exact .inl (List.mem_singleton.1 h)
  | cons first rest ih =>
    obtain ⟨name, old⟩ := first
    rw [insert] at h
    split at h
    · next hname =>
      rw [hname] at h
      exact (List.mem_cons.1 h).imp_right (List.mem_cons_of_mem _)
    · rcases List.mem_cons.1 h with rfl | hrest
      · exact .inr List.mem_cons_self
      · exact (ih hrest).imp_right (List.mem_cons_of_mem _)

/-- Merging drops pairs and moves them, but makes no new ones. -/
theorem mem_of_mem_merge {pairs : Entries α} {pair : String × α} (h : pair ∈ merge pairs) :
    pair ∈ pairs := by
  -- for every list they are merged into, as a pair may come from there
  have hall : ∀ entries : Entries α, pair ∈ entries.insertAll pairs →
      pair ∈ entries ∨ pair ∈ pairs := by
    clear h
    induction pairs with
    | nil => exact fun entries hmem => .inl hmem
    | cons first rest ih =>
      intro entries hmem
      rcases ih (entries.insert first.1 first.2) hmem with hinsert | hrest
      · rcases mem_of_mem_insert hinsert with rfl | hold
        · exact .inr List.mem_cons_self
        · exact .inl hold
      · exact .inr (List.mem_cons_of_mem _ hrest)
  exact (hall [] h).resolve_left List.not_mem_nil

/-- Where no key repeats there is nothing to merge. -/
theorem merge_eq_self {pairs : Entries α} (h : pairs.keys.Nodup) : merge pairs = pairs := by
  have hall : ∀ entries : Entries α, (entries ++ pairs).keys.Nodup →
      entries.insertAll pairs = entries ++ pairs := by
    clear h
    induction pairs with
    | nil =>
      intro entries _
      exact (List.append_nil entries).symm
    | cons pair rest ih =>
      intro entries hnodup
      -- the pair is new to the entries before it, so it goes behind them
      have hsplit : entries ++ pair :: rest = (entries ++ [pair]) ++ rest := by simp
      have hnew : pair.1 ∉ entries.keys := by
        intro hmem
        rw [keys, List.map_append, List.nodup_append] at hnodup
        exact hnodup.2.2 pair.1 hmem pair.1 List.mem_cons_self rfl
      rw [hsplit] at hnodup ⊢
      rw [← ih (entries ++ [pair]) hnodup, ← insert_of_not_mem hnew]
      rfl
  exact hall [] h

end Entries

namespace OrderedMap

variable {α β : Type}

/-! ## Maps built by insertions

Inserting several pairs is the fold of single insertions, and a map made of pairs is such a fold
from the empty map. The two main lemmas are `get?_insertAll` and `keys_insertAll`.
-/

/-- Inserts each pair in turn. -/
def insertAll (m : OrderedMap α) (pairs : Entries α) : OrderedMap α :=
  pairs.foldl (fun acc pair => acc.insert pair.1 pair.2) m

@[simp] theorem insertAll_nil (m : OrderedMap α) : m.insertAll [] = m := rfl

@[simp] theorem insertAll_cons (m : OrderedMap α) (pair : String × α) (rest : Entries α) :
    m.insertAll (pair :: rest) = (m.insert pair.1 pair.2).insertAll rest := rfl

theorem insertAll_append (m : OrderedMap α) (pairs more : Entries α) :
    m.insertAll (pairs ++ more) = (m.insertAll pairs).insertAll more :=
  List.foldl_append

/-- A map of pairs is the empty one with each of them inserted. -/
theorem ofPairs_eq_insertAll (pairs : Entries α) : ofPairs pairs = insertAll ∅ pairs := by
  have hentries : ∀ (m : OrderedMap α),
      (m.insertAll pairs).entries = m.entries.insertAll pairs := by
    induction pairs with
    | nil => intro m; rfl
    | cons pair rest ih => intro m; exact ih (m.insert pair.1 pair.2)
  exact OrderedMap.ext (hentries ∅).symm

/-- One more pair is one more insertion. -/
theorem ofPairs_concat (pairs : Entries α) (key : String) (item : α) :
    ofPairs (pairs ++ [(key, item)]) = (ofPairs pairs).insert key item := by
  simp only [ofPairs_eq_insertAll, insertAll_append, insertAll_cons, insertAll_nil]

/-- Nothing is found under a key that the map has not got. -/
theorem get?_eq_none_iff (m : OrderedMap α) (key : String) : m.get? key = none ↔ key ∉ m.keys :=
  Entries.get?_eq_none_iff m.entries key

/-- Under each of its keys it has an item. -/
theorem exists_get?_of_mem_keys {m : OrderedMap α} {key : String} (h : key ∈ m.keys) :
    ∃ item, m.get? key = some item := by
  cases hitem : m.get? key with
  | none => exact absurd h ((get?_eq_none_iff m key).1 hitem)
  | some item => exact ⟨item, rfl⟩

/-- Insertions hide what was there before, later ones hide earlier ones. -/
theorem get?_insertAll (m : OrderedMap α) (pairs : Entries α) (key : String) :
    (m.insertAll pairs).get? key = (pairs.last? key).or (m.get? key) := by
  induction pairs generalizing m with
  | nil => simp
  | cons pair rest ih =>
    obtain ⟨name, item⟩ := pair
    rw [insertAll_cons, ih, get?_insert, ← List.singleton_append, Entries.last?_append,
      Entries.last?_singleton]
    -- the rest mentions the key again, or the first pair has the last word
    cases Entries.last? rest key with
    | some later => rfl
    | none => by_cases h : name = key <;> simp [h]

/-- Keys stay where they first came; new ones follow in the order of their first mention. -/
theorem keys_insertAll {m : OrderedMap α} {mentioned : List String}
    (h : m.keys = mentioned.eraseDups) (pairs : Entries α) :
    (m.insertAll pairs).keys = (mentioned ++ pairs.keys).eraseDups := by
  induction pairs generalizing m mentioned with
  | nil => simpa using h
  | cons pair rest ih =>
    obtain ⟨name, item⟩ := pair
    -- one more mention, which is erased if the name was mentioned before
    have hname : (m.insert name item).keys = (mentioned ++ [name]).eraseDups := by
      rw [keys_insert, h, List.eraseDups_append]
      by_cases hm : name ∈ mentioned <;> simp [List.removeAll, hm, List.eraseDups_cons]
    rw [insertAll_cons, ih hname, Entries.keys_cons, List.append_assoc, List.singleton_append]

/-- **Each key holds the item last given for it.** -/
theorem get?_ofPairs (pairs : Entries α) (key : String) :
    (ofPairs pairs).get? key = pairs.last? key := by
  rw [ofPairs_eq_insertAll, get?_insertAll, get?_empty, Option.or_none]

/-- **The keys stand in the order of their first mention.** -/
theorem keys_ofPairs (pairs : Entries α) : (ofPairs pairs).keys = pairs.keys.eraseDups := by
  have hempty : (∅ : OrderedMap α).keys = ([] : List String).eraseDups := rfl
  rw [ofPairs_eq_insertAll, keys_insertAll hempty, List.nil_append]

/-- An insertion goes along with what is done to the items. -/
theorem map_insert (f : α → β) (m : OrderedMap α) (key : String) (item : α) :
    (m.insert key item).map f = (m.map f).insert key (f item) :=
  OrderedMap.ext (Entries.mapItems_insert f m.entries key item)

theorem contains_map (f : α → β) (m : OrderedMap α) (key : String) :
    (m.map f).contains key = m.contains key := by
  rw [Bool.eq_iff_iff, contains_iff, contains_iff, keys_map]

theorem map_ofPairs (f : α → β) (pairs : Entries α) :
    (ofPairs pairs).map f = ofPairs (pairs.mapItems f) :=
  OrderedMap.ext (Entries.mapItems_merge f pairs)

theorem ofPairs_entries (m : OrderedMap α) : ofPairs m.entries = m :=
  OrderedMap.ext (Entries.merge_eq_self m.nodup)

/-- A map whose items know their keys is the list of its items. -/
theorem map_values_eq_entries {m : OrderedMap α} {name : α → String}
    (h : ∀ key item, m.get? key = some item → name item = key) :
    m.values.map (fun item => (name item, item)) = m.entries := by
  have hname : ∀ pair ∈ m.entries, (name pair.2, pair.2) = pair := by
    intro pair hpair
    rw [h pair.1 pair.2 (Entries.get?_of_mem m.nodup hpair)]
  rw [values, List.map_map]
  exact (List.map_congr_left hname).trans (List.map_id _)

end OrderedMap

end StepRelay
