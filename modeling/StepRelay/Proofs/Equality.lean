import Mathlib.Data.List.Perm.Subperm
import StepRelay.Proofs.IntegerLiterals

/-!
# Laws of the equality of values

`Value.equals` compares level by level, and `Compared` says what one level asks for (`equals_iff`).
A mapping is compared by look-up from one side only. That it is nevertheless symmetric is a matter
of counting: as many keys, each of them once, that all occur on the other side are all the keys of
the other side (`Entries.keys_subset`). So equality is symmetric and transitive, and since a NaN
equals nothing it is reflexive on the values in which no NaN occurs, and on no others
(`equals_self_iff`). The order of the entries of a mapping plays no part, wherever the mapping
stands (`Rearranged.equals_eq`).
-/

namespace StepRelay

/-! ## Doubles

The equality of doubles that steps observe has two exceptions to being the same: a NaN equals
nothing, and the two zeros are equal.
-/

namespace Double

/-- A double equals itself unless it is a NaN. -/
theorem equals_self (d : Double) : d.equals d = !d.isNaN := by
  unfold equals
  cases d.isNaN <;> simp

/-- Two doubles are equal if neither is a NaN and they are the same, or both zero. -/
theorem equals_iff (a b : Double) : a.equals b = true ↔
    a.isNaN = false ∧ b.isNaN = false ∧ (a = b ∨ a.isZero = true ∧ b.isZero = true) := by
  simp [equals, and_assoc]

/-- Equality of doubles is transitive: all zeros are equal to each other. -/
theorem equals_trans {a b c : Double} (hab : a.equals b = true) (hbc : b.equals c = true) :
    a.equals c = true := by
  rw [equals_iff] at hab hbc ⊢
  obtain ⟨ha, -, hab⟩ := hab
  obtain ⟨-, hc, hbc⟩ := hbc
  refine ⟨ha, hc, ?_⟩
  -- the same double, or both zeros
  rcases hab with rfl | ⟨hza, hzb⟩
  · exact hbc
  · rcases hbc with rfl | ⟨-, hzc⟩
    · exact .inr ⟨hza, hzb⟩
    · exact .inr ⟨hza, hzc⟩

end Double

/-! ## Keys

The one counting argument of the module. It is needed because a mapping is only compared from one
side.
-/

/-- As many keys, each of them once, that all occur on the other side are all that occur there. -/
theorem Entries.keys_subset {α β : Type} {as : Entries α} {bs : Entries β} (hkeys : as.keys.Nodup)
    (hlength : as.length = bs.length) (h : as.keys ⊆ bs.keys) : bs.keys ⊆ as.keys := by
  have hsub : as.keys.Subperm bs.keys := List.subperm_of_subset hkeys h
  have hle : bs.keys.length ≤ as.keys.length := by
    simp [keys, hlength]
  exact (hsub.perm_of_length_le hle).symm.subset

namespace Value

/-! ## One level

The three functions that compare values, items and entries call each other. `equals_iff` opens all
three at once, so that no proof behind it unfolds the comparison again.
-/

/-- What one level of a comparison asks for, given a relation for the items. -/
inductive Compared (R : Value → Value → Prop) : Value → Value → Prop
  | null : Compared R null null
  | bool (flag : Bool) : Compared R (bool flag) (bool flag)
  | int (n : Int64) : Compared R (int n) (int n)
  | float {c d : Double} (h : c.equals d = true) : Compared R (float c) (float d)
  | string (text : String) : Compared R (string text) (string text)
  | sequence {as bs : List Value} (hlength : as.length = bs.length)
      (hitems : ∀ (i : Nat) (a b : Value), as[i]? = some a → bs[i]? = some b → R a b) :
      Compared R (sequence as) (sequence bs)
  | mapping {as bs : List (String × Value)} (hlength : as.length = bs.length)
      (hitems : ∀ entry ∈ as, ∃ b, Entries.get? bs entry.1 = some b ∧ R entry.2 b) :
      Compared R (mapping as) (mapping bs)

/-- Of two sequences of one length the second has something wherever the first has. -/
theorem exists_getElem? {as bs : List Value} (hlength : as.length = bs.length) {i : Nat} {a : Value}
    (ha : as[i]? = some a) : ∃ b, bs[i]? = some b := by
  have hlt : i < as.length := (List.getElem?_eq_some_iff.1 ha).1
  rw [hlength] at hlt
  exact ⟨bs[i], List.getElem?_eq_getElem hlt⟩

/-- Sequences are compared item by item, and have to be of one length. -/
theorem itemsEqual_iff (as bs : List Value) : itemsEqual as bs = true ↔
    as.length = bs.length ∧
      ∀ (i : Nat) (a b : Value), as[i]? = some a → bs[i]? = some b → a.equals b = true := by
  induction as generalizing bs with
  | nil => cases bs <;> simp [itemsEqual]
  | cons first rest ih =>
    cases bs with
    | nil => simp [itemsEqual]
    | cons other others =>
      rw [itemsEqual, Bool.and_eq_true, ih]
      constructor
      · -- the first items, and then the place in the others
        rintro ⟨hfirst, hlength, hrest⟩
        refine ⟨congrArg (· + 1) hlength, ?_⟩
        intro i a b ha hb
        cases i with
        | zero =>
          rw [← Option.some.inj ha, ← Option.some.inj hb]
          exact hfirst
        | succ i => exact hrest i a b ha hb
      · rintro ⟨hlength, hall⟩
        refine ⟨hall 0 first other rfl rfl, Nat.succ.inj hlength, ?_⟩
        intro i a b ha hb
        exact hall (i + 1) a b ha hb

/-- The entries of one mapping are looked up in the other. -/
theorem entriesMatched_iff (as bs : List (String × Value)) : entriesMatched as bs = true ↔
    ∀ entry ∈ as, ∃ b, Entries.get? bs entry.1 = some b ∧ entry.2.equals b = true := by
  induction as with
  | nil => simp [entriesMatched]
  | cons first rest ih =>
    obtain ⟨key, item⟩ := first
    rw [entriesMatched, Bool.and_eq_true, ih, List.forall_mem_cons]
    cases Entries.get? bs key <;> simp

/-- **One level of the comparison**: two values are equal if they are of one kind and what they hold
immediately is compared as that kind asks for. -/
theorem equals_iff (a b : Value) :
    a.equals b = true ↔ Compared (fun a b => a.equals b = true) a b := by
  constructor
  · intro h
    cases a <;> cases b <;> simp only [equals, reduceCtorEq, beq_iff_eq, Bool.and_eq_true] at h
    case null.null => exact .null
    case bool.bool => exact h ▸ .bool _
    case int.int => exact h ▸ .int _
    case float.float => exact .float h
    case string.string => exact h ▸ .string _
    case sequence.sequence as bs =>
      -- pairs of different kinds are gone; what is left compares part by part
      obtain ⟨hlength, hitems⟩ := (itemsEqual_iff as bs).1 h
      exact .sequence hlength hitems
    case mapping.mapping as bs => exact .mapping h.1 ((entriesMatched_iff as bs).1 h.2)
  · intro h
    cases h with
    | null => rfl
    | bool flag => exact beq_self_eq_true flag
    | int n => exact beq_self_eq_true n
    | float h => exact h
    | string text => exact beq_self_eq_true text
    | sequence hlength hitems => exact (itemsEqual_iff _ _).2 ⟨hlength, hitems⟩
    | mapping hlength hitems =>
      rw [equals, hlength, beq_self_eq_true, Bool.true_and]
      exact (entriesMatched_iff _ _).2 hitems

/-! ## Induction over what is in a value

A value holds items in two ways, and in most proofs it does not matter which. So the induction is
stated over `items` once.
-/

/-- The items that a value holds immediately. -/
def items : Value → List Value
  | sequence items => items
  | mapping entries => entries.map (·.2)
  | _ => []

mutual

/-- What a value has if its items have it, every value has. -/
@[elab_as_elim]
theorem induct {motive : Value → Prop}
    (step : ∀ value : Value, (∀ item ∈ value.items, motive item) → motive value) :
    ∀ value : Value, motive value
  | null => step null (List.forall_mem_nil _)
  | bool flag => step (bool flag) (List.forall_mem_nil _)
  | int n => step (int n) (List.forall_mem_nil _)
  | float d => step (float d) (List.forall_mem_nil _)
  | string text => step (string text) (List.forall_mem_nil _)
  | sequence items => step (sequence items) (induct_items step items)
  | mapping entries => step (mapping entries) (induct_entries step entries)

/-- The items of a sequence have it then. -/
theorem induct_items {motive : Value → Prop}
    (step : ∀ value : Value, (∀ item ∈ value.items, motive item) → motive value) :
    ∀ items : List Value, ∀ item ∈ items, motive item
  | [] => List.forall_mem_nil _
  | item :: rest => List.forall_mem_cons.2 ⟨induct step item, induct_items step rest⟩

/-- The items of a mapping have it then. -/
theorem induct_entries {motive : Value → Prop}
    (step : ∀ value : Value, (∀ item ∈ value.items, motive item) → motive value) :
    ∀ entries : List (String × Value), ∀ item ∈ entries.map (·.2), motive item
  | [] => List.forall_mem_nil _
  | (_, item) :: rest => List.forall_mem_cons.2 ⟨induct step item, induct_entries step rest⟩

end

/-- No item of a sequence repeats a key in a mapping. -/
theorem itemsWellFormed_iff (items : List Value) :
    ItemsWellFormed items ↔ ∀ item ∈ items, item.WellFormed := by
  induction items with
  | nil => exact iff_of_true trivial (List.forall_mem_nil _)
  | cons item rest ih => rw [ItemsWellFormed, ih, List.forall_mem_cons]

theorem entriesWellFormed_iff (entries : List (String × Value)) :
    EntriesWellFormed entries ↔ ∀ entry ∈ entries, entry.2.WellFormed := by
  induction entries with
  | nil => exact iff_of_true trivial (List.forall_mem_nil _)
  | cons entry rest ih => rw [EntriesWellFormed, ih, List.forall_mem_cons]

/-! ## Symmetry and transitivity

Both are proved by that induction. For mappings, symmetry first finds the entry on the other side by
counting the keys.
-/

/-- **Equality is symmetric.** A mapping is looked up from one side; that the other side has no more
keys is counted. -/
theorem equals_symm {a b : Value} (ha : a.WellFormed) (hb : b.WellFormed)
    (h : a.equals b = true) : b.equals a = true := by
  induction a using induct generalizing b with
  | step a ih =>
    rw [equals_iff] at h ⊢
    cases h with
    | null => exact .null
    | bool flag => exact .bool flag
    | int n => exact .int n
    | float h => exact .float (by rwa [Double.equals_comm])
    | string text => exact .string text
    | @sequence as bs hlength hitems =>
      refine .sequence hlength.symm ?_
      intro i b a hib hia
      have hmem := List.mem_of_getElem? hia
      exact ih a hmem ((itemsWellFormed_iff as).1 ha a hmem)
        ((itemsWellFormed_iff bs).1 hb b (List.mem_of_getElem? hib)) (hitems i a b hia hib)
    | @mapping as bs hlength hitems =>
      refine .mapping hlength.symm ?_
      intro entry hentry
      -- the key occurs on the left, since all keys of the left occur among as many on the right
      have hsub : Entries.keys as ⊆ Entries.keys bs := by
        intro key hkey
        obtain ⟨other, hother, rfl⟩ := List.mem_map.1 hkey
        obtain ⟨b, hb, -⟩ := hitems other hother
        exact List.mem_map.2 ⟨_, Entries.mem_of_get? hb, rfl⟩
      have hkey : entry.1 ∈ Entries.keys as :=
        Entries.keys_subset ha.1 hlength hsub (List.mem_map_of_mem hentry)
      obtain ⟨⟨key, a⟩, hmem, rfl⟩ := List.mem_map.1 hkey
      -- and what the left was compared with is the one item under the key on the right
      obtain ⟨b, hget, hab⟩ := hitems _ hmem
      obtain rfl : entry.2 = b := by
        have hself := Entries.get?_of_mem hb.1 hentry
        exact Option.some.inj (hself.symm.trans hget)
      refine ⟨a, Entries.get?_of_mem ha.1 hmem, ?_⟩
      exact ih a (List.mem_map_of_mem hmem) ((entriesWellFormed_iff as).1 ha.2 _ hmem)
        ((entriesWellFormed_iff bs).1 hb.2 _ hentry) hab

theorem equals_comm {a b : Value} (ha : a.WellFormed) (hb : b.WellFormed) :
    a.equals b = b.equals a :=
  Bool.eq_iff_iff.2 ⟨equals_symm ha hb, equals_symm hb ha⟩

/-- **Equality is transitive**, at each level as the relation for the items is. -/
theorem equals_trans {a b c : Value} (hab : a.equals b = true) (hbc : b.equals c = true) :
    a.equals c = true := by
  induction a using induct generalizing b c with
  | step a ih =>
    rw [equals_iff] at hab hbc ⊢
    cases hab with
    | null => cases hbc; exact .null
    | bool flag => cases hbc; exact .bool flag
    | int n => cases hbc; exact .int n
    | float hab =>
      cases hbc with
      | float hbc => exact .float (Double.equals_trans hab hbc)
    | string text => cases hbc; exact .string text
    | @sequence as bs hlength hitems =>
      cases hbc with
      | @sequence _ cs hlength' hitems' =>
        refine .sequence (hlength.trans hlength') ?_
        intro i a c hia hic
        -- what is in the middle at the same place
        obtain ⟨b, hib⟩ := exists_getElem? hlength hia
        exact ih a (List.mem_of_getElem? hia) (hitems i a b hia hib) (hitems' i b c hib hic)
    | mapping hlength hitems =>
      cases hbc with
      | mapping hlength' hitems' =>
        refine .mapping (hlength.trans hlength') ?_
        intro entry hentry
        -- what is in the middle under the same key
        obtain ⟨b, hb, hab⟩ := hitems entry hentry
        obtain ⟨c, hc, hbc⟩ := hitems' _ (Entries.mem_of_get? hb)
        exact ⟨c, hc, ih entry.2 (List.mem_map_of_mem hentry) hab hbc⟩

/-! ## Equal values place by place

Equal values have equal values at the same places, whether a place is an index or a key.
-/

/-- Equal values have equal things at every segment. -/
theorem child?_of_equals {a b : Value} (h : a.equals b = true) {segment : Segment} {x : Value}
    (hx : a.child? segment = some x) :
    ∃ y, b.child? segment = some y ∧ x.equals y = true := by
  rw [equals_iff] at h
  -- a scalar has no children
  cases h with
  | null | bool _ | int _ | float _ | string _ => cases segment <;> cases hx
  | @sequence as bs hlength hitems =>
    cases segment with
    | key name => cases hx
    | index i =>
      have hia : as[i]? = some x := hx
      -- sequences of one length have items at the same places
      obtain ⟨y, hib⟩ := exists_getElem? hlength hia
      exact ⟨y, hib, hitems i x y hia hib⟩
  | mapping hlength hitems =>
    cases segment with
    | index i => cases hx
    | key name => exact hitems _ (Entries.mem_of_get? hx)

/-- Where one of two equal values has something, the other has something equal. -/
theorem at?_of_equals {a b : Value} (h : a.equals b = true) {way : List Segment} {x : Value}
    (hx : a.at? way = some x) : ∃ y, b.at? way = some y ∧ x.equals y = true := by
  induction way generalizing a b with
  | nil =>
    rw [← Option.some.inj hx]
    exact ⟨b, rfl, h⟩
  | cons segment rest ih =>
    obtain ⟨child, hchild, hrest⟩ := Option.bind_eq_some_iff.1 hx
    obtain ⟨other, hother, hequal⟩ := child?_of_equals h hchild
    obtain ⟨y, hy, hxy⟩ := ih hequal hrest
    exact ⟨y, Option.bind_eq_some_iff.2 ⟨other, hother, hy⟩, hxy⟩

/-- A value equals itself if no NaN can be reached in it: every item is compared with itself. -/
theorem equals_self {a : Value} (hkeys : a.WellFormed)
    (h : ∀ way d, a.at? way = some (float d) → d.isNaN = false) : a.equals a = true := by
  induction a using induct with
  | step a ih =>
    rw [equals_iff]
    cases a with
    | null => exact .null
    | bool flag => exact .bool flag
    | int n => exact .int n
    | float d =>
      have hd := h [] d rfl
      exact .float (by rw [Double.equals_self, hd, Bool.not_false])
    | string text => exact .string text
    | sequence items =>
      refine .sequence rfl ?_
      intro i a b hia hib
      -- both sides have the same item there
      obtain rfl : a = b := Option.some.inj (hia.symm.trans hib)
      have hmem := List.mem_of_getElem? hia
      refine ih a hmem ((itemsWellFormed_iff items).1 hkeys a hmem) ?_
      intro way d hd
      exact h (.index i :: way) d (Option.bind_eq_some_iff.2 ⟨a, hia, hd⟩)
    | mapping entries =>
      refine .mapping rfl ?_
      intro entry hentry
      have hget := Entries.get?_of_mem hkeys.1 hentry
      refine ⟨entry.2, hget, ih entry.2 (List.mem_map_of_mem hentry)
        ((entriesWellFormed_iff entries).1 hkeys.2 entry hentry) ?_⟩
      intro way d hd
      exact h (.key entry.1 :: way) d (Option.bind_eq_some_iff.2 ⟨entry.2, hget, hd⟩)

/-- A value equals itself exactly if there is no NaN anywhere in it. -/
theorem equals_self_iff {a : Value} (hkeys : a.WellFormed) :
    a.equals a = true ↔ ∀ way d, a.at? way = some (float d) → d.isNaN = false := by
  refine ⟨fun h way d hd => ?_, equals_self hkeys⟩
  obtain ⟨y, hy, hequal⟩ := at?_of_equals h hd
  obtain rfl : float d = y := Option.some.inj (hd.symm.trans hy)
  have hself : (!d.isNaN) = true := (Double.equals_self d).symm.trans hequal
  simpa using hself

/-! ## The order of entries

A rearrangement permutes the entries of one mapping or of several, at any depth. It keeps values
well formed, and equality does not see it.
-/

/-- The second value is the first one with the entries of mappings in another order, at any
depth. -/
inductive Rearranged : Value → Value → Prop
  | refl (value : Value) : Rearranged value value
  | permute {entries others : List (String × Value)} (h : entries.Perm others) :
      Rearranged (mapping entries) (mapping others)
  | item (before behind : List Value) {item other : Value} (h : Rearranged item other) :
      Rearranged (sequence (before ++ item :: behind)) (sequence (before ++ other :: behind))
  | entry (before behind : List (String × Value)) (key : String) {item other : Value}
      (h : Rearranged item other) :
      Rearranged (mapping (before ++ (key, item) :: behind))
        (mapping (before ++ (key, other) :: behind))
  | trans {a b c : Value} (hab : Rearranged a b) (hbc : Rearranged b c) : Rearranged a c

namespace Rearranged

/-- The entries can be put back in order. -/
theorem symm {a b : Value} (h : Rearranged a b) : Rearranged b a := by
  induction h with
  | refl value => exact .refl value
  | permute h => exact .permute h.symm
  | item before behind _ ih => exact .item before behind ih
  | entry before behind key _ ih => exact .entry before behind key ih
  | trans _ _ hba hcb => exact .trans hcb hba

/-- No key is repeated by putting entries in another order. -/
theorem wellFormed {a b : Value} (h : Rearranged a b) (ha : a.WellFormed) : b.WellFormed := by
  -- on how the rearrangement was made
  induction h with
  | refl value => exact ha
  | permute h =>
    refine ⟨(h.map Prod.fst).nodup_iff.1 ha.1, (entriesWellFormed_iff _).2 ?_⟩
    intro entry hentry
    exact (entriesWellFormed_iff _).1 ha.2 entry (h.mem_iff.2 hentry)
  | item before behind _ ih =>
    -- the other items are where they were
    have hall := (itemsWellFormed_iff _).1 ha
    rw [List.forall_mem_append, List.forall_mem_cons] at hall
    refine (itemsWellFormed_iff _).2 ?_
    rw [List.forall_mem_append, List.forall_mem_cons]
    exact ⟨hall.1, ih hall.2.1, hall.2.2⟩
  | entry before behind key _ ih =>
    -- the keys stay, and so do the other entries
    have hall := (entriesWellFormed_iff _).1 ha.2
    rw [List.forall_mem_append, List.forall_mem_cons] at hall
    refine ⟨?_, (entriesWellFormed_iff _).2 ?_⟩
    · simpa [Entries.keys] using ha.1
    · rw [List.forall_mem_append, List.forall_mem_cons]
      exact ⟨hall.1, ih hall.2.1, hall.2.2⟩
  | trans _ _ hab hbc => exact hbc (hab ha)

/-- One item of a sequence replaced: the walk is along what stands before it. -/
theorem itemsEqual_of_replaced {item other : Value}
    (h : ∀ b : Value, item.equals b = true → other.equals b = true)
    (before behind bs : List Value) (hab : itemsEqual (before ++ item :: behind) bs = true) :
    itemsEqual (before ++ other :: behind) bs = true := by
  -- on the items in front of the one that is replaced
  induction before generalizing bs with
  | nil =>
    cases bs with
    | nil => cases hab
    | cons b bs =>
      rw [List.nil_append, itemsEqual, Bool.and_eq_true] at hab ⊢
      exact ⟨h b hab.1, hab.2⟩
  | cons first before ih =>
    cases bs with
    | nil => cases hab
    | cons b bs =>
      rw [List.cons_append, itemsEqual, Bool.and_eq_true] at hab ⊢
      exact ⟨hab.1, ih bs hab.2⟩

/-- **What a value is equal to, it is equal to in any order of entries.** The induction is on how
the entries changed places; a look-up does not ask where an entry stands. -/
theorem equals_of_equals {a a' b : Value} (h : Rearranged a a') (hab : a.equals b = true) :
    a'.equals b = true := by
  induction h generalizing b with
  | refl value => exact hab
  -- the look-up is on the other side, so the order of these entries is not asked for
  | permute h =>
    rw [equals_iff] at hab ⊢
    cases hab with
    | mapping hlength hitems =>
      exact .mapping (h.length_eq.symm.trans hlength) fun entry hentry =>
        hitems entry (h.mem_iff.2 hentry)
  | item before behind _ ih =>
    cases b with
    | sequence bs => exact itemsEqual_of_replaced (fun b => ih) before behind bs hab
    | _ => cases hab
  | entry before behind key _ ih =>
    rw [equals_iff] at hab ⊢
    cases hab with
    | mapping hlength hitems =>
      rw [List.forall_mem_append, List.forall_mem_cons] at hitems
      obtain ⟨hbefore, ⟨b, hb, hitem⟩, hbehind⟩ := hitems
      refine .mapping ?_ ?_
      · simpa using hlength
      · rw [List.forall_mem_append, List.forall_mem_cons]
        exact ⟨hbefore, ⟨b, hb, ih hitem⟩, hbehind⟩
  | trans _ _ hab' hbc => exact hbc (hab' hab)

/-- What a value is equal to does not depend on the order of entries in it. -/
theorem equals_eq {a a' : Value} (h : Rearranged a a') (b : Value) : a.equals b = a'.equals b :=
  Bool.eq_iff_iff.2 ⟨h.equals_of_equals, h.symm.equals_of_equals⟩

end Rearranged

/-! ## All laws

The laws together, and two values on which all of them have something to say.
-/

/-- **The laws of equality**, for values that repeat no key in a mapping:

* it is symmetric and transitive;
* a value equals itself exactly if no NaN occurs in it, however deep;
* an integer and a double are never equal, and equal values have equal things in the same places;
* entries of mappings can change places at any depth, on either side, with no effect;
* sequences are equal exactly if they are equal item by item, in order. -/
theorem equality_laws :
    (∀ a b : Value, a.WellFormed → b.WellFormed → a.equals b = b.equals a) ∧
    (∀ a b c : Value, a.equals b = true → b.equals c = true → a.equals c = true) ∧
    (∀ a : Value, a.WellFormed →
      (a.equals a = true ↔ ∀ way d, a.at? way = some (float d) → d.isNaN = false)) ∧
    (∀ (n : Int64) (d : Double),
      (int n).equals (float d) = false ∧ (float d).equals (int n) = false) ∧
    (∀ (a b : Value) (way : List Segment) (x : Value), a.equals b = true → a.at? way = some x →
      ∃ y, b.at? way = some y ∧ x.equals y = true) ∧
    (∀ a a' b : Value, Rearranged a a' → a.WellFormed → b.WellFormed →
      a'.WellFormed ∧ a.equals b = a'.equals b ∧ b.equals a = b.equals a') ∧
    (∀ as bs : List Value, (sequence as).equals (sequence bs) = true ↔
      as.length = bs.length ∧
        ∀ (i : Nat) (a b : Value), as[i]? = some a → bs[i]? = some b → a.equals b = true) := by
  refine ⟨fun a b => equals_comm, fun a b c => equals_trans, fun a => equals_self_iff,
    fun n d => ⟨rfl, rfl⟩, fun a b way x h => at?_of_equals h, ?_, itemsEqual_iff⟩
  intro a a' b h ha hb
  have ha' := h.wellFormed ha
  refine ⟨ha', h.equals_eq b, ?_⟩
  calc b.equals a = a.equals b := equals_comm hb ha
    _ = a'.equals b := h.equals_eq b
    _ = b.equals a' := equals_comm ha' hb

/-- The two zeros are equal, wherever they stand, and the entries of a mapping inside a sequence
change places with no effect. -/
theorem equality_laws_rearranged :
    let a := sequence [mapping [("a", float (.zero true)), ("b", null)], int 1]
    let a' := sequence [mapping [("b", null), ("a", float (.zero true))], int 1]
    let b := sequence [mapping [("a", float (.zero false)), ("b", null)], int 1]
    a.WellFormed ∧ b.WellFormed ∧ Rearranged a a' ∧ a.equals b = true ∧ b.equals a = true ∧
      a.equals a = true ∧ a'.WellFormed ∧ a'.equals b = true ∧ b.equals a' = true := by
  intro a a' b
  have ha : a.WellFormed := ⟨⟨by decide, trivial, trivial, trivial⟩, trivial, trivial⟩
  have hb : b.WellFormed := ⟨⟨by decide, trivial, trivial, trivial⟩, trivial, trivial⟩
  -- two entries change places inside the first item
  have hrearranged : Rearranged a a' := .item [] [int 1] (.permute (.swap _ _ []))
  obtain ⟨hsymm, htrans, -, -, -, hplaces, -⟩ := equality_laws
  have hab : a.equals b = true := rfl
  -- by symmetry, and then by transitivity through the value in the middle
  have hba : b.equals a = true := (hsymm a b ha hb).symm.trans hab
  obtain ⟨ha', hours, htheirs⟩ := hplaces a a' b hrearranged ha hb
  exact ⟨ha, hb, hrearranged, hab, hba, htrans a b a hab hba, ha', hours.symm.trans hab,
    htheirs.symm.trans hba⟩

end Value

end StepRelay
