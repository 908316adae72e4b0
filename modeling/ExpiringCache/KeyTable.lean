/-!
# Tables from names to values

A finite table with one value for each name, in the order in which the names were first inserted.
The view is `get?`; each operation has one lemma that says what it does to the view.
-/

namespace ExpiringCache

/-- A list of entries in which no name occurs twice. -/
structure KeyTable (α : Type) where
  entries : List (String × α)
  nodup : (entries.map Prod.fst).Nodup

namespace KeyTable

variable {α : Type}

def empty : KeyTable α := ⟨[], List.nodup_nil⟩

def get? (table : KeyTable α) (key : String) : Option α := table.entries.lookup key

def size (table : KeyTable α) : Nat := table.entries.length

/-- The entries with the value under `key` replaced, or with a new entry at the end. -/
def insertEntry (key : String) (value : α) : List (String × α) → List (String × α)
  | [] => [(key, value)]
  | (name, old) :: rest =>
    if name = key then (key, value) :: rest else (name, old) :: insertEntry key value rest

theorem mem_map_insertEntry {key name : String} {value : α} {entries : List (String × α)} :
    name ∈ (insertEntry key value entries).map Prod.fst ↔
      name = key ∨ name ∈ entries.map Prod.fst := by
  induction entries with
  | nil => simp [insertEntry]
  | cons entry rest ih =>
    obtain ⟨other, old⟩ := entry
    by_cases h : other = key
    · simp [insertEntry, h]
    · simp only [insertEntry, h, if_false, List.map_cons, List.mem_cons, ih]
      grind

theorem nodup_insertEntry {key : String} {value : α} {entries : List (String × α)}
    (nodup : (entries.map Prod.fst).Nodup) :
    ((insertEntry key value entries).map Prod.fst).Nodup := by
  induction entries with
  | nil => simp [insertEntry]
  | cons entry rest ih =>
    obtain ⟨other, old⟩ := entry
    rw [List.map_cons, List.nodup_cons] at nodup
    by_cases h : other = key
    · subst h
      simpa [insertEntry] using nodup
    · simp only [insertEntry, h, if_false, List.map_cons, List.nodup_cons, mem_map_insertEntry]
      exact ⟨by grind, ih nodup.2⟩

/-- Puts `value` under `key`, in the place of the value that was there. -/
def insert (table : KeyTable α) (key : String) (value : α) : KeyTable α :=
  ⟨insertEntry key value table.entries, nodup_insertEntry table.nodup⟩

/-- Keeps the entries that satisfy `keep`. -/
def filter (table : KeyTable α) (keep : String → α → Bool) : KeyTable α :=
  ⟨table.entries.filter fun entry => keep entry.1 entry.2,
    (List.filter_sublist.map Prod.fst).nodup table.nodup⟩

/-- Takes the entry of `key` out. -/
def erase (table : KeyTable α) (key : String) : KeyTable α :=
  table.filter fun name _ => name != key

@[simp] theorem get?_empty (key : String) : (empty : KeyTable α).get? key = none := rfl

theorem get?_insert (table : KeyTable α) (key name : String) (value : α) :
    (table.insert key value).get? name = if name = key then some value else table.get? name := by
  obtain ⟨entries, nodup⟩ := table
  simp only [get?, insert]
  clear nodup
  induction entries with
  | nil =>
    simp only [insertEntry, List.lookup_cons, List.lookup_nil]
    split <;> simp_all
  | cons entry rest ih =>
    obtain ⟨other, old⟩ := entry
    by_cases h : other = key
    · subst h
      by_cases hn : name = other <;> simp [insertEntry, List.lookup_cons, hn, beq_false_of_ne]
    · by_cases hn : name = other
      · subst hn
        simp [insertEntry, h]
      · simp [insertEntry, h, List.lookup_cons, hn, ih, beq_false_of_ne]

theorem lookup_eq_none_of_not_mem {entries : List (String × α)} {key : String}
    (h : key ∉ entries.map Prod.fst) : entries.lookup key = none := by
  rw [List.lookup_eq_none_iff]
  intro entry hm
  refine bne_iff_ne.mpr ?_
  intro same
  exact h (List.mem_map.mpr ⟨entry, hm, same.symm⟩)

theorem lookup_filter {entries : List (String × α)} (nodup : (entries.map Prod.fst).Nodup)
    (keep : String → α → Bool) (key : String) :
    (entries.filter fun entry => keep entry.1 entry.2).lookup key =
      (entries.lookup key).filter (keep key) := by
  induction entries with
  | nil => rfl
  | cons entry rest ih =>
    obtain ⟨other, old⟩ := entry
    rw [List.map_cons, List.nodup_cons] at nodup
    by_cases hn : key = other
    · subst hn
      by_cases hk : keep key old
      · simp [List.filter, hk, Option.filter]
      · have absent : (rest.filter fun entry => keep entry.1 entry.2).lookup key = none := by
          refine lookup_eq_none_of_not_mem fun hm => nodup.1 ?_
          exact (List.filter_sublist.map Prod.fst).subset hm
        simp [List.filter, hk, absent, Option.filter]
    · by_cases hk : keep other old <;>
        simp [List.filter, hk, List.lookup_cons, hn, ih nodup.2, beq_false_of_ne]

theorem get?_filter (table : KeyTable α) (keep : String → α → Bool) (key : String) :
    (table.filter keep).get? key = (table.get? key).filter (keep key) :=
  lookup_filter table.nodup keep key

theorem get?_erase (table : KeyTable α) (key name : String) :
    (table.erase key).get? name = if name = key then none else table.get? name := by
  rw [erase, get?_filter]
  by_cases h : name = key <;> cases table.get? name <;> simp [h, Option.filter]

theorem mem_entries_iff {table : KeyTable α} {key : String} {value : α} :
    (key, value) ∈ table.entries ↔ table.get? key = some value := by
  obtain ⟨entries, nodup⟩ := table
  simp only [get?]
  induction entries with
  | nil => simp
  | cons entry rest ih =>
    obtain ⟨other, old⟩ := entry
    rw [List.map_cons, List.nodup_cons] at nodup
    by_cases hn : key = other
    · subst hn
      simp only [List.mem_cons, List.lookup_cons, beq_self_eq_true, Option.some.injEq,
        Prod.mk.injEq, true_and]
      constructor
      · rintro (h | h)
        · exact h.symm
        · exact absurd (List.mem_map_of_mem h) nodup.1
      · exact fun h => .inl h.symm
    · simp [List.lookup_cons, hn, ih nodup.2, beq_false_of_ne]

theorem mem_names_iff {table : KeyTable α} {key : String} :
    key ∈ table.entries.map Prod.fst ↔ (table.get? key).isSome := by
  rw [List.mem_map, Option.isSome_iff_exists]
  constructor
  · rintro ⟨⟨name, value⟩, hmem, rfl⟩
    exact ⟨value, mem_entries_iff.mp hmem⟩
  · rintro ⟨value, hvalue⟩
    exact ⟨(key, value), mem_entries_iff.mpr hvalue, rfl⟩

/-- Tables with the same names have the same size. -/
theorem size_eq_of_isSome_iff {β : Type} {table : KeyTable α} {other : KeyTable β}
    (h : ∀ key, (table.get? key).isSome ↔ (other.get? key).isSome) : table.size = other.size := by
  have hperm : (table.entries.map Prod.fst).Perm (other.entries.map Prod.fst) := by
    rw [List.perm_ext_iff_of_nodup table.nodup other.nodup]
    intro key
    rw [mem_names_iff, mem_names_iff, h]
  simpa [size] using hperm.length_eq

end KeyTable

end ExpiringCache
