namespace TemplateAnalysis

/-- A finite map, written as the list of its entries. No key occurs twice, so the order of the
    entries does not matter to a look-up. -/
structure Table (κ α : Type) where
  entries : List (κ × α) := []
  nodup : (entries.map (·.1)).Nodup := by simp
  deriving DecidableEq

namespace Table

variable {κ α : Type}

/-- The table without entries. -/
def empty : Table κ α := {}

instance : Inhabited (Table κ α) := ⟨empty⟩

/-- The values of all keys. -/
def values (table : Table κ α) : List α :=
  table.entries.map (·.2)

/-- The table in which values are changed and keys stay. -/
def mapValues (table : Table κ α) (change : κ → α → α) : Table κ α where
  entries := table.entries.map fun (key, value) => (key, change key value)
  nodup := by simpa [Function.comp_def] using table.nodup

/-- The table of the entries that are kept. -/
def filter (table : Table κ α) (keep : κ → α → Bool) : Table κ α where
  entries := table.entries.filter fun (key, value) => keep key value
  nodup := table.nodup.sublist (List.Sublist.map _ List.filter_sublist)

theorem mem_values_iff {table : Table κ α} {value : α} :
    value ∈ table.values ↔ ∃ key, (key, value) ∈ table.entries := by
  simp [values]

variable [DecidableEq κ]

/-- The value of a key. -/
def get? (table : Table κ α) (key : κ) : Option α :=
  (table.entries.find? (·.1 == key)).map (·.2)

/-- The table without a key. -/
def erase (table : Table κ α) (key : κ) : Table κ α where
  entries := table.entries.filter (·.1 != key)
  nodup := table.nodup.sublist (List.Sublist.map _ List.filter_sublist)

/-- The table in which a key has a new value. -/
def insert (table : Table κ α) (key : κ) (value : α) : Table κ α where
  entries := (table.erase key).entries ++ [(key, value)]
  nodup := by
    rw [List.map_append, List.nodup_append]
    refine ⟨(table.erase key).nodup, by simp, ?_⟩
    simp only [erase, List.mem_map, List.mem_filter]
    rintro _ ⟨entry, ⟨_, hne⟩, rfl⟩ _ hkey
    simp_all

/-- The table in which the value of one key is changed, if there is one. -/
def modify (table : Table κ α) (key : κ) (change : α → α) : Table κ α :=
  table.mapValues fun other value => if other = key then change value else value

/-- A look-up finds exactly the entries, because no key occurs twice. -/
theorem get?_eq_some_iff {table : Table κ α} {key : κ} {value : α} :
    table.get? key = some value ↔ (key, value) ∈ table.entries := by
  obtain ⟨entries, hnodup⟩ := table
  simp only [get?]
  induction entries with
  | nil => simp
  | cons entry rest ih =>
    obtain ⟨hnew, hrest⟩ := List.nodup_cons.mp hnodup
    by_cases hkey : entry.1 = key
    · have habsent : (key, value) ∉ rest := fun hmem =>
        hnew (List.mem_map.mpr ⟨_, hmem, hkey.symm⟩)
      simp only [List.find?_cons, beq_iff_eq.mpr hkey, Option.map_some, Option.some.injEq,
        List.mem_cons, habsent, or_false]
      constructor
      · rintro rfl
        rw [← hkey]
      · intro hentry
        rw [← hentry]
    · have hne : (key, value) ≠ entry := fun hentry => hkey (by rw [← hentry])
      simpa [List.find?_cons, beq_eq_false_iff_ne.mpr hkey, hne] using ih hrest

@[simp] theorem get?_empty (key : κ) : ({} : Table κ α).get? key = none := rfl

theorem get?_erase (table : Table κ α) (key other : κ) :
    (table.erase key).get? other = if other = key then none else table.get? other := by
  apply Option.ext
  intro value
  rw [get?_eq_some_iff]
  by_cases hkey : other = key
  · simp [erase, hkey]
  · simp [erase, hkey, get?_eq_some_iff]

theorem get?_insert (table : Table κ α) (key other : κ) (value : α) :
    (table.insert key value).get? other = if other = key then some value else table.get? other := by
  apply Option.ext
  intro found
  rw [get?_eq_some_iff]
  by_cases hkey : other = key
  · simp [insert, erase, hkey, eq_comm]
  · simp [insert, erase, hkey, get?_eq_some_iff]

theorem get?_filter (table : Table κ α) (keep : κ → α → Bool) (key : κ) :
    (table.filter keep).get? key = (table.get? key).filter (keep key) := by
  apply Option.ext
  intro value
  rw [get?_eq_some_iff, Option.filter_eq_some_iff, get?_eq_some_iff, filter, List.mem_filter]

theorem mem_modify {table : Table κ α} {key other : κ} {change : α → α} {value : α} :
    (other, value) ∈ (table.modify key change).entries ↔
      ∃ old, (other, old) ∈ table.entries ∧ (if other = key then change old else old) = value := by
  rw [modify, mapValues, List.mem_map]
  constructor
  · rintro ⟨⟨_, old⟩, hmem, hentry⟩
    obtain ⟨rfl, rfl⟩ := Prod.mk.inj hentry
    exact ⟨old, hmem, rfl⟩
  · rintro ⟨old, hmem, rfl⟩
    exact ⟨(other, old), hmem, rfl⟩

theorem get?_modify (table : Table κ α) (key other : κ) (change : α → α) :
    (table.modify key change).get? other =
      if other = key then (table.get? other).map change else table.get? other := by
  apply Option.ext
  intro found
  rw [get?_eq_some_iff, mem_modify]
  by_cases hkey : other = key
  · simp only [if_pos hkey, Option.map_eq_some_iff, get?_eq_some_iff]
  · simp only [if_neg hkey, exists_eq_right, get?_eq_some_iff]

end Table

end TemplateAnalysis
