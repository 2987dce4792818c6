import Mathlib.Data.List.Nodup
import TemplateAnalysis.Table

namespace TemplateAnalysis.Table

variable {κ α : Type} {table : Table κ α} {key : α → κ}

/-- Each value of the table contains its own key. -/
def Keyed (key : α → κ) (table : Table κ α) : Prop :=
  ∀ entry ∈ table.entries, entry.1 = key entry.2

theorem Keyed.keys (hkeyed : table.Keyed key) :
    table.entries.map (·.1) = table.values.map key := by
  rw [values, List.map_map]
  exact List.map_congr_left hkeyed

/-- No two values of a keyed table have the same key. -/
theorem Keyed.nodup_values (hkeyed : table.Keyed key) : (table.values.map key).Nodup :=
  hkeyed.keys ▸ table.nodup

theorem Keyed.filter (hkeyed : table.Keyed key) (keep : κ → α → Bool) :
    (table.filter keep).Keyed key :=
  fun entry hentry => hkeyed entry (List.mem_filter.mp hentry).1

variable [DecidableEq κ]

/-- To look all keys up gives all values. -/
theorem filterMap_get?_keys (table : Table κ α) :
    (table.entries.map (·.1)).filterMap table.get? = table.values := by
  rw [List.filterMap_map, values, ← List.filterMap_eq_map]
  refine List.filterMap_congr fun entry hentry => ?_
  exact Table.get?_eq_some_iff.mpr hentry

theorem Keyed.get?_eq_some_iff (hkeyed : table.Keyed key) {wanted : κ} {value : α} :
    table.get? wanted = some value ↔ value ∈ table.values ∧ key value = wanted := by
  rw [Table.get?_eq_some_iff, mem_values_iff]
  constructor
  · intro hentry
    exact ⟨⟨wanted, hentry⟩, (hkeyed _ hentry).symm⟩
  · rintro ⟨⟨other, hentry⟩, rfl⟩
    rwa [show other = key value from hkeyed _ hentry] at hentry

theorem Keyed.get?_eq_none_iff (hkeyed : table.Keyed key) {wanted : κ} :
    table.get? wanted = none ↔ ∀ value ∈ table.values, key value ≠ wanted := by
  rw [Option.eq_none_iff_forall_ne_some]
  simp only [ne_eq, hkeyed.get?_eq_some_iff, not_and]

theorem Keyed.erase (hkeyed : table.Keyed key) (gone : κ) : (table.erase gone).Keyed key :=
  fun entry hentry => hkeyed entry (List.mem_filter.mp hentry).1

theorem Keyed.values_erase (hkeyed : table.Keyed key) (gone : κ) :
    (table.erase gone).values = table.values.filter (key · != gone) := by
  simp only [values, Table.erase, List.filter_map]
  congr 1
  refine List.filter_congr fun entry hentry => ?_
  rw [hkeyed entry hentry]
  rfl

theorem Keyed.insert (hkeyed : table.Keyed key) (value : α) :
    (table.insert (key value) value).Keyed key := by
  intro entry hentry
  rcases List.mem_append.mp hentry with hentry | hentry
  · exact hkeyed.erase _ entry hentry
  · rw [List.mem_singleton.mp hentry]

theorem Keyed.values_insert (hkeyed : table.Keyed key) (value : α) :
    (table.insert (key value) value).values =
      table.values.filter (key · != key value) ++ [value] := by
  rw [← hkeyed.values_erase]
  simp [values, Table.insert]

theorem Keyed.modify (hkeyed : table.Keyed key) (changed : κ) {change : α → α}
    (hchange : ∀ value, key (change value) = key value) :
    (table.modify changed change).Keyed key := by
  intro entry hentry
  obtain ⟨old, hold, rfl⟩ := List.mem_map.mp hentry
  simp only
  split
  · rw [hchange, hkeyed old hold]
  · exact hkeyed old hold

theorem Keyed.values_modify (hkeyed : table.Keyed key) (changed : κ) (change : α → α) :
    (table.modify changed change).values =
      table.values.map fun value => if key value = changed then change value else value := by
  simp only [values, Table.modify, mapValues, List.map_map]
  refine List.map_congr_left fun entry hentry => ?_
  simp only [Function.comp_apply]
  rw [hkeyed entry hentry]

end TemplateAnalysis.Table
