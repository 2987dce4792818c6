import TemplateAnalysis.Host.Index
import TemplateAnalysis.Proofs.Position
import TemplateAnalysis.Proofs.Sorting

namespace TemplateAnalysis.Host.Index

theorem precedes_iff {first second : Entry} : precedes first second = true ↔
    second.revision < first.revision ∨
      first.revision = second.revision ∧ first.range.start ≤ second.range.start := by
  unfold precedes
  split
  next hsame => simp [hsame]
  next hdiffer => simp [hdiffer]

theorem precedes_trans (first second third : Entry) (hfirst : precedes first second = true)
    (hsecond : precedes second third = true) : precedes first third = true := by
  rw [precedes_iff] at hfirst hsecond ⊢
  rcases hfirst with hrevision | ⟨hrevision, hstart⟩
  · rcases hsecond with hrevision' | ⟨hrevision', _⟩
    · exact .inl (hrevision'.trans hrevision)
    · exact .inl (hrevision' ▸ hrevision)
  · rw [hrevision]
    exact hsecond.imp_right fun ⟨hrevision', hstart'⟩ => ⟨hrevision', hstart.trans hstart'⟩

theorem precedes_total (first second : Entry) :
    (precedes first second || precedes second first) = true := by
  rw [Bool.or_eq_true, precedes_iff, precedes_iff]
  rcases Nat.lt_trichotomy first.revision second.revision with hlt | heq | hgt
  · exact .inr (.inl hlt)
  · rcases le_total first.range.start second.range.start with hle | hge
    · exact .inl (.inr ⟨heq, hle⟩)
    · exact .inr (.inr ⟨heq.symm, hge⟩)
  · exact .inl (.inl hgt)

@[simp] theorem candidates_append (name : String) (family : Option HostLanguage)
    (first second : List (String × Entry)) :
    candidates name family (first ++ second) =
      candidates name family first ++ candidates name family second := by
  simp [candidates]

theorem mem_candidates {name : String} {family : Option HostLanguage}
    {entries : List (String × Entry)} {entry : Entry} : entry ∈ candidates name family entries ↔
      (name, entry) ∈ entries ∧ inFamily family entry = true := by
  simp only [candidates, List.mem_map, List.mem_filter, Bool.and_eq_true, beq_iff_eq, Prod.exists]
  constructor
  · rintro ⟨other, found, ⟨hmem, rfl, hfamily⟩, rfl⟩
    exact ⟨hmem, hfamily⟩
  · rintro ⟨hmem, hfamily⟩
    exact ⟨name, entry, ⟨hmem, rfl, hfamily⟩, rfl⟩

theorem candidates_sublist (name : String) (family : Option HostLanguage)
    (entries : List (String × Entry)) :
    (candidates name family entries).Sublist (entries.map (·.2)) :=
  List.filter_sublist.map _

/-- Where the entries come from several writes, each of them in order, the later writes come first
    in a look-up. -/
theorem lookup_flatMap {ι : Type} {index : Index} {writes : List ι}
    {entriesOf : ι → List (String × Entry)} (hindex : index.entries = writes.flatMap entriesOf)
    (hsorted : ∀ write ∈ writes, ((entriesOf write).map (·.2)).Pairwise
      (fun first second => precedes first second = true))
    (hlater : writes.Pairwise fun earlier later => ∀ first ∈ (entriesOf earlier).map (·.2),
      ∀ second ∈ (entriesOf later).map (·.2), precedes first second = false)
    (name : String) (family : Option HostLanguage) :
    index.lookup name family =
      writes.reverse.flatMap fun write => candidates name family (entriesOf write) := by
  rw [lookup, hindex]
  clear hindex
  induction writes with
  | nil => simp [candidates]
  | cons write rest ih =>
    obtain ⟨hfirst, hrest⟩ := List.pairwise_cons.mp hlater
    have hseparate : ∀ first ∈ candidates name family (entriesOf write),
        ∀ second ∈ candidates name family (rest.flatMap entriesOf),
          precedes first second = false := by
      intro first hmem second hmem'
      obtain ⟨hin, _⟩ := mem_candidates.mp hmem'
      obtain ⟨later, hmemLater, hentry⟩ := List.mem_flatMap.mp hin
      exact hfirst later hmemLater first ((candidates_sublist ..).subset hmem) second
        (List.mem_map_of_mem hentry)
    rw [List.flatMap_cons, candidates_append,
      mergeSort_append_swap precedes_trans precedes_total hseparate,
      ih (fun write hmem => hsorted write (List.mem_cons_of_mem _ hmem)) hrest,
      List.mergeSort_of_pairwise ((hsorted write List.mem_cons_self).sublist (candidates_sublist ..)),
      List.reverse_cons, List.flatMap_append, List.flatMap_singleton]

theorem mem_lookup {index : Index} {name : String} {family : Option HostLanguage} {entry : Entry} :
    entry ∈ index.lookup name family ↔
      (name, entry) ∈ index.entries ∧ inFamily family entry = true := by
  rw [lookup, List.mem_mergeSort, mem_candidates]

/-- The declared names with the declarations that count. -/
theorem mem_names {index : Index} {family : Option HostLanguage} {name : String} {entry : Entry} :
    (name, entry) ∈ index.names family ↔ (index.lookup name family).head? = some entry := by
  simp only [names, List.mem_filterMap, List.mem_mergeSort, mem_distinctBy_id, Option.map_eq_some_iff,
    Prod.mk.injEq]
  constructor
  · rintro ⟨other, _, found, hlatest, rfl, rfl⟩
    exact hlatest
  · intro hhead
    obtain ⟨hmem, _⟩ := mem_lookup.mp (List.mem_of_head? hhead)
    exact ⟨name, List.mem_map_of_mem hmem, entry, hhead, rfl, rfl⟩

theorem mem_map_names {index : Index} {family : Option HostLanguage} {name : String} :
    name ∈ (index.names family).map (·.1) ↔ (index.latest? name family).isSome = true := by
  rw [List.mem_map, Option.isSome_iff_exists]
  constructor
  · rintro ⟨⟨_, entry⟩, hentry, rfl⟩
    exact ⟨entry, mem_names.mp hentry⟩
  · rintro ⟨entry, hentry⟩
    exact ⟨(name, entry), mem_names.mpr hentry, rfl⟩

/-- The declared names come in order, each of them once. -/
theorem names_pairwise (index : Index) (family : Option HostLanguage) :
    ((index.names family).map (·.1)).Pairwise (· < ·) := by
  have hsub : ∀ names : List String, ((names.filterMap fun name =>
      (index.latest? name family).map fun entry => (name, entry)).map (·.1)).Sublist names := by
    intro names
    induction names with
    | nil => exact List.Sublist.slnil
    | cons name rest ih =>
      cases hlatest : index.latest? name family with
      | none =>
        rw [List.filterMap_cons_none (by rw [hlatest]; rfl)]
        exact ih.cons name
      | some entry =>
        rw [List.filterMap_cons_some (by rw [hlatest]; rfl)]
        exact ih.cons_cons name
  have hsorted := pairwise_mergeSort_strings (distinctBy id (index.entries.map (·.1)))
  have hnodup := (List.mergeSort_perm (distinctBy id (index.entries.map (·.1)))
    fun first second => decide (first ≤ second)).nodup_iff.mpr (nodup_distinctBy_id _)
  exact ((hsorted.and hnodup).imp fun ⟨hle, hne⟩ => Std.lt_of_le_of_ne hle hne).sublist (hsub _)

end TemplateAnalysis.Host.Index
