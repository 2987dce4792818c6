import Mathlib.Data.List.Basic
import TemplateAnalysis.Distinct

namespace TemplateAnalysis

/-- No key is lost among the elements with distinct keys. -/
theorem mem_map_distinctBy {α κ : Type} [BEq κ] [LawfulBEq κ] (key : α → κ) {elements : List α}
    {value : κ} : value ∈ (distinctBy key elements).map key ↔ value ∈ elements.map key := by
  induction elements with
  | nil => rfl
  | cons first rest ih =>
    rw [distinctBy, List.map_cons, List.map_cons, List.mem_cons, List.mem_cons, ← ih, List.mem_map,
      List.mem_map]
    refine or_congr_right' fun hne => ⟨?_, ?_⟩
    · rintro ⟨other, hother, rfl⟩
      exact ⟨other, (List.mem_filter.mp hother).1, rfl⟩
    · rintro ⟨other, hother, rfl⟩
      exact ⟨other, List.mem_filter.mpr ⟨hother, by simpa using hne⟩, rfl⟩

theorem mem_distinctBy_id {α : Type} [DecidableEq α] {values : List α} {value : α} :
    value ∈ distinctBy id values ↔ value ∈ values := by
  have hmem : value ∈ (distinctBy id values).map id ↔ value ∈ values.map id := mem_map_distinctBy id
  rwa [List.map_id, List.map_id] at hmem

/-- No key stands twice among the elements with distinct keys. -/
theorem nodup_map_distinctBy {α κ : Type} [BEq κ] [LawfulBEq κ] (key : α → κ) (elements : List α) :
    ((distinctBy key elements).map key).Nodup := by
  induction elements with
  | nil => exact List.nodup_nil
  | cons first rest ih =>
    rw [distinctBy, List.map_cons, List.nodup_cons]
    refine ⟨?_, ih.sublist (List.filter_sublist.map key)⟩
    rw [List.mem_map]
    rintro ⟨other, hother, hkey⟩
    have hdiffers := (List.mem_filter.mp hother).2
    rw [hkey] at hdiffers
    simp at hdiffers

theorem nodup_distinctBy_id {α : Type} [DecidableEq α] (values : List α) :
    (distinctBy id values).Nodup := by
  simpa using nodup_map_distinctBy id values

/-- Of the elements with one key only the first one stays. -/
theorem filter_distinctBy {α κ : Type} [BEq κ] [LawfulBEq κ] (key : α → κ) (value : κ)
    (elements : List α) : (distinctBy key elements).filter (fun element => key element == value) =
      (elements.find? fun element => key element == value).toList := by
  induction elements with
  | nil => rfl
  | cons first rest ih =>
    rw [distinctBy]
    by_cases hfirst : key first = value
    · rw [List.filter_cons_of_pos (by simpa using hfirst), List.filter_filter,
        List.find?_cons_of_pos (by simpa using hfirst), Option.toList_some,
        List.filter_eq_nil_iff.mpr]
      simp [hfirst]
    · rw [List.filter_cons_of_neg (by simpa using hfirst), List.filter_filter,
        List.find?_cons_of_neg (by simpa using hfirst), ← ih]
      refine List.filter_congr fun element _ => ?_
      by_cases helement : key element = value
      · simp [helement, Ne.symm hfirst]
      · simp [helement]

/-- An element stays if it is the first one with its key. -/
theorem mem_distinctBy_iff {α κ : Type} [BEq κ] [LawfulBEq κ] {key : α → κ} {elements : List α}
    {element : α} : element ∈ distinctBy key elements ↔
      elements.find? (fun other => key other == key element) = some element := by
  have hkept := filter_distinctBy key (key element) elements
  have hmem : element ∈ (distinctBy key elements).filter (fun other => key other == key element) ↔
      element ∈ distinctBy key elements := by simp
  rw [← hmem, hkept, Option.mem_toList]

theorem mem_of_mem_distinctBy {α κ : Type} [BEq κ] {key : α → κ} {elements : List α} {element : α}
    (hmem : element ∈ distinctBy key elements) : element ∈ elements := by
  induction elements with
  | nil => exact hmem
  | cons head rest ih =>
    rw [distinctBy, List.mem_cons, List.mem_filter] at hmem
    exact List.mem_cons.mpr (hmem.imp_right fun hrest => ih hrest.1)

/-- What is distinct in two lists is what is distinct in the first one and what the second one
    adds. -/
theorem distinctBy_append {α κ : Type} [BEq κ] [LawfulBEq κ] (key : α → κ) (first second : List α) :
    distinctBy key (first ++ second) = distinctBy key first ++
      (distinctBy key second).filter fun element => first.all fun other => key element != key other := by
  induction first with
  | nil => simp [distinctBy]
  | cons head rest ih =>
    rw [List.cons_append, distinctBy, ih, List.filter_append, List.filter_filter, distinctBy,
      List.cons_append]
    simp only [List.all_cons]

/-- Sorting is stable: elements of which none must precede another one keep their order. -/
theorem filter_mergeSort {α : Type} {le : α → α → Bool}
    (htrans : ∀ a b c, le a b = true → le b c = true → le a c = true)
    (htotal : ∀ a b, (le a b || le b a) = true) {p : α → Bool}
    (halike : ∀ a b, p a = true → p b = true → le a b = true) (elements : List α) :
    (elements.mergeSort le).filter p = elements.filter p := by
  have hchosen : (elements.filter p).Pairwise fun a b => le a b = true := by
    refine List.pairwise_of_forall_mem_list fun a ha b hb => ?_
    exact halike a b (List.mem_filter.mp ha).2 (List.mem_filter.mp hb).2
  have hkept : (elements.filter p).Sublist ((elements.mergeSort le).filter p) := by
    have hsorted := List.sublist_mergeSort htrans htotal hchosen List.filter_sublist
    simpa only [List.filter_filter, Bool.and_self] using hsorted.filter p
  have hlength := ((List.mergeSort_perm elements le).filter p).length_eq
  exact (hkept.eq_of_length hlength.symm).symm

/-- Sorting puts a new first element behind what must precede it and before all the rest. -/
theorem mergeSort_cons_filter {α : Type} {le : α → α → Bool}
    (htrans : ∀ a b c, le a b = true → le b c = true → le a c = true)
    (htotal : ∀ a b, (le a b || le b a) = true) (a : α) (rest : List α) :
    (a :: rest).mergeSort le =
      (rest.mergeSort le).filter (fun b => !le a b) ++ a :: (rest.mergeSort le).filter (le a) := by
  obtain ⟨before, after, hall, hrest, hbefore⟩ := List.mergeSort_cons htrans htotal a rest
  have hsorted := List.pairwise_mergeSort htrans htotal (a :: rest)
  rw [hall, List.pairwise_append, List.pairwise_cons] at hsorted
  have hafter : ∀ b ∈ after, le a b = true := hsorted.2.1.1
  rw [hall, hrest, List.filter_append, List.filter_append,
    List.filter_eq_self.mpr (by simpa using hbefore),
    List.filter_eq_nil_iff.mpr (by simpa using hafter),
    List.filter_eq_nil_iff.mpr (by simpa using hbefore),
    List.filter_eq_self.mpr hafter, List.append_nil, List.nil_append]

/-- What comes before all of the earlier elements is sorted to the front, as a whole. -/
theorem mergeSort_append_swap {α : Type} {le : α → α → Bool}
    (htrans : ∀ a b c, le a b = true → le b c = true → le a c = true)
    (htotal : ∀ a b, (le a b || le b a) = true) {first second : List α}
    (hlater : ∀ a ∈ first, ∀ b ∈ second, le a b = false) :
    (first ++ second).mergeSort le = second.mergeSort le ++ first.mergeSort le := by
  induction first with
  | nil => simp
  | cons a first ih =>
    have hsecond : ∀ b ∈ second.mergeSort le, le a b = false := fun b hb =>
      hlater a List.mem_cons_self b (List.mem_mergeSort.mp hb)
    have hbefore : (second.mergeSort le).filter (fun b => !le a b) = second.mergeSort le :=
      List.filter_eq_self.mpr fun b hb => by rw [hsecond b hb]; rfl
    have hafter : (second.mergeSort le).filter (le a) = [] :=
      List.filter_eq_nil_iff.mpr fun b hb => by rw [hsecond b hb]; simp
    rw [List.cons_append, mergeSort_cons_filter htrans htotal,
      ih fun b hb => hlater b (List.mem_cons_of_mem a hb), List.filter_append, List.filter_append,
      hbefore, hafter, List.nil_append, mergeSort_cons_filter htrans htotal a first,
      List.append_assoc]

/-- Sorted names come in order. -/
theorem pairwise_mergeSort_strings (names : List String) :
    (names.mergeSort fun first second => decide (first ≤ second)).Pairwise (· ≤ ·) := by
  have hsorted : (names.mergeSort fun first second => decide (first ≤ second)).Pairwise
      (fun first second => decide (first ≤ second) = true) := by
    refine List.pairwise_mergeSort ?_ ?_ names
    · intro first second third hfirst hsecond
      rw [decide_eq_true_eq] at hfirst hsecond ⊢
      exact String.le_trans hfirst hsecond
    · intro first second
      rw [Bool.or_eq_true, decide_eq_true_eq, decide_eq_true_eq]
      exact String.le_total first second
  exact hsorted.imp of_decide_eq_true

/-- The order in which names stand does not matter once they are sorted. -/
theorem mergeSort_strings_congr {first second : List String} (hperm : first.Perm second) :
    (first.mergeSort fun first second => decide (first ≤ second)) =
      second.mergeSort fun first second => decide (first ≤ second) := by
  have hsorted : ((first.mergeSort fun first second => decide (first ≤ second))).Perm
      (second.mergeSort fun first second => decide (first ≤ second)) :=
    (List.mergeSort_perm first _).trans (hperm.trans (List.mergeSort_perm second _).symm)
  exact hsorted.eq_of_pairwise (fun _ _ _ _ hle hge => String.le_antisymm hle hge)
    (pairwise_mergeSort_strings first) (pairwise_mergeSort_strings second)

end TemplateAnalysis
