import Mathlib.Data.List.Infix
import Mathlib.Data.List.TakeWhile
import TemplateAnalysis.Text.Blank
import TemplateAnalysis.Text.Search

namespace TemplateAnalysis.Text

variable {pattern text later : List Char}

theorem exists_range_of_contains {set : CodePoints} {c : Char} (hmem : set.contains c = true) :
    ∃ range ∈ set, range.1 ≤ c.toNat ∧ c.toNat ≤ range.2 := by
  induction set with
  | nil => cases hmem
  | cons range rest ih =>
    obtain ⟨low, high⟩ := range
    rw [CodePoints.contains] at hmem
    split at hmem
    next => cases hmem
    next hlow =>
      split at hmem
      next hhigh => exact ⟨_, List.mem_cons_self, Nat.le_of_not_lt hlow, hhigh⟩
      next =>
        obtain ⟨range, hrange, hbetween⟩ := ih hmem
        exact ⟨range, List.mem_cons_of_mem _ hrange, hbetween⟩

/-- What is true of each of the blanks is true of a blank. -/
theorem of_isBlank {P : Char → Prop} {c : Char} (hblank : isBlank c = true)
    (hblanks : ∀ range ∈ blankCodePoints, ∀ offset < range.2 + 1 - range.1,
      P (Char.ofNat (range.1 + offset))) : P c := by
  obtain ⟨range, hrange, hlow, hhigh⟩ := exists_range_of_contains hblank
  have hP := hblanks range hrange (c.toNat - range.1) (by omega)
  rwa [Nat.add_sub_cancel' hlow, Char.ofNat_toNat] at hP

/-- A text is read on into what follows it only if the condition holds there too. -/
theorem takeWhile_append {P : Char → Bool} (text : List Char) {later : List Char}
    (hstop : ∀ c ∈ later.head?, P c = false) : (text ++ later).takeWhile P = text.takeWhile P := by
  rw [List.takeWhile_append]
  split
  next hwhole =>
    rw [(List.takeWhile_prefix P).eq_of_length hwhole]
    cases later with
    | nil => rw [List.takeWhile_nil, List.append_nil]
    | cons c later => rw [List.takeWhile_cons_of_neg (by simp [hstop c rfl]), List.append_nil]
  next => rfl

theorem drop_takeWhile (P : Char → Bool) (text : List Char) :
    text.drop (text.takeWhile P).length = text.dropWhile P := by
  induction text with
  | nil => rfl
  | cons c rest ih => by_cases hc : P c = true <;> simp [hc, ih]

/-- A search that succeeds cuts the text around the pattern. -/
theorem eq_append_of_splitAt? {pattern text before after : List Char}
    (hsplit : splitAt? pattern text = some (before, after)) : text = before ++ pattern ++ after := by
  induction text generalizing before after with
  | nil =>
    rw [splitAt?] at hsplit
    split at hsplit
    next hempty =>
      cases hsplit
      rw [List.isEmpty_iff.mp hempty]
      rfl
    next => cases hsplit
  | cons c rest ih =>
    rw [splitAt?] at hsplit
    split at hsplit
    next hfound =>
      cases hsplit
      obtain ⟨later, hlater⟩ := List.isPrefixOf_iff_prefix.mp hfound
      rw [← hlater, List.drop_left, List.nil_append]
    next =>
      obtain ⟨⟨earlier, later⟩, hrest, hpair⟩ := Option.map_eq_some_iff.mp hsplit
      cases hpair
      rw [ih hrest]
      rfl

/-- A text up to the end of the first occurrence of a pattern ends in the pattern, or it is the whole
    text. -/
theorem take_lengthThrough_cases (pattern text : List Char) :
    pattern <:+ text.take (lengthThrough pattern text) ∨
      text.drop (lengthThrough pattern text) = [] := by
  unfold lengthThrough
  split
  next before after hsplit =>
    refine .inl ⟨before, ?_⟩
    rw [eq_append_of_splitAt? hsplit, ← List.length_append, List.take_left]
  next => exact .inr List.drop_length

theorem lengthThrough_cons (pattern : List Char) (c : Char) (rest : List Char) :
    lengthThrough pattern (c :: rest) =
      if pattern.isPrefixOf (c :: rest) then pattern.length else lengthThrough pattern rest + 1 := by
  rw [lengthThrough, splitAt?]
  split_ifs with hfound
  · exact Nat.zero_add _
  · rw [lengthThrough]
    cases splitAt? pattern rest with
    | none => rfl
    | some pair => exact Nat.add_right_comm _ _ _

/-- Whether a text that is long enough begins with the pattern does not depend on what follows it. -/
theorem begins_append_iff (hlong : pattern.length ≤ text.length) (later : List Char) :
    pattern <+: text ++ later ↔ pattern <+: text :=
  ⟨fun hbegins => List.prefix_of_prefix_length_le hbegins (List.prefix_append text later) hlong,
    fun hbegins => hbegins.trans (List.prefix_append text later)⟩

/-- A search either passes over the pattern or reaches the end of the text. -/
theorem lengthThrough_ge (pattern text : List Char) :
    pattern.length ≤ lengthThrough pattern text ∨ lengthThrough pattern text = text.length := by
  unfold lengthThrough
  split
  · exact .inl (Nat.le_add_left _ _)
  · exact .inr rfl

theorem lengthThrough_eq_length (hmissing : ¬ pattern <:+: text) :
    lengthThrough pattern text = text.length := by
  induction text with
  | nil =>
    have hne : pattern ≠ [] := fun hnil => hmissing (hnil ▸ List.infix_rfl)
    simp [lengthThrough, splitAt?, hne]
  | cons c rest ih =>
    rw [List.infix_cons_iff, not_or] at hmissing
    rw [lengthThrough_cons, if_neg (mt List.isPrefixOf_iff_prefix.mp hmissing.1), ih hmissing.2]
    rfl

/-- A search that finds the pattern in a text finds the same place whatever follows the text. -/
theorem lengthThrough_append (hfound : pattern <:+: text) (later : List Char) :
    lengthThrough pattern (text ++ later) = lengthThrough pattern text := by
  induction text with
  | nil =>
    rw [List.infix_nil.mp hfound]
    cases later <;> rfl
  | cons c rest ih =>
    have hleads := begins_append_iff hfound.length_le later
    rw [List.cons_append] at hleads
    simp only [List.cons_append, lengthThrough_cons, List.isPrefixOf_iff_prefix, hleads]
    split_ifs with hbegins
    · rfl
    · rw [ih ((List.infix_cons_iff.mp hfound).resolve_left hbegins)]

/-- A search that ends before a text does finds the same place whatever follows the text. -/
theorem lengthThrough_congr (hends : lengthThrough pattern (text ++ later) < text.length)
    (later' : List Char) :
    lengthThrough pattern (text ++ later') = lengthThrough pattern (text ++ later) := by
  induction text with
  | nil => exact absurd hends (Nat.not_lt_zero _)
  | cons c rest ih =>
    simp only [List.cons_append, lengthThrough_cons, List.isPrefixOf_iff_prefix] at hends ⊢
    have hshort : pattern.length ≤ (c :: rest).length := by
      have hge := lengthThrough_ge pattern (rest ++ later)
      simp only [List.length_append, List.length_cons] at hends hge ⊢
      split at hends <;> omega
    have hleads := begins_append_iff hshort
    simp only [List.cons_append] at hleads
    simp only [hleads] at hends ⊢
    split_ifs at hends ⊢
    · rfl
    · rw [ih (Nat.lt_of_succ_lt_succ hends)]

/-- A search does not go beyond the text. -/
theorem lengthThrough_le (pattern text : List Char) : lengthThrough pattern text ≤ text.length := by
  unfold lengthThrough
  split
  next before after hsplit =>
    rw [eq_append_of_splitAt? hsplit, ← List.length_append]
    exact (List.prefix_append _ after).length_le
  next => exact le_refl _

/-- A pattern that ends a text and does not occur before is found there, whatever follows. -/
theorem lengthThrough_eq (hne : pattern ≠ []) (hfirst : ¬ pattern <:+: text ++ pattern.dropLast)
    (later : List Char) :
    lengthThrough pattern (text ++ (pattern ++ later)) = text.length + pattern.length := by
  induction text with
  | nil =>
    obtain ⟨c, rest, rfl⟩ := List.exists_cons_of_ne_nil hne
    rw [List.nil_append, List.cons_append, lengthThrough_cons, ← List.cons_append,
      if_pos (List.isPrefixOf_iff_prefix.mpr (List.prefix_append _ _))]
    exact (Nat.zero_add _).symm
  | cons c rest ih =>
    rw [List.cons_append, List.infix_cons_iff, not_or] at hfirst
    have hbegins : ¬ pattern <+: c :: (rest ++ (pattern ++ later)) := by
      have hsplit : c :: (rest ++ (pattern ++ later)) =
          (c :: (rest ++ pattern.dropLast)) ++ ([pattern.getLast hne] ++ later) := by
        conv_lhs => rw [← List.dropLast_append_getLast hne]
        simp
      rw [hsplit, begins_append_iff (by simp; omega)]
      exact hfirst.1
    rw [List.cons_append, lengthThrough_cons, if_neg (mt List.isPrefixOf_iff_prefix.mp hbegins),
      ih hfirst.2, List.length_cons]
    omega

end TemplateAnalysis.Text
