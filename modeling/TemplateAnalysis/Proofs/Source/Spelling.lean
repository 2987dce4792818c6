import TemplateAnalysis.Proofs.Source.Offsets

namespace TemplateAnalysis.Source

variable {source : Source} {earlier text later : List Char}

/-- A boundary stands behind a carriage return that ends a line, as far as the characters around it
    tell. -/
theorem followsReturn_iff (htext : source.chars = earlier ++ later) :
    source.FollowsReturn (Text.byteLength earlier) ↔
      earlier.getLast? = some '\r' ∧ ∀ c ∈ later.head?, c = '\n' := by
  constructor
  · rintro ⟨before, after, hchars, hlength, hends⟩
    have hsplit : (before ++ ['\r']) ++ after = earlier ++ later := by
      rw [← htext, hchars, List.append_assoc, List.singleton_append]
    have hcut : earlier = before ++ ['\r'] := by
      rcases List.append_eq_append_iff.mp hsplit with ⟨middle, hmiddle, _⟩ | ⟨middle, hmiddle, _⟩
      all_goals
        rw [hmiddle, Text.byteLength_append] at hlength
        have hempty : middle = [] := by
          by_contra hne
          have hpos := Text.byteLength_pos hne
          omega
        rw [hmiddle, hempty, List.append_nil]
    rw [hcut] at hsplit ⊢
    rw [← List.append_cancel_left hsplit]
    exact ⟨List.getLast?_concat, hends⟩
  · rintro ⟨hlast, hends⟩
    obtain ⟨before, rfl⟩ := List.getLast?_eq_some_iff.mp hlast
    exact ⟨before, later, by rw [htext, List.append_assoc, List.singleton_append], rfl, hends⟩

/-- The text of the source within a range is a name. Its end is found where the name ends, but for a
    name that ends in a carriage return at the end of a line: there the offset before the carriage
    return is found. -/
def Spells (source : Source) (range : Range) (name : String) : Prop :=
  ∃ start stop, source.offsetAt range.start = some start ∧
    Text.slice? start stop source.chars = some name.toList ∧
    (¬ source.FollowsReturn stop ∧ source.offsetAt range.stop = some stop ∨
      source.FollowsReturn stop ∧ name.toList.getLast? = some '\r' ∧
        source.offsetAt range.stop = some (stop - 1))

/-- A part of the text is found at its range if it does not begin with a line feed behind a carriage
    return. -/
theorem spells_of_cut (htext : source.chars = earlier ++ (text ++ later))
    (hstart : earlier.getLast? = some '\r' → ∃ c ∈ (text ++ later).head?, c ≠ '\n') :
    source.Spells ((Place.past {} earlier).rangeOf text) (String.ofList text) := by
  have hend : source.chars = (earlier ++ text) ++ later := by rw [htext, List.append_assoc]
  have hplain : ¬ source.FollowsReturn (Text.byteLength earlier) := by
    rw [followsReturn_iff htext]
    rintro ⟨hlast, hends⟩
    obtain ⟨c, hc, hother⟩ := hstart hlast
    exact hother (hends c hc)
  refine ⟨Text.byteLength earlier, Text.byteLength (earlier ++ text), ?_, ?_, ?_⟩
  · rw [Place.rangeOf, ← positionAt_eq htext]
    exact offsetAt_positionAt ⟨earlier, _, htext, rfl⟩ hplain
  · rw [htext, Text.byteLength_append, Text.slice?_append, String.toList_ofList]
  · rw [Place.rangeOf, ← Place.past_append, ← positionAt_eq hend, String.toList_ofList]
    by_cases hreturn : source.FollowsReturn (Text.byteLength (earlier ++ text))
    · refine .inr ⟨hreturn, ?_, offsetAt_positionAt_of_followsReturn hreturn⟩
      cases text with
      | nil =>
        rw [List.append_nil] at hreturn
        exact absurd hreturn hplain
      | cons c rest =>
        have hlast := ((followsReturn_iff hend).mp hreturn).1
        rwa [List.getLast?_append, List.getLast?_cons, Option.some_or, ← List.getLast?_cons] at hlast
    · exact .inl ⟨hreturn, offsetAt_positionAt ⟨_, later, hend, rfl⟩ hreturn⟩

/-- A part of a word of the text is found at its range, unless what stands before it in the word ends in
    a carriage return. -/
theorem spells_part {c : Char} {rest part : List Char} (front : List Char)
    (htext : source.chars = earlier ++ (c :: rest ++ later)) (hword : c ≠ '\n')
    (hpart : front ++ part <+: c :: rest) (hfront : front.getLast? ≠ some '\r') :
    source.Spells (((Place.past {} earlier).past front).rangeOf part) (String.ofList part) := by
  obtain ⟨after, hafter⟩ := hpart
  have hcut : source.chars = (earlier ++ front) ++ (part ++ (after ++ later)) := by
    rw [htext, ← hafter]
    simp
  rw [← Place.past_append]
  refine spells_of_cut hcut fun hlast => ?_
  cases front with
  | nil =>
    rw [List.nil_append] at hafter
    refine ⟨c, ?_, hword⟩
    rw [← List.append_assoc, hafter]
    rfl
  | cons first front =>
    rw [List.getLast?_append, List.getLast?_cons, Option.some_or, ← List.getLast?_cons] at hlast
    exact absurd hlast hfront

end TemplateAnalysis.Source
