import Mathlib.Data.List.Basic
import TemplateAnalysis.Proofs.Source.Offsets
import TemplateAnalysis.Text.Blank

namespace TemplateAnalysis

namespace Text

theorem trimEnd_concat (text : List Char) (c : Char) :
    trimEnd (text ++ [c]) = if isBlank c then trimEnd text else text ++ [c] := by
  rw [trimEnd, trimEnd, List.reverse_append, List.reverse_singleton, List.singleton_append,
    List.dropWhile_cons]
  split
  · rfl
  · rw [List.reverse_cons, List.reverse_reverse]

/-- Only blanks behind the last character that is not blank are cut off. -/
theorem trimEnd_append {text : List Char} (rest : List Char)
    (hlast : ∀ c ∈ text.getLast?, isBlank c = false) : trimEnd (text ++ rest) = text ++ trimEnd rest := by
  induction rest using List.reverseRecOn with
  | nil =>
    rcases List.eq_nil_or_concat' text with rfl | ⟨init, c, rfl⟩
    · rfl
    · rw [List.append_nil, trimEnd_concat, if_neg (by simp [hlast c List.getLast?_concat])]
      exact (List.append_nil _).symm
  | append_singleton rest c ih =>
    rw [← List.append_assoc, trimEnd_concat, trimEnd_concat, ih]
    split
    · rfl
    · rw [List.append_assoc]

theorem eq_nil_of_unitCount {text : List Char} (hunits : unitCount text = 0) : text = [] := by
  cases text with
  | nil => rfl
  | cons c rest =>
    have hpos := units16_pos c
    rw [unitCount_cons] at hunits
    omega

end Text

/-- The line of a place behind a text is told by the line feeds of the text. -/
theorem Place.line_past (place : Place) (text : List Char) :
    (place.past text).position.line = place.position.line + text.count '\n' := by
  induction text generalizing place with
  | nil => rfl
  | cons c rest ih =>
    rw [past_cons, ih, after, Position.after, List.count_cons]
    split_ifs <;> simp_all [Nat.add_comm, Nat.add_left_comm]

namespace Source

variable {source : Source} {earlier front later : List Char}

/-- Lines begin at the front of the text and behind line feeds. -/
def BeginsLine (earlier : List Char) : Prop :=
  ∀ c ∈ earlier.getLast?, c = '\n'

theorem BeginsLine.position_eq (hbegins : BeginsLine earlier) :
    (Place.past {} earlier).position = { line := earlier.count '\n', character := 0 } := by
  have hline : (Place.past {} earlier).position.line = earlier.count '\n' :=
    (Place.line_past {} earlier).trans (Nat.zero_add _)
  have hcharacter : (Place.past {} earlier).position.character = 0 := by
    rcases List.eq_nil_or_concat' earlier with rfl | ⟨init, c, rfl⟩
    · rfl
    · obtain rfl := hbegins c List.getLast?_concat
      rw [Place.past_append]
      rfl
  exact congrArg₂ Position.mk hline hcharacter

/-- Every text ends in a part of one line. -/
theorem exists_beginsLine (text : List Char) :
    ∃ earlier front, text = earlier ++ front ∧ BeginsLine earlier ∧ '\n' ∉ front := by
  induction text using List.reverseRecOn with
  | nil => exact ⟨[], [], rfl, (fun _ hlast => nomatch hlast), List.not_mem_nil⟩
  | append_singleton text c ih =>
    by_cases hc : c = '\n'
    · subst hc
      have hbegins : BeginsLine (text ++ ['\n']) := fun c hlast =>
        (Option.some.inj (List.getLast?_concat.symm.trans hlast)).symm
      exact ⟨text ++ ['\n'], [], (List.append_nil _).symm, hbegins, List.not_mem_nil⟩
    · obtain ⟨earlier, front, rfl, hbegins, hfront⟩ := ih
      exact ⟨earlier, front ++ [c], List.append_assoc _ _ _, hbegins, by simp [hfront, Ne.symm hc]⟩

/-- A line is cut out of the text where it begins. -/
theorem line?_eq (htext : source.chars = earlier ++ later) (hbegins : BeginsLine earlier) :
    source.line? (earlier.count '\n') = some (Text.byteLength earlier, firstLine later) := by
  obtain ⟨start, current, hfound, _, hoffset, hcharacter⟩ := exists_line earlier later
  rw [hbegins.position_eq] at hfound hcharacter
  obtain rfl := Text.eq_nil_of_unitCount hcharacter.symm
  rw [Place.offset_past, Nat.zero_add] at hoffset
  rw [line?, htext, hfound, Option.map_some, hoffset]
  rfl

theorem lineStartsAfter_eq_nil {text : List Char} (offset : Nat) (hline : '\n' ∉ text) :
    lineStartsAfter offset text = [] := by
  induction text generalizing offset with
  | nil => rfl
  | cons c rest ih =>
    obtain ⟨hc, hrest⟩ := not_or.mp (List.mem_cons.not.mp hline)
    simp only [lineStartsAfter, if_neg (Ne.symm hc), ih _ hrest]

/-- The last of the lines up to a line is that line. -/
theorem getLast?_lineStarts (hbegins : BeginsLine earlier) :
    (0 :: lineStartsAfter 0 earlier).getLast? = some (Text.byteLength earlier) := by
  rcases List.eq_nil_or_concat' earlier with rfl | ⟨init, c, rfl⟩
  · rfl
  · obtain rfl := hbegins c List.getLast?_concat
    rw [lineStartsAfter_append, Nat.zero_add, Text.byteLength_append, ← List.cons_append]
    exact List.getLast?_concat

/-- The location of an offset is its line, with line and column counted from one, and the columns in bytes. -/
theorem location_eq (htext : source.chars = earlier ++ (front ++ later)) (hbegins : BeginsLine earlier)
    (hfront : '\n' ∉ front) : source.location (Text.byteLength (earlier ++ front)) =
      (earlier.count '\n' + 1, Text.byteLength front + 1, String.ofList (firstLine (front ++ later))) := by
  have hsize : Text.byteLength (earlier ++ front) ≤ source.size := by
    rw [size, htext, ← List.append_assoc, Text.byteLength_append _ later]
    exact Nat.le_add_right _ _
  have hstarts : source.lineStarts.filter (· ≤ Text.byteLength (earlier ++ front)) =
      0 :: lineStartsAfter 0 earlier := by
    have hbehind := lineStartsAfter_eq_nil (0 + Text.byteLength earlier) hfront
    rw [lineStarts, htext, lineStartsAfter_append, lineStartsAfter_append, hbehind, List.nil_append,
      ← List.cons_append, List.filter_append, List.filter_eq_self.mpr, List.filter_eq_nil_iff.mpr,
      List.append_nil]
    · intro start hmem
      have hlater := lt_of_mem_lineStartsAfter hmem
      rw [Text.byteLength_append]
      simp only [decide_eq_true_eq]
      omega
    · refine List.forall_mem_cons.mpr ⟨by simp, fun start hmem => ?_⟩
      have hbefore := le_of_mem_lineStartsAfter hmem
      rw [Text.byteLength_append]
      simp only [decide_eq_true_eq]
      omega
  have hcount : (0 :: lineStartsAfter 0 earlier).length = earlier.count '\n' + 1 := by
    have hlength := length_lineStartsAfter {} earlier
    rw [Place.line_past] at hlength
    rw [List.length_cons, Nat.add_left_cancel hlength]
  have hlast : (0 :: lineStartsAfter 0 earlier).getLastD 0 = Text.byteLength earlier := by
    rw [List.getLastD_eq_getLast?, getLast?_lineStarts hbegins, Option.getD_some]
  have hcolumn : Text.byteLength (earlier ++ front) - Text.byteLength earlier = Text.byteLength front := by
    rw [Text.byteLength_append, Nat.add_sub_cancel_left]
  simp only [location, Nat.min_eq_left hsize, hstarts, hcount, hlast, hcolumn, Nat.add_sub_cancel, lineText,
    line?_eq htext hbegins]

/-- So many units of a line as a beginning of it has are that beginning. -/
theorem offsetAt_of_firstLine {part tail : List Char} (htext : source.chars = earlier ++ later)
    (hbegins : BeginsLine earlier) (hline : firstLine later = part ++ tail) :
    source.offsetAt ⟨earlier.count '\n', Text.unitCount part⟩ = some (Text.byteLength (earlier ++ part)) := by
  have hbytes : bytesBefore (Text.unitCount part + 0) (part ++ tail) = Text.byteLength part + 0 := by
    rw [bytesBefore_append, bytesBefore]
  rw [offsetAt, line?_eq htext hbegins, Option.map_some, hline, Text.byteLength_append]
  exact congrArg (fun count => some (Text.byteLength earlier + count)) hbytes

/-- The ending of a line consists of blanks. -/
theorem trimEnd_firstLine {line : List Char} (hline : '\n' ∉ line) (hends : ∀ c ∈ later.head?, c = '\n') :
    Text.trimEnd (firstLine (line ++ later)) = Text.trimEnd line := by
  have htaken : (line ++ later).takeWhile (fun c => decide (c ≠ '\n')) = line := by
    have hplain : ∀ c ∈ line, decide (c ≠ '\n') = true := fun c hc =>
      decide_eq_true fun hsame : c = '\n' => hline (hsame ▸ hc)
    rw [List.takeWhile_append_of_pos hplain]
    cases later with
    | nil => exact List.append_nil _
    | cons c later =>
      obtain rfl := hends c rfl
      exact List.append_nil _
  simp only [firstLine, htaken]
  split
  next hreturn =>
    obtain ⟨init, rfl⟩ := List.getLast?_eq_some_iff.mp hreturn
    rw [List.dropLast_concat, Text.trimEnd_concat]
    rfl
  next => rfl

end Source

end TemplateAnalysis
