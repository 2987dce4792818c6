import TemplateAnalysis.Proofs.Source

namespace TemplateAnalysis

namespace Text

theorem takeBytes?_append (first second : List Char) :
    takeBytes? (byteLength first) (first ++ second) = some first := by
  induction first with
  | nil => cases second <;> rfl
  | cons c first ih =>
    obtain ⟨count, hcount⟩ : ∃ count, c.utf8Size + byteLength first = count + 1 :=
      Nat.exists_eq_add_of_le' (Nat.le_add_right_of_le c.utf8Size_pos)
    rw [byteLength_cons, List.cons_append, hcount, takeBytes?, if_pos (by omega), ← hcount,
      Nat.add_sub_cancel_left, ih, Option.map_some]

theorem dropBytes?_append (first second : List Char) :
    dropBytes? (byteLength first) (first ++ second) = some second := by
  induction first with
  | nil => cases second <;> rfl
  | cons c first ih =>
    obtain ⟨count, hcount⟩ : ∃ count, c.utf8Size + byteLength first = count + 1 :=
      Nat.exists_eq_add_of_le' (Nat.le_add_right_of_le c.utf8Size_pos)
    rw [byteLength_cons, List.cons_append, hcount, dropBytes?, if_pos (by omega), ← hcount,
      Nat.add_sub_cancel_left, ih]

/-- The part of a text between two of its characters. -/
theorem slice?_append (earlier middle later : List Char) :
    slice? (byteLength earlier) (byteLength earlier + byteLength middle)
      (earlier ++ (middle ++ later)) = some middle := by
  rw [slice?, if_pos (Nat.le_add_right _ _), dropBytes?_append, Option.bind_some,
    Nat.add_sub_cancel_left, takeBytes?_append]

end Text

namespace Source

variable {source : Source} {offset line : Nat}

/-- An offset between two characters of the text, or at one of its ends. -/
def IsBoundary (source : Source) (offset : Nat) : Prop :=
  ∃ earlier later, source.chars = earlier ++ later ∧ offset = Text.byteLength earlier

/-- A carriage return stands right before the offset and at the end of its line. -/
def FollowsReturn (source : Source) (offset : Nat) : Prop :=
  ∃ earlier later, source.chars = earlier ++ '\r' :: later ∧
    offset = Text.byteLength (earlier ++ ['\r']) ∧ ∀ c ∈ later.head?, c = '\n'

/-- The number of the line of an offset by its place among the offsets at which lines begin: there
    itself, or one less than the place at which it would stand. There is none if it would stand
    first. -/
def lineIndex? (source : Source) (offset : Nat) : Option Nat :=
  match source.lineStarts.idxOf? offset with
  | some line => some line
  | none =>
    match source.lineStarts.countP (· < offset) with
    | 0 => none
    | line + 1 => some line

section Lines

theorem lineStartsAfter_append (offset : Nat) (earlier later : List Char) :
    lineStartsAfter offset (earlier ++ later) =
      lineStartsAfter offset earlier ++ lineStartsAfter (offset + Text.byteLength earlier) later := by
  induction earlier generalizing offset with
  | nil => rfl
  | cons c earlier ih =>
    simp only [List.cons_append, lineStartsAfter, ih, Text.byteLength_cons, Nat.add_assoc]
    split <;> rfl

/-- A line after the first one begins behind a character. -/
theorem lt_of_mem_lineStartsAfter {start : Nat} {text : List Char}
    (hmem : start ∈ lineStartsAfter offset text) : offset < start := by
  induction text generalizing offset with
  | nil => cases hmem
  | cons c text ih =>
    have hsize := c.utf8Size_pos
    simp only [lineStartsAfter] at hmem
    split at hmem
    · rcases List.mem_cons.mp hmem with rfl | hmem
      · omega
      · have hlater := ih hmem
        omega
    · have hlater := ih hmem
      omega

theorem le_of_mem_lineStartsAfter {start : Nat} {text : List Char}
    (hmem : start ∈ lineStartsAfter offset text) : start ≤ offset + Text.byteLength text := by
  induction text generalizing offset with
  | nil => cases hmem
  | cons c text ih =>
    simp only [lineStartsAfter] at hmem
    rw [Text.byteLength_cons]
    split at hmem
    · rcases List.mem_cons.mp hmem with rfl | hmem
      · omega
      · have hlater := ih hmem
        omega
    · have hlater := ih hmem
      omega

theorem length_lineStartsAfter (place : Place) (text : List Char) :
    place.position.line + (lineStartsAfter place.offset text).length =
      (place.past text).position.line := by
  induction text generalizing place with
  | nil => rfl
  | cons c text ih =>
    rw [Place.past_cons, ← ih]
    simp only [lineStartsAfter, Place.after, Position.after]
    split
    · simp only [List.length_cons]
      omega
    · rfl

/-- The offsets at which lines begin, apart at a boundary: those up to the boundary, as many as its
    line has lines before it and one more, and those behind it. -/
theorem lineStarts_split {earlier later : List Char} (htext : source.chars = earlier ++ later) :
    ∃ before after, source.lineStarts = before ++ after ∧
      before.length = (Place.past {} earlier).position.line + 1 ∧
      (∀ start ∈ before, start ≤ Text.byteLength earlier) ∧
      ∀ start ∈ after, Text.byteLength earlier < start := by
  refine ⟨0 :: lineStartsAfter 0 earlier, lineStartsAfter (Text.byteLength earlier) later, ?_, ?_, ?_,
    fun start hmem => lt_of_mem_lineStartsAfter hmem⟩
  · rw [lineStarts, htext, lineStartsAfter_append, Nat.zero_add, List.cons_append]
  · rw [List.length_cons, ← length_lineStartsAfter]
    exact congrArg (· + 1) (Nat.zero_add _).symm
  · refine List.forall_mem_cons.mpr ⟨Nat.zero_le _, fun start hmem => ?_⟩
    simpa using le_of_mem_lineStartsAfter hmem

theorem lineStartsAfter_pairwise (offset : Nat) (text : List Char) :
    (lineStartsAfter offset text).Pairwise (· < ·) := by
  induction text generalizing offset with
  | nil => exact List.Pairwise.nil
  | cons c text ih =>
    simp only [lineStartsAfter]
    split
    · exact List.pairwise_cons.mpr ⟨fun _ hmem => lt_of_mem_lineStartsAfter hmem, ih _⟩
    · exact ih _

theorem lineStarts_pairwise (source : Source) : source.lineStarts.Pairwise (· < ·) :=
  List.pairwise_cons.mpr ⟨fun _ hmem => lt_of_mem_lineStartsAfter hmem, lineStartsAfter_pairwise _ _⟩

/-- The line look-up never runs below the first line, since that one begins at the front. -/
theorem lineIndex?_isSome (source : Source) (offset : Nat) : (source.lineIndex? offset).isSome := by
  unfold lineIndex?
  split
  next => rfl
  next habsent =>
    have hne : offset ≠ 0 := by
      rintro rfl
      exact List.idxOf?_eq_none_iff.mp habsent List.mem_cons_self
    split
    next hzero =>
      have hfirst := List.countP_eq_zero.mp hzero 0 List.mem_cons_self
      simp only [decide_eq_true_eq, Nat.not_lt, Nat.le_zero] at hfirst
      exact absurd hfirst hne
    next => rfl

/-- The line look-up finds the line of a boundary. -/
theorem lineIndex?_eq {earlier later : List Char} (htext : source.chars = earlier ++ later) :
    source.lineIndex? (Text.byteLength earlier) = some (Place.past {} earlier).position.line := by
  obtain ⟨before, after, hstarts, hlength, hbefore, hafter⟩ := lineStarts_split htext
  have hpairwise := List.pairwise_iff_getElem.mp source.lineStarts_pairwise
  unfold lineIndex?
  split
  next line hline =>
    obtain ⟨hlt, hfound, _⟩ := List.idxOf?_eq_some_iff.mp hline
    have hlast : (Place.past {} earlier).position.line < source.lineStarts.length := by
      rw [hstarts, List.length_append]
      omega
    have hle : source.lineStarts[(Place.past {} earlier).position.line] ≤ Text.byteLength earlier := by
      apply hbefore
      simp only [hstarts]
      rw [List.getElem_append_left (by omega)]
      exact List.getElem_mem _
    rcases Nat.lt_trichotomy line (Place.past {} earlier).position.line with hless | rfl | hmore
    · have hstart := hpairwise line _ hlt hlast hless
      omega
    · rfl
    · have hbehind : Text.byteLength earlier < source.lineStarts[line] := by
        apply hafter
        simp only [hstarts]
        rw [List.getElem_append_right (by omega)]
        exact List.getElem_mem _
      omega
  next habsent =>
    -- No line begins at the boundary, so exactly the lines up to its own begin before it.
    have hcount : source.lineStarts.countP (· < Text.byteLength earlier) = before.length := by
      rw [hstarts, List.countP_append, List.countP_eq_length.mpr, List.countP_eq_zero.mpr]
      · rfl
      · intro start hmem
        simpa using (hafter start hmem).le
      · intro start hmem
        have hne : start ≠ Text.byteLength earlier := by
          rintro rfl
          exact List.idxOf?_eq_none_iff.mp habsent (hstarts ▸ List.mem_append_left _ hmem)
        simpa using lt_of_le_of_ne (hbefore start hmem) hne
    rw [hcount, hlength]

/-- A line is found at the offset at which it begins. -/
theorem fromLine_start (line offset : Nat) (text : List Char) :
    (fromLine line offset text).map (·.1) = (offset :: lineStartsAfter offset text)[line]? := by
  induction text generalizing line offset with
  | nil =>
    cases line with
    | zero => rfl
    | succ line => simp [fromLine, lineStartsAfter]
  | cons c text ih =>
    cases line with
    | zero => rfl
    | succ line =>
      rw [fromLine, if_neg (Nat.succ_ne_zero _), ih, List.getElem?_cons_succ]
      simp only [lineStartsAfter]
      split
      · rfl
      · rfl

/-- What is found of a text from a line on is the end of the text. -/
theorem exists_of_fromLine {line offset start : Nat} {text rest : List Char}
    (hfound : fromLine line offset text = some (start, rest)) :
    ∃ before, text = before ++ rest ∧ start = offset + Text.byteLength before := by
  induction text generalizing line offset with
  | nil =>
    rw [fromLine] at hfound
    split at hfound
    · cases hfound
      exact ⟨[], rfl, rfl⟩
    · cases hfound
  | cons c text ih =>
    rw [fromLine] at hfound
    split at hfound
    · cases hfound
      exact ⟨[], rfl, rfl⟩
    · obtain ⟨before, rfl, rfl⟩ := ih hfound
      exact ⟨c :: before, rfl, Nat.add_assoc _ _ _⟩

theorem firstLine_prefix (text : List Char) : firstLine text <+: text := by
  rw [firstLine]
  split
  · exact (List.dropLast_prefix _).trans (List.takeWhile_prefix _)
  · exact List.takeWhile_prefix _

/-- The text of a line stands in the source at the offset at which the line begins. -/
theorem exists_of_line? {start : Nat} {text : List Char}
    (hline : source.line? line = some (start, text)) :
    source.lineStarts[line]? = some start ∧ (source.lineText line).toList = text ∧
      ∃ before later, source.chars = before ++ (text ++ later) ∧
        start = Text.byteLength before := by
  have htext : (source.lineText line).toList = text := by
    rw [lineText, hline, String.toList_ofList]
  obtain ⟨⟨_, rest⟩, hfound, hpair⟩ := Option.map_eq_some_iff.mp hline
  obtain ⟨rfl, rfl⟩ := Prod.mk.inj hpair
  obtain ⟨before, hchars, hstart⟩ := exists_of_fromLine hfound
  obtain ⟨later, hlater⟩ := firstLine_prefix rest
  refine ⟨?_, htext, before, later, by rw [hlater, hchars], by rw [hstart, Nat.zero_add]⟩
  rw [lineStarts, ← fromLine_start, hfound, Option.map_some]

theorem line?_eq_none_iff : source.line? line = none ↔ source.lineStarts.length ≤ line := by
  rw [line?, Option.map_eq_none_iff, ← List.getElem?_eq_none_iff, lineStarts, ← fromLine_start,
    Option.map_eq_none_iff]

end Lines

section Positions

/-- The position of a boundary is that of the place behind the text before it. -/
theorem positionAt_eq {earlier later : List Char} (htext : source.chars = earlier ++ later) :
    source.positionAt (Text.byteLength earlier) = (Place.past {} earlier).position := by
  have hfrom : ∀ (place : Place), positionFrom place.position (Text.byteLength earlier)
      (earlier ++ later) = (place.past earlier).position := by
    clear htext
    induction earlier with
    | nil =>
      intro place
      cases later <;> rfl
    | cons c earlier ih =>
      intro place
      obtain ⟨count, hcount⟩ : ∃ count, c.utf8Size + Text.byteLength earlier = count + 1 :=
        Nat.exists_eq_add_of_le' (Nat.le_add_right_of_le c.utf8Size_pos)
      rw [Text.byteLength_cons, List.cons_append, hcount, positionFrom, if_pos (by omega), ← hcount,
        Nat.add_sub_cancel_left, Place.past_cons, ← ih (place.after c)]
      rfl
  rw [positionAt, htext]
  exact hfrom {}

/-- Positions ascend with the boundaries. -/
theorem positionAt_lt {first second : Nat} (hfirst : source.IsBoundary first)
    (hsecond : source.IsBoundary second) (hlt : first < second) :
    source.positionAt first < source.positionAt second := by
  obtain ⟨earlier, later, htext, rfl⟩ := hfirst
  obtain ⟨earlier', later', htext', rfl⟩ := hsecond
  rw [positionAt_eq htext, positionAt_eq htext']
  rcases List.append_eq_append_iff.mp (htext.symm.trans htext') with ⟨middle, rfl, _⟩ | ⟨middle, rfl, _⟩
  · rw [Place.past_append]
    refine Place.position_lt_past _ ?_
    rintro rfl
    simp at hlt
  · rw [Text.byteLength_append] at hlt
    omega

/-- So many units of a text are some characters of it. -/
theorem exists_of_bytesBefore (units : Nat) (text : List Char) :
    ∃ first rest, text = first ++ rest ∧ bytesBefore units text = Text.byteLength first := by
  fun_induction bytesBefore units text with
  | case1 => exact ⟨[], _, rfl, rfl⟩
  | case2 => exact ⟨[], [], rfl, rfl⟩
  | case3 units c rest ih =>
    obtain ⟨first, later, rfl, hbytes⟩ := ih
    exact ⟨c :: first, later, rfl, congrArg (c.utf8Size + ·) hbytes⟩

theorem bytesBefore_mono {units more : Nat} (hle : units ≤ more) (text : List Char) :
    bytesBefore units text ≤ bytesBefore more text := by
  induction text generalizing units more with
  | nil => cases units <;> simp [bytesBefore]
  | cons c rest ih =>
    cases units with
    | zero =>
      rw [bytesBefore]
      exact Nat.zero_le _
    | succ units =>
      obtain ⟨count, rfl⟩ := Nat.exists_eq_add_of_le hle
      rw [bytesBefore, Nat.add_right_comm, bytesBefore]
      exact Nat.add_le_add_left (ih (by omega)) _

/-- More units than a text has are the whole text. -/
theorem bytesBefore_of_le {units : Nat} {text : List Char} (hle : Text.unitCount text ≤ units) :
    bytesBefore units text = Text.byteLength text := by
  obtain ⟨count, rfl⟩ := Nat.exists_eq_add_of_le hle
  have hwhole := bytesBefore_append count text []
  rw [List.append_nil] at hwhole
  rw [hwhole]
  cases count <;> rfl

/-- The offset of the position of a boundary is the boundary itself, unless a carriage return that
    ends a line stands before it. -/
theorem offsetAt_positionAt (hboundary : source.IsBoundary offset)
    (hreturn : ¬ source.FollowsReturn offset) :
    source.offsetAt (source.positionAt offset) = some offset := by
  obtain ⟨earlier, later, htext, rfl⟩ := hboundary
  obtain ⟨start, current, hfound, hcurrent, hoffset, hcharacter⟩ := exists_line earlier later
  rw [Place.offset_past, Nat.zero_add] at hoffset
  have hmore : current.getLast? = some '\r' → ∃ c ∈ later.head?, c ≠ '\n' := by
    intro hlast
    by_contra hends
    push Not at hends
    obtain ⟨others, rfl⟩ := List.getLast?_eq_some_iff.mp hlast
    rw [← htext] at hfound
    obtain ⟨before, hchars, rfl⟩ := exists_of_fromLine hfound
    refine hreturn ⟨before ++ others, later, by rw [hchars]; simp, ?_, hends⟩
    rw [hoffset]
    simp
  obtain ⟨tail, hline⟩ := firstLine_append _ hcurrent hmore
  have hfoundLine :
      source.line? (Place.past {} earlier).position.line = some (start, current ++ tail) := by
    rw [line?, htext, hfound, Option.map_some]
    simp only [hline]
  have hbytes : bytesBefore (Text.unitCount current + 0) (current ++ tail) =
      Text.byteLength current + 0 := by
    rw [bytesBefore_append, bytesBefore]
  rw [positionAt_eq htext, offsetAt, hfoundLine, Option.map_some, hoffset]
  simp only [hcharacter]
  exact congrArg (fun count => some (start + count)) hbytes

/-- A boundary behind a carriage return that ends a line has the position of no offset: what is
    found for it is the offset before the carriage return. -/
theorem offsetAt_positionAt_of_followsReturn (hreturn : source.FollowsReturn offset) :
    source.offsetAt (source.positionAt offset) = some (offset - 1) := by
  obtain ⟨earlier, later, htext, rfl, hends⟩ := hreturn
  obtain ⟨start, current, hfound, hcurrent, hoffset, hcharacter⟩ :=
    exists_line earlier ('\r' :: later)
  rw [Place.offset_past, Nat.zero_add] at hoffset
  have hline : firstLine (current ++ '\r' :: later) = current := by
    have htaken : (current ++ '\r' :: later).takeWhile (fun c => decide (c ≠ '\n')) =
        current ++ ['\r'] := by
      have hplain : ∀ c ∈ current, decide (c ≠ '\n') = true := fun c hc =>
        decide_eq_true fun hsame : c = '\n' => hcurrent (hsame ▸ hc)
      rw [List.takeWhile_append_of_pos hplain]
      cases later with
      | nil => rfl
      | cons c later =>
        obtain rfl := hends c rfl
        rfl
    simp only [firstLine, htaken]
    simp
  -- The carriage return counts for the column, but not for the text of the line.
  have hposition : (Place.past {} (earlier ++ ['\r'])).position =
      { line := (Place.past {} earlier).position.line
        character := (Place.past {} earlier).position.character + 1 } := by
    rw [Place.past_append]
    rfl
  have hchars : source.chars = (earlier ++ ['\r']) ++ later := by rw [htext]; simp
  have hunits : Text.unitCount current ≤ (Place.past {} earlier).position.character + 1 := by omega
  have hfoundLine : source.line? (Place.past {} earlier).position.line = some (start, current) := by
    rw [line?, htext, hfound, Option.map_some]
    simp only [hline]
  rw [positionAt_eq hchars, hposition, offsetAt, hfoundLine, Option.map_some]
  simp only [bytesBefore_of_le hunits, ← hoffset]
  simp [Char.utf8Size]

end Positions

/-- How the offsets of a text and its positions answer to each other. -/
structure OffsetsCorrespond (source : Source) : Prop where
  /-- The line of an offset is always found, also inside a character. -/
  line_found : ∀ offset, (source.lineIndex? offset).isSome
  /-- A boundary stands on the line that is found, with so many UTF-16 units between it and the
      beginning of the line. -/
  position : ∀ offset, source.IsBoundary offset → ∃ start text,
    source.lineIndex? offset = some (source.positionAt offset).line ∧
      source.lineStarts[(source.positionAt offset).line]? = some start ∧
      Text.slice? start offset source.chars = some text ∧
      (source.positionAt offset).character = Text.unitCount text
  /-- Positions ascend strictly. -/
  increasing : ∀ first second, source.IsBoundary first → source.IsBoundary second →
    first < second → source.positionAt first < source.positionAt second
  /-- A boundary is found again at its position, but not behind a carriage return that ends a
      line. -/
  back : ∀ offset, source.IsBoundary offset →
    (source.offsetAt (source.positionAt offset) = some offset ↔ ¬ source.FollowsReturn offset)
  /-- Only positions behind the last line have no offset. -/
  none_iff : ∀ position, source.offsetAt position = none ↔ source.lineStarts.length ≤ position.line
  /-- Any other position has a boundary within the text of its line for its offset. -/
  inside : ∀ position offset, source.offsetAt position = some offset →
    source.IsBoundary offset ∧ ∃ start text, source.lineStarts[position.line]? = some start ∧
      text = (source.lineText position.line).toList ∧
      Text.slice? start (start + Text.byteLength text) source.chars = some text ∧
      start ≤ offset ∧ offset ≤ start + Text.byteLength text
  /-- On one line the offsets follow the columns. -/
  monotone : ∀ first second firstOffset secondOffset, first.line = second.line →
    first.character ≤ second.character → source.offsetAt first = some firstOffset →
    source.offsetAt second = some secondOffset → firstOffset ≤ secondOffset
  /-- The position of such a boundary is the position of its offset. -/
  forth : ∀ offset, source.IsBoundary offset → ¬ source.FollowsReturn offset →
    ∀ position, position = source.positionAt offset →
      ∃ found, source.offsetAt position = some found ∧ source.positionAt found = position

/-- Offsets and positions are inverse to each other, up to the carriage returns at the ends of
    lines. -/
theorem offsets_correspond (source : Source) : OffsetsCorrespond source where
  line_found := source.lineIndex?_isSome
  position offset hboundary := by
    obtain ⟨earlier, later, htext, rfl⟩ := hboundary
    obtain ⟨start, current, hfound, _, hoffset, hcharacter⟩ := exists_line earlier later
    rw [Place.offset_past, Nat.zero_add] at hoffset
    rw [positionAt_eq htext]
    rw [← htext] at hfound
    obtain ⟨before, hchars, hstart⟩ := exists_of_fromLine hfound
    rw [Nat.zero_add] at hstart
    refine ⟨start, current, lineIndex?_eq htext, ?_, ?_, hcharacter⟩
    · rw [lineStarts, ← fromLine_start, hfound, Option.map_some]
    · rw [hoffset, hchars, hstart, Text.slice?_append]
  increasing _ _ := positionAt_lt
  back offset hboundary := by
    refine ⟨fun hfound hreturn => ?_, offsetAt_positionAt hboundary⟩
    rw [offsetAt_positionAt_of_followsReturn hreturn] at hfound
    obtain ⟨earlier, _, _, rfl, _⟩ := hreturn
    simp [Char.utf8Size] at hfound
  none_iff position := by rw [offsetAt, Option.map_eq_none_iff, line?_eq_none_iff]
  inside position offset hfound := by
    obtain ⟨⟨start, text⟩, hline, rfl⟩ := Option.map_eq_some_iff.mp hfound
    obtain ⟨hstart, htext, before, later, hchars, rfl⟩ := exists_of_line? hline
    obtain ⟨first, rest, hsplit, hbytes⟩ := exists_of_bytesBefore position.character text
    refine ⟨⟨before ++ first, rest ++ later, ?_, ?_⟩, _, text, hstart, htext.symm, ?_,
      Nat.le_add_right _ _, Nat.add_le_add_left ?_ _⟩
    · rw [hchars, hsplit]
      simp
    · simp [hbytes]
    · rw [hchars, Text.slice?_append]
    · rw [hbytes, hsplit, Text.byteLength_append]
      exact Nat.le_add_right _ _
  monotone first second firstOffset secondOffset hsame hle hfirst hsecond := by
    obtain ⟨⟨start, text⟩, hline, rfl⟩ := Option.map_eq_some_iff.mp hfirst
    obtain ⟨other, hother, rfl⟩ := Option.map_eq_some_iff.mp hsecond
    rw [← hsame, hline, Option.some.injEq] at hother
    subst hother
    exact Nat.add_le_add_left (bytesBefore_mono hle text) _
  forth offset hboundary hreturn position hposition := by
    subst hposition
    exact ⟨offset, offsetAt_positionAt hboundary hreturn, rfl⟩

end Source

end TemplateAnalysis
