import Mathlib.Data.List.Induction
import TemplateAnalysis.Proofs.Position
import TemplateAnalysis.Source

namespace TemplateAnalysis

/-- The number of UTF-16 units of a text. -/
def Text.unitCount : List Char → Nat
  | [] => 0
  | c :: rest => units16 c + unitCount rest

@[simp] theorem Text.unitCount_cons (c : Char) (text : List Char) :
    unitCount (c :: text) = units16 c + unitCount text := rfl

theorem Text.unitCount_append (first second : List Char) :
    unitCount (first ++ second) = unitCount first + unitCount second := by
  induction first with
  | nil => exact (Nat.zero_add _).symm
  | cons c rest ih => rw [List.cons_append, unitCount_cons, unitCount_cons, ih, Nat.add_assoc]

theorem Text.units16_pos (c : Char) : 0 < units16 c := by
  unfold units16
  split <;> omega

/-- Text on one line moves a position on by its units. -/
theorem Place.position_past_of_line {text : List Char} (place : Place) (hline : '\n' ∉ text) :
    (place.past text).position =
      { line := place.position.line
        character := place.position.character + Text.unitCount text } := by
  induction text generalizing place with
  | nil => rfl
  | cons c rest ih =>
    obtain ⟨hc, hrest⟩ := not_or.mp (List.mem_cons.not.mp hline)
    rw [past_cons, ih _ hrest, after, Position.after, if_neg (Ne.symm hc), Text.unitCount_cons,
      Nat.add_assoc]

namespace Source

/-- The line after one that holds no line feed itself begins behind its line feed. -/
theorem fromLine_succ {count start offset : Nat} {text line rest : List Char}
    (hfound : fromLine count offset text = some (start, line ++ '\n' :: rest))
    (hline : '\n' ∉ line) :
    fromLine (count + 1) offset text = some (start + Text.byteLength line + 1, rest) := by
  -- Where the line begins, one line feed is left to be passed. The induction is on what stands
  -- before.
  have hnext : ∀ (offset : Nat) (line : List Char), '\n' ∉ line →
      fromLine 1 offset (line ++ '\n' :: rest) =
        some (offset + Text.byteLength line + 1, rest) := by
    intro offset line hline
    induction line generalizing offset with
    | nil =>
      rw [List.nil_append, fromLine, if_neg Nat.one_ne_zero, if_pos rfl]
      cases rest <;> rfl
    | cons c line ih =>
      obtain ⟨hc, hline⟩ := not_or.mp (List.mem_cons.not.mp hline)
      rw [List.cons_append, fromLine, if_neg Nat.one_ne_zero, if_neg (Ne.symm hc), ih _ hline,
        Text.byteLength_cons, Nat.add_assoc offset]
  induction text generalizing count offset with
  | nil =>
    rw [fromLine] at hfound
    split at hfound
    · cases List.append_ne_nil_of_right_ne_nil line (List.cons_ne_nil _ _)
        (Prod.mk.inj (Option.some.inj hfound)).2.symm
    · cases hfound
  | cons c text ih =>
    cases count with
    | zero =>
      rw [fromLine, if_pos rfl, Option.some.injEq, Prod.mk.injEq] at hfound
      obtain ⟨rfl, htext⟩ := hfound
      rw [htext]
      exact hnext offset line hline
    | succ count =>
      rw [fromLine, if_neg (Nat.succ_ne_zero _)] at hfound
      rw [fromLine, if_neg (Nat.succ_ne_zero _)]
      split at hfound
      next hc =>
        rw [if_pos hc]
        exact ih hfound
      next hc =>
        rw [if_neg hc]
        exact ih hfound

/-- The line of a place is found where it begins, with what stands on it before the place. -/
theorem exists_line (earlier later : List Char) : ∃ start current,
    fromLine (Place.past {} earlier).position.line 0 (earlier ++ later) =
      some (start, current ++ later) ∧ '\n' ∉ current ∧
    (Place.past {} earlier).offset = start + Text.byteLength current ∧
    (Place.past {} earlier).position.character = Text.unitCount current := by
  induction earlier using List.reverseRecOn generalizing later with
  | nil =>
    refine ⟨0, [], ?_, List.not_mem_nil, rfl, rfl⟩
    cases later <;> rfl
  | append_singleton earlier c ih =>
    obtain ⟨start, current, hfound, hcurrent, hoffset, hcharacter⟩ := ih (c :: later)
    rw [List.append_assoc, List.singleton_append, Place.past_append, Place.past_cons,
      Place.past_nil, Place.after, Position.after]
    by_cases hc : c = '\n'
    · subst hc
      rw [if_pos rfl]
      exact ⟨_, [], fromLine_succ hfound hcurrent, List.not_mem_nil, by rw [hoffset]; rfl, rfl⟩
    · rw [if_neg hc]
      refine ⟨start, current ++ [c], by simpa using hfound, ?_, ?_, ?_⟩
      · simpa [hcurrent] using Ne.symm hc
      · rw [hoffset, Text.byteLength_append, ← Nat.add_assoc]
        rfl
      · rw [hcharacter, Text.unitCount_append]
        rfl

theorem bytesBefore_append (units : Nat) (first second : List Char) :
    bytesBefore (Text.unitCount first + units) (first ++ second) =
      Text.byteLength first + bytesBefore units second := by
  induction first with
  | nil => simp [Text.unitCount]
  | cons c rest ih =>
    obtain ⟨count, hcount⟩ : ∃ count, Text.units16 c + (Text.unitCount rest + units) = count + 1 :=
      Nat.exists_eq_add_of_le' (Nat.le_add_right_of_le (Text.units16_pos c))
    rw [Text.unitCount_cons, Nat.add_assoc, hcount, List.cons_append, bytesBefore, ← hcount,
      Nat.add_sub_cancel_left, ih, Text.byteLength_cons, Nat.add_assoc]

/-- So many units of a word are some bytes of it, and no more than the word has. -/
theorem bytesBefore_within {units : Nat} {word : List Char} (rest : List Char) (hpos : 0 < units)
    (hle : units ≤ Text.unitCount word) : 0 < bytesBefore units (word ++ rest) ∧
      bytesBefore units (word ++ rest) ≤ Text.byteLength word := by
  induction word generalizing units with
  | nil => exact absurd hle (Nat.not_le.mpr hpos)
  | cons c word ih =>
    obtain ⟨count, rfl⟩ := Nat.exists_eq_add_of_lt hpos
    rw [Nat.zero_add] at hle ⊢
    rw [List.cons_append, bytesBefore, Text.byteLength_cons]
    refine ⟨Nat.add_pos_left c.utf8Size_pos _, Nat.add_le_add_left ?_ _⟩
    rw [Text.unitCount_cons] at hle
    rcases Nat.eq_zero_or_pos (count + 1 - Text.units16 c) with hzero | hmore
    · rw [hzero, bytesBefore]
      exact Nat.zero_le _
    · exact (ih hmore (Nat.sub_le_iff_le_add'.mpr hle)).2

/-- The end of a line is cut off behind a text that stands on it. If the text ends in a carriage
    return, then more of the line must follow. -/
theorem firstLine_append {text : List Char} (rest : List Char) (hline : '\n' ∉ text)
    (hlast : text.getLast? = some '\r' → ∃ c ∈ rest.head?, c ≠ '\n') :
    ∃ tail, firstLine (text ++ rest) = text ++ tail := by
  have htaken : (text ++ rest).takeWhile (fun c => decide (c ≠ '\n')) =
      text ++ rest.takeWhile (fun c => decide (c ≠ '\n')) :=
    List.takeWhile_append_of_pos fun c hc =>
      decide_eq_true fun hsame : c = '\n' => hline (hsame ▸ hc)
  simp only [firstLine, htaken]
  split
  next hreturn =>
    refine ⟨(rest.takeWhile (fun c => decide (c ≠ '\n'))).dropLast, ?_⟩
    rw [List.dropLast_append_of_ne_nil]
    intro hempty
    rw [hempty, List.append_nil] at hreturn
    obtain ⟨c, hc, hne⟩ := hlast hreturn
    obtain ⟨later, rfl⟩ := List.head?_eq_some_iff.mp hc
    simp [hne] at hempty
  next => exact ⟨_, rfl⟩

/-- A position behind the beginning of a word and not behind its end is an offset of the same kind. -/
theorem offsetAt_within {source : Source} {earlier word later : List Char} {position : Position}
    (htext : source.chars = earlier ++ word ++ later) (hline : '\n' ∉ word)
    (hreturn : '\r' ∉ word) (hstart : (Place.past {} earlier).position < position)
    (hstop : position ≤ ((Place.past {} earlier).past word).position) :
    ∃ offset, source.offsetAt position = some offset ∧ (Place.past {} earlier).offset < offset ∧
      offset ≤ ((Place.past {} earlier).past word).offset := by
  obtain ⟨start, current, hfound, hcurrent, hoffset, hcharacter⟩ :=
    exists_line earlier (word ++ later)
  rw [Place.position_past_of_line _ hline] at hstop
  rw [Position.lt_iff] at hstart
  rw [Position.le_iff] at hstop
  simp only at hstop
  have hsame : position.line = (Place.past {} earlier).position.line := by omega
  obtain ⟨units, hunits⟩ : ∃ units, position.character = Text.unitCount current + units :=
    Nat.exists_eq_add_of_le (by omega)
  have hpos : 0 < units := by omega
  have hle : units ≤ Text.unitCount word := by omega
  have hne : word ≠ [] := by
    rintro rfl
    exact absurd hle (Nat.not_le.mpr hpos)
  have hlast : (current ++ word).getLast? ≠ some '\r' := by
    rw [List.getLast?_append, List.getLast?_eq_some_getLast hne, Option.some_or, Ne, Option.some.injEq]
    exact fun hsame => hreturn (hsame ▸ List.getLast_mem hne)
  obtain ⟨tail, htail⟩ := firstLine_append later (by simp [hcurrent, hline])
    fun hreturn => absurd hreturn hlast
  have hfoundLine : source.line? position.line = some (start, current ++ word ++ tail) := by
    rw [line?, htext, List.append_assoc, hsame, hfound, Option.map_some, ← List.append_assoc, ← htail]
  obtain ⟨hmore, hbounded⟩ := bytesBefore_within tail hpos hle
  refine ⟨start + bytesBefore position.character (current ++ word ++ tail), ?_, ?_, ?_⟩
  · rw [offsetAt, hfoundLine, Option.map_some]
  · rw [hunits, List.append_assoc, bytesBefore_append, hoffset]
    omega
  · rw [hunits, List.append_assoc, bytesBefore_append, Place.offset_past, hoffset]
    omega

end Source

end TemplateAnalysis
