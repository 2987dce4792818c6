import TemplateAnalysis.Diagnostic
import TemplateAnalysis.Proofs.Source.Lines

namespace TemplateAnalysis

/-- The name of an identifier stands on a line of a source between two parts of that line. -/
structure Identifier.StandsOn (identifier : Identifier) (source : Source) (line : Nat)
    (front rest : List Char) : Prop where
  /-- What is cut out of the source is a whole line, with the name in it. -/
  cut : ∃ earlier later, source.chars = earlier ++ (front ++ (identifier.name.toList ++ rest)) ++ later ∧
    earlier.count '\n' = line ∧ Source.BeginsLine earlier ∧ ∀ c ∈ later.head?, c = '\n'
  single : '\n' ∉ front ++ (identifier.name.toList ++ rest)
  /-- The range of the identifier is that of the name. -/
  range : identifier.range =
    { start := ⟨line, Text.unitCount front⟩
      stop := ⟨line, Text.unitCount front + Text.unitCount identifier.name.toList⟩ }

/-- A part of a source that is not broken stands on a line. -/
theorem Identifier.exists_standsOn {source : Source} {identifier : Identifier} {earlier later : List Char}
    (htext : source.chars = earlier ++ (identifier.name.toList ++ later))
    (hname : '\n' ∉ identifier.name.toList)
    (hrange : identifier.range = (Place.past {} earlier).rangeOf identifier.name.toList) :
    ∃ line front rest, identifier.StandsOn source line front rest := by
  obtain ⟨before, front, rfl, hbegins, hfront⟩ := Source.exists_beginsLine earlier
  let rest := later.takeWhile (· ≠ '\n')
  have hrest : '\n' ∉ rest := fun hmem => by
    simpa using List.all_eq_true.mp List.all_takeWhile '\n' hmem
  have hends : ∀ c ∈ (later.dropWhile (· ≠ '\n')).head?, c = '\n' := by
    intro c hc
    have hstop := List.head?_dropWhile_not (fun c => decide (c ≠ '\n')) later
    rw [Option.mem_def.mp hc] at hstop
    simpa using hstop
  refine ⟨before.count '\n', front, rest, ⟨before, later.dropWhile (· ≠ '\n'), ?_, rfl, hbegins, hends⟩, ?_, ?_⟩
  · rw [htext]
    simp [rest, List.takeWhile_append_dropWhile]
  · simp [hfront, hname, hrest]
  · rw [hrange, Place.rangeOf, Place.past_append, Place.position_past_of_line _ hname,
      Place.position_past_of_line _ hfront, hbegins.position_eq]
    simp

/-- A name without blanks is found at its range, with the whole line around it. -/
theorem Identifier.StandsOn.exists_location {source : Source} {identifier : Identifier} {line : Nat}
    {front rest : List Char} (hstands : identifier.StandsOn source line front rest)
    (hname : identifier.name ≠ "") (hplain : ∀ c ∈ identifier.name.toList, Text.isBlank c = false) :
    ∃ start tail, source.offsetAt identifier.range.start = some start ∧
      source.offsetAt identifier.range.stop = some (start + Text.byteLength identifier.name.toList) ∧
      source.location start = (line + 1, Text.byteLength front + 1,
        String.ofList (front ++ (identifier.name.toList ++ tail))) ∧
      Text.trimEnd (front ++ (identifier.name.toList ++ tail)) =
        front ++ (identifier.name.toList ++ Text.trimEnd rest) := by
  obtain ⟨earlier, later, hcut, rfl, hbegins, hends⟩ := hstands.cut
  have hsingle := hstands.single
  have hfront : '\n' ∉ front := fun hmem => hsingle (List.mem_append_left _ hmem)
  have hbefore : '\n' ∉ front ++ identifier.name.toList := by
    simp only [List.mem_append, not_or] at hsingle ⊢
    exact ⟨hsingle.1, hsingle.2.1⟩
  have hne : identifier.name.toList ≠ [] := fun hnil => hname (String.toList_eq_nil_iff.mp hnil)
  have hlast : ∀ c ∈ (front ++ identifier.name.toList).getLast?, Text.isBlank c = false := by
    rw [List.getLast?_append, List.getLast?_eq_some_getLast hne, Option.some_or]
    exact fun c hc => hplain c (Option.some.inj hc ▸ List.getLast_mem hne)
  have htext : source.chars = earlier ++ (front ++ (identifier.name.toList ++ (rest ++ later))) := by
    rw [hcut]
    simp
  -- The name does not end in a carriage return, so the ending of the line is behind it.
  obtain ⟨tail, htail⟩ := Source.firstLine_append (rest ++ later) hbefore fun hreturn => by
    have hblank := hlast _ hreturn
    cases hblank
  rw [List.append_assoc, List.append_assoc] at htail
  have hshown := Source.trimEnd_firstLine hsingle hends
  rw [List.append_assoc, List.append_assoc, htail, ← List.append_assoc front _ rest,
    Text.trimEnd_append rest hlast, List.append_assoc] at hshown
  have hlocation := Source.location_eq htext hbegins hfront
  rw [htail] at hlocation
  refine ⟨Text.byteLength (earlier ++ front), tail, ?_, ?_, hlocation, hshown⟩
  · rw [hstands.range]
    exact Source.offsetAt_of_firstLine htext hbegins htail
  · rw [hstands.range, ← Text.unitCount_append, ← Text.byteLength_append, List.append_assoc]
    exact Source.offsetAt_of_firstLine htext hbegins (htail.trans (List.append_assoc _ _ _).symm)

namespace Diagnostic

variable {source : Source} {identifier : Identifier} {line : Nat} {front rest name : List Char}

/-- What is printed before the name on the line of the source. Lines count from one here. -/
def beforeName (line : Nat) (front : List Char) : String :=
  gutter line ++ "| " ++ String.ofList front

/-- The last line, with the carets. -/
def caretLine (front name : List Char) : String :=
  "   | " ++ repeated (Text.byteLength front) ' ' ++ repeated (Text.byteLength name) '^'

/-- The whole diagnostic of a name on a line. -/
def printed (file message : String) (line : Nat) (front : List Char) (name : String) (rest : List Char) :
    String :=
  "Error: " ++ message ++ "\n  --> " ++ file ++ ":" ++ toString line ++ ":" ++
    toString (Text.byteLength front + 1) ++ "\n   |\n" ++ beforeName line front ++ name ++
    String.ofList (Text.trimEnd rest) ++ "\n" ++ caretLine front name.toList

/-- The carets stand below the name, one for each of its characters. -/
def PointsAt (line : Nat) (front name : List Char) : Prop :=
  ((caretLine front name).toList.takeWhile (· ≠ '^')).length = (beforeName line front).toList.length ∧
    (caretLine front name).toList.count '^' = name.length

instance (line : Nat) (front name : List Char) : Decidable (PointsAt line front name) :=
  inferInstanceAs (Decidable (_ ∧ _))

theorem toList_repeated (count : Nat) (c : Char) : (repeated count c).toList = List.replicate count c :=
  String.toList_ofList

/-- Line numbers of up to three digits take three places, larger ones all of their digits. -/
theorem length_gutter (line : Nat) : (gutter line).length = max 3 (toString line).length := by
  rw [gutter, String.length_append, ← String.length_toList, toList_repeated, List.length_replicate]
  omega

theorem takeWhile_caretLine (front name : List Char) :
    ((caretLine front name).toList.takeWhile (· ≠ '^')).length = Text.byteLength front + 5 := by
  have hblanks : ∀ c ∈ "   | ".toList ++ List.replicate (Text.byteLength front) ' ',
      decide (c ≠ '^') = true := by
    refine List.forall_mem_append.mpr ⟨by simp, fun c hc => ?_⟩
    rw [List.eq_of_mem_replicate hc]
    rfl
  have hcarets : (List.replicate (Text.byteLength name) '^').takeWhile (· ≠ '^') = [] := by
    cases Text.byteLength name <;> simp [List.replicate_succ]
  rw [caretLine, String.toList_append, String.toList_append, toList_repeated, toList_repeated,
    List.takeWhile_append_of_pos hblanks, hcarets, List.append_nil, List.length_append,
    List.length_replicate, Nat.add_comm]
  rfl

theorem count_caretLine (front name : List Char) :
    (caretLine front name).toList.count '^' = Text.byteLength name := by
  rw [caretLine, String.toList_append, String.toList_append, toList_repeated, toList_repeated,
    List.count_append, List.count_append, List.count_replicate, List.count_replicate_self]
  simp

/-- The carets stand below the name if what stands before the name has as many bytes as characters, where the
    digits of the line number beyond the third one count as characters, and they are as many as the characters
    of the name if the name has as many bytes as characters. -/
theorem pointsAt_iff : PointsAt line front name ↔
    Text.byteLength front + 3 = front.length + max 3 (toString line).length ∧
      Text.byteLength name = name.length := by
  have hbefore : (beforeName line front).toList.length = max 3 (toString line).length + 2 + front.length := by
    have hmark : "| ".length = 2 := by decide
    rw [String.length_toList, beforeName, String.length_append, String.length_append, length_gutter,
      hmark, String.length_ofList]
  rw [PointsAt, takeWhile_caretLine, count_caretLine, hbefore]
  refine and_congr_left fun _ => ?_
  omega

/-- In the first 999 lines, ASCII names behind ASCII text are pointed at. -/
theorem pointsAt_of_ascii (hline : line < 1000) (hascii : ∀ c ∈ front ++ name, c.utf8Size = 1) :
    PointsAt line front name := by
  have hdigits : (toString line).length ≤ 3 := by
    rw [Nat.toString_eq_repr, Nat.repr, String.length_ofList]
    exact (Nat.length_toDigits_le_iff (by decide) (by decide)).mpr hline
  have hbytes : ∀ text : List Char, (∀ c ∈ text, c.utf8Size = 1) → Text.byteLength text = text.length := by
    intro text hsizes
    induction text with
    | nil => rfl
    | cons c rest ih =>
      obtain ⟨hc, hrest⟩ := List.forall_mem_cons.mp hsizes
      rw [Text.byteLength_cons, hc, ih hrest, List.length_cons, Nat.add_comm]
  obtain ⟨hfront, hname⟩ := List.forall_mem_append.mp hascii
  rw [pointsAt_iff, hbytes front hfront, Nat.max_eq_left hdigits]
  exact ⟨rfl, hbytes name hname⟩

/-- The diagnostic of a name tells its line and the byte at which it begins there, and then shows the line, with
    a caret for each byte of the name behind a blank for each byte before the name. -/
theorem ofUndefined_eq (hstands : identifier.StandsOn source line front rest)
    (hname : identifier.name ≠ "") (hplain : ∀ c ∈ identifier.name.toList, Text.isBlank c = false) :
    ofUndefined source identifier = printed source.name (identifier.error.getD "undefined variable")
      (line + 1) front identifier.name rest := by
  obtain ⟨start, tail, hstart, hstop, hlocation, hshown⟩ := hstands.exists_location hname hplain
  have hpos : 0 < Text.byteLength identifier.name.toList :=
    Text.byteLength_pos fun hnil => hname (String.toList_eq_nil_iff.mp hnil)
  have hcarets : (if start < start + Text.byteLength identifier.name.toList then
      min (start + Text.byteLength identifier.name.toList - start)
        (max (Text.byteLength (front ++ (identifier.name.toList ++ tail)) -
          (Text.byteLength front + 1 - 1)) 1) else 1) = Text.byteLength identifier.name.toList := by
    rw [if_pos (by omega), Text.byteLength_append, Text.byteLength_append]
    omega
  rw [ofUndefined, atRange, hstart, hstop]
  simp only [atOffsets, hlocation, String.toList_ofList, hshown, hcarets]
  have hmargin : "\n   | " = "\n" ++ "   | " := by decide
  rw [String.ofList_append, String.ofList_append, String.ofList_toList, hmargin, Nat.add_sub_cancel]
  unfold printed beforeName caretLine
  simp only [String.append_assoc, -String.reduceAppend]

end Diagnostic

end TemplateAnalysis
