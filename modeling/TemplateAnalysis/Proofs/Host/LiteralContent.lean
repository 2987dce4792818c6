import TemplateAnalysis.Proofs.Host.Literals

namespace TemplateAnalysis.Host

namespace Quoted

variable {text letters delimiter inner : List Char} {quote : Char}

theorem modifiers_append (hletters : ∀ c ∈ letters, isQuote c = false) (hquote : isQuote quote = true)
    (rest : List Char) : modifiers (letters ++ quote :: rest) = letters := by
  have hany : (letters ++ quote :: rest).any isQuote = true :=
    List.any_eq_true.mpr ⟨quote, by simp, hquote⟩
  have hplain : ∀ c ∈ letters, (!isQuote c) = true := fun c hmem => by rw [hletters c hmem, Bool.not_false]
  rw [modifiers, if_pos hany, List.takeWhile_append_of_pos hplain,
    List.takeWhile_cons_of_neg (by rw [hquote]; exact Bool.false_ne_true), List.append_nil]

/-- Three quote marks in a row are taken for one mark, whatever the literal. -/
theorem mark_append (hletters : ∀ c ∈ letters, isQuote c = false) (hquote : isQuote quote = true)
    (rest : List Char) : mark (letters ++ quote :: rest) =
      if [quote, quote] <+: rest then [quote, quote, quote] else [quote] := by
  have hbody : (letters ++ quote :: rest).drop (modifiers (letters ++ quote :: rest)).length =
      quote :: rest := by
    rw [modifiers_append hletters hquote rest, List.drop_left]
  have htripled : (['"', '"', '"'].isPrefixOf (quote :: rest) ||
      ['\'', '\'', '\''].isPrefixOf (quote :: rest)) = true ↔ [quote, quote] <+: rest := by
    rw [isQuote, Bool.or_eq_true, beq_iff_eq, beq_iff_eq] at hquote
    rw [Bool.or_eq_true, List.isPrefixOf_iff_prefix, List.isPrefixOf_iff_prefix]
    rcases hquote with rfl | rfl <;> simp [List.cons_prefix_cons]
  simp only [mark, hbody, htripled]
  split_ifs with hprefix
  · obtain ⟨others, rfl⟩ := hprefix
    rfl
  · rfl

/-- A literal whose opening mark is read right is taken apart as it was put together. -/
theorem parts_of_mark (hletters : modifiers text = letters) (hmark : mark text = delimiter)
    (htext : text = letters ++ delimiter ++ (inner ++ (delimiter ++ letters.filter (· == '#')))) :
    opening text = letters ++ delimiter ∧ content text = inner := by
  have hopening : opening text = letters ++ delimiter := by rw [opening, hletters, hmark]
  have hbody : text.drop (opening text).length =
      inner ++ (delimiter ++ letters.filter (· == '#')) := by
    rw [hopening, htext, List.drop_left]
  have hclosing : closing text = delimiter ++ letters.filter (· == '#') := by
    simp only [closing, hbody, hletters, hmark]
    rw [if_pos (List.isSuffixOf_iff_suffix.mpr (List.suffix_append _ _))]
  refine ⟨hopening, ?_⟩
  simp only [content, hbody, hclosing, List.length_append, Nat.add_sub_cancel, List.take_left]

end Quoted

theorem isQuote_of_mem {language : HostLanguage} {quote : Char} (hquote : quote ∈ quoteMarks language) :
    Quoted.isQuote quote = true := by
  rcases quoteMarks_cases hquote with rfl | ⟨rfl, _⟩ <;> rfl

/-- Behind the quote mark of a string that ends with the next one there are no two quote marks. -/
theorem Quotes.not_tripled {quote : Char} {ownLine : Bool} {text : List Char}
    (hcloses : Quotes [quote] ownLine text) (hquote : Quoted.isQuote quote = true) :
    ¬ [quote, quote] <+: text := by
  have hother : quote ≠ '\\' := by
    rintro rfl
    cases hquote
  intro hprefix
  cases hcloses with
  | ends => simpa using hprefix.length_le
  | escape _ => exact hother (List.cons_prefix_cons.mp hprefix).1
  | lineEnd _ => exact hother (List.cons_prefix_cons.mp hprefix).1
  | plain _ hmark _ _ => exact hmark ((List.prefix_append [quote] [quote]).trans hprefix)

namespace Literal

variable {language : HostLanguage}

/-- The letters and the hash signs before the quote mark of a literal. -/
def modifiers : Literal language → List Char
  | quoted letters .. | tripleQuoted letters .. => letters
  | raw letters hashes .. => letters ++ List.replicate hashes '#'
  | character .. | escape .. => []

/-- The quote mark that opens a literal: three characters or one. -/
def mark : Literal language → List Char
  | quoted _ quote .. => [quote]
  | tripleQuoted _ quote .. => [quote, quote, quote]
  | raw .. => ['"']
  | character .. | escape .. => ['\'']

/-- Everything before the text between the marks of a literal. -/
def front (written : Literal language) : List Char :=
  written.modifiers ++ written.mark

/-- The text between the marks of a literal, as it is written. -/
def inner : Literal language → List Char
  | quoted _ _ text .. => text.dropLast
  | tripleQuoted _ _ text .. => text.take (text.length - 3)
  | raw _ _ content .. => content
  | character c .. => [c]
  | escape c rest .. => '\\' :: c :: rest

/-- A raw literal whose content begins with two quote marks or is a single one, so that three quote
    marks stand in a row where it opens. -/
def LooksTripled : Literal language → Prop
  | raw _ _ content .. => content = ['"'] ∨ ['"', '"'] <+: content
  | _ => False

theorem escapingLetters_plain (language : HostLanguage) : ∀ letters ∈ escapingLetters language,
    (∀ c ∈ letters, Quoted.isQuote c = false) ∧ letters.filter (· == '#') = [] := by
  cases language <;> simp [escapingLetters, pythonLetters, Quoted.isQuote]

theorem rawLetters_plain : ∀ letters ∈ rawLetters,
    (∀ c ∈ letters, Quoted.isQuote c = false) ∧ letters.filter (· == '#') = [] := by
  simp [rawLetters, Quoted.isQuote]

/-- A literal is closed by its mark and the hash signs before it. -/
theorem chars_eq (written : Literal language) : written.chars =
    written.front ++ (written.inner ++ (written.mark ++ written.modifiers.filter (· == '#'))) := by
  cases written with
  | quoted letters quote text hletters hquote hcloses =>
    obtain ⟨content, rfl⟩ := hcloses.isSuffix
    simp [chars, front, modifiers, mark, inner, (escapingLetters_plain language letters hletters).2]
  | tripleQuoted letters quote text hlanguage hletters hquote hcloses =>
    obtain ⟨content, rfl⟩ := hcloses.isSuffix
    simp [chars, front, modifiers, mark, inner, (escapingLetters_plain .python letters hletters).2]
  | raw letters hashes content hlanguage hletters hfirst =>
    simp [chars, front, modifiers, mark, inner, rawMark, (rawLetters_plain letters hletters).2]
  | character c hlanguage hplain => rfl
  | escape c rest hlanguage hfirst hrest => simp [chars, front, modifiers, mark, inner]

/-- The letters and hash signs of a literal are told from its mark. The mark that opens it is read as
    it is, unless three quote marks stand in a row there. -/
theorem mark_chars (written : Literal language) :
    Quoted.modifiers written.chars = written.modifiers ∧
      (¬ written.LooksTripled → Quoted.mark written.chars = written.mark) ∧
      (written.LooksTripled → Quoted.mark written.chars = ['"', '"', '"']) := by
  cases written with
  | quoted letters quote text hletters hquote hcloses =>
    have hplain := (escapingLetters_plain language letters hletters).1
    have hisQuote := isQuote_of_mem hquote
    refine ⟨Quoted.modifiers_append hplain hisQuote text, fun _ => ?_, False.elim⟩
    exact (Quoted.mark_append hplain hisQuote text).trans (if_neg (hcloses.not_tripled hisQuote))
  | tripleQuoted letters quote text hlanguage hletters hquote hcloses =>
    have hplain := (escapingLetters_plain .python letters hletters).1
    have hisQuote := isQuote_of_mem hquote
    refine ⟨Quoted.modifiers_append hplain hisQuote _, fun _ => ?_, False.elim⟩
    exact (Quoted.mark_append hplain hisQuote _).trans (if_pos ⟨text, rfl⟩)
  | raw letters hashes content hlanguage hletters hfirst =>
    have hplain : ∀ c ∈ letters ++ List.replicate hashes '#', Quoted.isQuote c = false := by
      refine List.forall_mem_append.mpr ⟨(rawLetters_plain letters hletters).1, fun c hmem => ?_⟩
      rw [List.eq_of_mem_replicate hmem]
      rfl
    have htripled : ['"', '"'] <+: content ++ rawMark hashes ↔
        content = ['"'] ∨ ['"', '"'] <+: content := by
      rcases content with _ | ⟨c, _ | ⟨c', content⟩⟩
      · cases hashes <;> simp [rawMark, List.replicate_succ]
      · simp [rawMark, eq_comm]
      · simp [eq_comm]
    have hisQuote : Quoted.isQuote '"' = true := rfl
    have hmark := Quoted.mark_append hplain hisQuote (content ++ rawMark hashes)
    rw [chars, ← List.append_assoc]
    exact ⟨Quoted.modifiers_append hplain hisQuote _,
      fun hother => hmark.trans (if_neg (mt htripled.mp hother)),
      fun hlooks => hmark.trans (if_pos (htripled.mpr hlooks))⟩
  | character c hlanguage hplain =>
    have hother : ¬ ['\'', '\''] <+: [c, '\''] := by simp [Ne.symm hplain.2]
    exact ⟨Quoted.modifiers_append (List.forall_mem_nil _) rfl _, fun _ =>
      (Quoted.mark_append (List.forall_mem_nil _) rfl _).trans (if_neg hother), False.elim⟩
  | escape c rest hlanguage hfirst hrest =>
    have hother : ¬ ['\'', '\''] <+: '\\' :: c :: rest ++ ['\''] := by simp
    exact ⟨Quoted.modifiers_append (List.forall_mem_nil _) rfl _, fun _ =>
      (Quoted.mark_append (List.forall_mem_nil _) rfl _).trans (if_neg hother), False.elim⟩

/-- A literal is taken apart as it was put together if its mark is read as it is. -/
theorem parts_chars {written : Literal language} (hother : ¬ written.LooksTripled) :
    Quoted.opening written.chars = written.front ∧ Quoted.content written.chars = written.inner := by
  obtain ⟨hmodifiers, hmark, _⟩ := written.mark_chars
  exact Quoted.parts_of_mark hmodifiers (hmark hother) written.chars_eq

/-- The content of the token of a literal is the text between the marks of the literal. -/
structure ReadsInner (written : Literal language) (place : Place) : Prop where
  /-- The offsets of the content are those of the text. -/
  span : Quoted.contentSpan { start := place.offset, stop := (written.token place).stop.offset }
      (written.token place).text.toList =
    { start := (place.past written.front).offset
      stop := (place.past (written.front ++ written.inner)).offset }
  /-- What a program says in the literal has the text as its name, and the range of the text. -/
  identifier : ∀ kind, (written.token place).contentIdentifier kind =
    { range := (place.past written.front).rangeOf written.inner
      name := String.ofList written.inner, kind }

/-- The content of a literal is exactly the text between its marks, whatever its form and its letters,
    except for raw literals in which three quote marks stand in a row where they open. -/
theorem readsInner_iff (written : Literal language) (place : Place) :
    written.ReadsInner place ↔ ¬ written.LooksTripled := by
  have htext : (written.token place).text.toList = written.chars := String.toList_ofList
  have hstop : (written.token place).stop.offset = place.offset + Text.byteLength written.chars := by
    rw [Token.stop, htext, Place.offset_past]
    rfl
  have hspan := Quoted.contentSpan_eq hstop
  constructor
  · intro hreads hlooks
    obtain ⟨hmodifiers, _, hmark⟩ := written.mark_chars
    have hmarkLength : Text.byteLength written.mark = 1 := by
      cases written with
      | raw => rfl
      | _ => exact hlooks.elim
    have hread := hreads.span
    rw [htext, hspan] at hread
    obtain ⟨hstart, _⟩ := Span.mk.inj hread
    rw [Place.offset_past, Quoted.opening, hmodifiers, hmark hlooks, front, Text.byteLength_append,
      Text.byteLength_append, hmarkLength] at hstart
    exact absurd (Nat.add_left_cancel (Nat.add_left_cancel hstart)) (by decide)
  · intro hother
    obtain ⟨hopening, hcontent⟩ := parts_chars hother
    constructor
    · rw [htext, hspan, hopening, hcontent, Place.offset_past, Place.offset_past]
    · intro kind
      rw [Token.contentIdentifier]
      simp only [htext, hopening, hcontent]
      rfl

theorem rawMark_one_first : ¬ rawMark 1 <:+: ['"'] ++ (rawMark 1).dropLast := by
  decide

/-- A raw string that holds nothing but a quote mark. -/
def rawQuote : Literal .rust :=
  .raw ['r'] 1 ['"'] rfl List.mem_cons_self rawMark_one_first

/-- The quote mark that a raw string holds is lost, and its hash sign is taken for the content. -/
theorem raw_content_lost : ¬ rawQuote.ReadsInner {} ∧
    Quoted.contentSpan { start := 0, stop := 6 } rawQuote.chars = { start := 5, stop := 6 } :=
  ⟨fun hreads => absurd hreads.span (by decide), by decide⟩

end Literal

end TemplateAnalysis.Host
