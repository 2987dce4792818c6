import TemplateAnalysis.Proofs.Host.Covering

namespace TemplateAnalysis.Host

/-- What stands behind the mark that opens a literal: the text up to the mark that closes it, and that
    mark. A backslash hides the next character, also if that is the mark. It hides a line end of two
    characters too, where literals end with their lines. -/
inductive Quotes (mark : List Char) (ownLine : Bool) : List Char → Prop
  | ends : Quotes mark ownLine mark
  | escape {c : Char} {rest : List Char} (hrest : Quotes mark ownLine rest) :
      Quotes mark ownLine ('\\' :: c :: rest)
  | lineEnd {rest : List Char} (hrest : Quotes mark ownLine rest) :
      Quotes mark ownLine ('\\' :: '\r' :: '\n' :: rest)
  | plain {c : Char} {rest : List Char} (hescape : c ≠ '\\') (hmark : ¬ mark <+: c :: rest)
      (hline : ownLine = true → c ≠ '\n') (hrest : Quotes mark ownLine rest) :
      Quotes mark ownLine (c :: rest)

/-- The letters that can stand before a literal of Python. One of them may say that it is raw, before or
    after the other one. -/
def pythonLetters : List (List Char) :=
  [] :: ['r', 'R', 'u', 'U', 'f', 'F', 'b', 'B'].map ([·]) ++
    ['r', 'R'].flatMap fun raw => ['b', 'B', 'f', 'F'].flatMap fun kind => [[raw, kind], [kind, raw]]

/-- The letters that can stand before a literal in which a backslash hides a quote mark. -/
def escapingLetters : HostLanguage → List (List Char)
  | .rust => [[], ['b'], ['c']]
  | .python => pythonLetters

/-- The letters that can stand before a literal in which no character hides another. -/
def rawLetters : List (List Char) :=
  [['r'], ['b', 'r'], ['c', 'r']]

/-- The quote marks of the strings of a language. -/
def quoteMarks : HostLanguage → List Char
  | .rust => ['"']
  | .python => ['"', '\'']

/-- The mark that closes a raw literal. -/
def rawMark (hashes : Nat) : List Char :=
  '"' :: List.replicate hashes '#'

/-- A string or character literal of a language, with the text behind the mark that opens it. -/
inductive Literal (language : HostLanguage) : Type
  /-- A string between two quote marks. -/
  | quoted (letters : List Char) (quote : Char) (text : List Char)
      (hletters : letters ∈ escapingLetters language) (hquote : quote ∈ quoteMarks language)
      (hcloses : Quotes [quote] (language == .python) text)
  /-- A string between two marks of three quote marks each. -/
  | tripleQuoted (letters : List Char) (quote : Char) (text : List Char) (hlanguage : language = .python)
      (hletters : letters ∈ pythonLetters) (hquote : quote ∈ quoteMarks language)
      (hcloses : Quotes [quote, quote, quote] false text)
  /-- A raw string, with any number of hash signs. It ends with the first mark that closes it. -/
  | raw (letters : List Char) (hashes : Nat) (content : List Char) (hlanguage : language = .rust)
      (hletters : letters ∈ rawLetters)
      (hfirst : ¬ rawMark hashes <:+: content ++ (rawMark hashes).dropLast)
  /-- One character between apostrophes. -/
  | character (c : Char) (hlanguage : language = .rust) (hplain : c ≠ '\\' ∧ c ≠ '\'')
  /-- An escape between apostrophes. The backslash hides the first of its characters. -/
  | escape (c : Char) (rest : List Char) (hlanguage : language = .rust) (hfirst : c ≠ '\n')
      (hrest : '\n' ∉ rest ∧ '\'' ∉ rest)

namespace Literal

variable {language : HostLanguage}

/-- The spelling of a literal. -/
def chars : Literal language → List Char
  | quoted letters quote text .. => letters ++ quote :: text
  | tripleQuoted letters quote text .. => letters ++ quote :: quote :: quote :: text
  | raw letters hashes content .. =>
    letters ++ (List.replicate hashes '#' ++ '"' :: (content ++ rawMark hashes))
  | character c .. => ['\'', c, '\'']
  | escape c rest .. => '\'' :: '\\' :: c :: rest ++ ['\'']

/-- Nothing within a literal looks like its end where a backslash is overlooked: no line end of two
    characters behind a backslash in a string that ends with its line, no mark of three quote marks
    that a backslash hides in part, and no apostrophe as an escape. -/
def EndsPlainly : Literal language → Prop
  | quoted _ _ text .. => language = .python → ¬ ['\\', '\r', '\n'] <:+: text
  | tripleQuoted _ quote text .. => ¬ [quote, quote, quote] <:+: text.dropLast
  | raw .. | character .. => True
  | escape c .. => c ≠ '\''

end Literal

/-- Text without blanks and quote marks, at which no comment begins: words, numbers and punctuation,
    also several of them without a blank between them. -/
structure IsCode (language : HostLanguage) (text : List Char) : Prop where
  plain : ∀ c ∈ text, Text.isBlank c = false ∧ c ≠ '"' ∧ c ≠ '\''
  slashes : language = .rust → ¬ ['/', '/'] <:+: text ∧ ¬ ['/', '*'] <:+: text
  hash : language = .python → '#' ∉ text

/-- A part of a program between blanks. -/
inductive Part (language : HostLanguage) : Type
  | code (text : List Char) (hcode : IsCode language text)
  /-- An apostrophe before a name. -/
  | lifetime (c : Char) (rest : List Char) (hlanguage : language = .rust) (hname : c ≠ '\\')
      (hcode : IsCode language (c :: rest))
  | comment (text : List Char)
  | literal (literal : Literal language)

/-- The spelling of a part. -/
def Part.chars {language : HostLanguage} : Part language → List Char
  | .code text _ => text
  | .lifetime c rest .. => '\'' :: c :: rest
  | .comment text => text
  | .literal written => written.chars

/-- A part of a program with the blanks behind it. -/
structure Item (language : HostLanguage) where
  part : Part language
  gap : List Char
  blank : ∀ c ∈ gap, Text.isBlank c = true

/-- The spelling of a program. -/
def spelling {language : HostLanguage} : List (Item language) → List Char
  | [] => []
  | item :: items => item.part.chars ++ (item.gap ++ spelling items)

/-- The parts of a program stand between blanks, and what is called a comment is one where it stands. -/
inductive Separated {language : HostLanguage} : List (Item language) → Prop
  | nil : Separated []
  | cons {item : Item language} {items : List (Item language)} (hgap : item.gap = [] → items = [])
      (hcomment : ∀ text, item.part = .comment text →
        IsComment (item.gap ++ spelling items) language text)
      (hitems : Separated items) : Separated (item :: items)

/-- A blank or the end of the program follows. -/
def BlankNext (later : List Char) : Prop :=
  ∀ c ∈ later.head?, Text.isBlank c = true

namespace BlankNext

variable {later : List Char}

/-- What is true of no blank is not true of what follows. -/
theorem not {P : Char → Bool} (hnext : BlankNext later)
    (hblanks : ∀ range ∈ Text.blankCodePoints, ∀ offset < range.2 + 1 - range.1,
      P (Char.ofNat (range.1 + offset)) = false) : ∀ c ∈ later.head?, P c = false :=
  fun c hc => Text.of_isBlank (P := (P · = false)) (hnext c hc) hblanks

theorem head?_ne (hnext : BlankNext later) {c : Char} (hplain : Text.isBlank c = false) :
    later.head? ≠ some c := by
  intro hhead
  rw [hnext c hhead] at hplain
  cases hplain

end BlankNext

theorem Quotes.isSuffix {mark text : List Char} {ownLine : Bool} (hcloses : Quotes mark ownLine text) :
    mark <:+ text := by
  induction hcloses with
  | ends => exact List.suffix_refl _
  | escape _ ih => exact ih.trans ⟨['\\', _], rfl⟩
  | lineEnd _ ih => exact ih.trans ⟨['\\', '\r', '\n'], rfl⟩
  | plain _ _ _ _ ih => exact ih.trans (List.suffix_cons _ _)

theorem quoteMarks_cases {language : HostLanguage} {quote : Char}
    (hquote : quote ∈ quoteMarks language) : quote = '"' ∨ quote = '\'' ∧ language = .python := by
  cases language <;> simpa [quoteMarks] using hquote

namespace Lexer

section Quotes

variable {quote : Char} {ownLine : Bool} {text later : List Char}

theorem plainLength_plain {c : Char} (rest : List Char) (hplain : c ≠ '\\') :
    plainLength quote ownLine (c :: rest) =
      if ownLine && c == '\n' then 0
      else if c = quote then 1 else 1 + plainLength quote ownLine rest := by
  rw [plainLength]
  · exact fun hc => absurd hc hplain
  · exact fun _ _ hc => absurd hc hplain

/-- A string is read up to the quote mark that closes it. -/
theorem plainLength_append (hquote : quote ≠ '\\' ∧ quote ≠ '\n') (hcloses : Quotes [quote] ownLine text)
    (hplain : ownLine = true → ¬ ['\\', '\r', '\n'] <:+: text) (later : List Char) :
    plainLength quote ownLine (text ++ later) = text.length := by
  induction hcloses with
  | ends =>
    rw [List.singleton_append, plainLength_plain _ hquote.1, if_neg (by simp [hquote.2]), if_pos rfl]
    rfl
  | @escape c rest _ ih =>
    have hrest := ih fun hline => fun hinner => hplain hline (hinner.trans ⟨['\\', c], [], by simp⟩)
    rw [List.cons_append, List.cons_append, plainLength, hrest]
    exact Nat.add_comm 2 _
  | @lineEnd rest _ ih =>
    have hlines : ownLine = false := by
      by_contra hline
      exact hplain (Bool.eq_true_of_not_eq_false hline) ⟨[], rest, rfl⟩
    have hrest := ih fun hline => absurd hline (by simp [hlines])
    simp only [List.cons_append]
    rw [plainLength, plainLength_plain _ (by decide), if_neg (by simp [hlines]),
      if_neg (Ne.symm hquote.2), hrest]
    simp only [List.length_cons]
    omega
  | @plain c rest hescape hmark hline _ ih =>
    have hrest := ih fun hline => fun hinner => hplain hline (hinner.trans ⟨[c], [], by simp⟩)
    have hother : c ≠ quote := by
      rintro rfl
      exact hmark ⟨rest, rfl⟩
    rw [List.cons_append, plainLength_plain _ hescape, if_neg (by simpa using hline), if_neg hother, hrest]
    exact Nat.add_comm 1 _

end Quotes

section Strings

variable {language : HostLanguage} {quote : Char} {letters text later : List Char}

theorem quotedLength_quoted (hquote : quote ∈ quoteMarks language)
    (hcloses : Quotes [quote] (language == .python) text)
    (hplain : language = .python → ¬ ['\\', '\r', '\n'] <:+: text) (hnext : BlankNext later) :
    quotedLength language (quote :: (text ++ later)) = text.length + 1 := by
  have hmark : quote ≠ '\\' ∧ quote ≠ '\n' ∧ Text.isBlank quote = false := by
    rcases quoteMarks_cases hquote with rfl | ⟨rfl, _⟩ <;> decide
  have hsingle : (text ++ later).take 2 ≠ [quote, quote] := by
    cases hcloses with
    | ends =>
      cases later with
      | nil => simp
      | cons c later =>
        have hother := hnext.head?_ne hmark.2.2
        simpa using hother
    | escape => simp [hmark.1.symm]
    | lineEnd => simp [hmark.1.symm]
    | @plain c rest _ hnotMark =>
      have hother : c ≠ quote := by
        rintro rfl
        exact hnotMark ⟨rest, rfl⟩
      cases hrest : rest ++ later <;> simp [hrest, hother]
  rw [quotedLength, if_neg (hsingle ·.2), plainLength_append ⟨hmark.1, hmark.2.1⟩ hcloses
    (by simpa using hplain)]
  exact Nat.add_comm 1 _

theorem quotedLength_tripleQuoted (hcloses : Quotes [quote, quote, quote] false text)
    (hplain : ¬ [quote, quote, quote] <:+: text.dropLast) (later : List Char) :
    quotedLength .python (quote :: quote :: quote :: (text ++ later)) = text.length + 3 := by
  obtain ⟨content, rfl⟩ := hcloses.isSuffix
  rw [List.dropLast_append_of_ne_nil (List.cons_ne_nil _ _)] at hplain
  have hthrough := Text.lengthThrough_eq (List.cons_ne_nil quote [quote, quote]) hplain later
  rw [quotedLength, if_pos ⟨rfl, rfl⟩, List.append_assoc]
  simp only [List.drop_succ_cons, List.drop_zero, hthrough, List.length_append]
  exact Nat.add_comm 3 _

theorem comment?_eq_none {c : Char} (rest : List Char) (hslash : c ≠ '/') (hhash : c ≠ '#') :
    comment? language (c :: rest) = none := by
  unfold comment?
  split
  next hcons => exact absurd (List.cons.inj hcons).1 hslash
  next hcons => exact absurd (List.cons.inj hcons).1 hslash
  next hcons => exact absurd (List.cons.inj hcons).1 hhash
  next => rfl

theorem escapingLetters_modify : ∀ letters ∈ escapingLetters language,
    letters.all Char.isAlpha = true ∧ (letters ≠ [] → isModifier language letters = true) ∧
      ¬ (language = .rust ∧ letters.getLast? = some 'r') := by
  cases language <;> decide

/-- Letters are read up to what is no letter. -/
theorem modifiedLength?_append (language : HostLanguage) (halpha : letters.all Char.isAlpha = true) {rest : List Char}
    (hstop : ∀ c ∈ rest.head?, c.isAlpha = false) :
    modifiedLength? language (letters ++ rest) =
      if !isModifier language letters then none
      else if language = .rust ∧ letters.getLast? = some 'r' then
        (rawLength? rest).map (letters.length + ·)
      else if rest.head? = some '"' ∨ language = .python ∧ rest.head? = some '\'' then
        some (letters.length + quotedLength language rest)
      else none := by
  have htake : (letters ++ rest).takeWhile Char.isAlpha = letters := by
    rw [Text.takeWhile_append letters hstop,
      List.takeWhile_eq_self_iff.mpr (List.all_eq_true.mp halpha)]
  unfold modifiedLength?
  simp only [htake, List.drop_left]

/-- No comment begins at a letter. -/
theorem not_comment_of_isAlpha {c : Char} (halpha : c.isAlpha = true) (rest : List Char) :
    Text.isBlank c = false ∧ comment? language (c :: rest) = none := by
  refine ⟨?_, comment?_eq_none rest ?_ ?_⟩
  · rw [← Bool.not_eq_true]
    intro hblank
    have hnot := Text.of_isBlank (P := (Char.isAlpha · = false)) hblank (by decide +kernel)
    rw [halpha] at hnot
    cases hnot
  · rintro rfl
    cases halpha
  · rintro rfl
    cases halpha

theorem piece_letters (halpha : letters.all Char.isAlpha = true) (hne : letters ≠ [])
    {rest tail : List Char} {c : Char} {length : Nat} (hcons : letters ++ rest = c :: tail)
    (hmodified : modifiedLength? language (letters ++ rest) = some length) :
    piece language c tail = { kind := some .string, more := length - 1 } := by
  have hletter : c.isAlpha = true := by
    obtain ⟨first, others, rfl⟩ := List.exists_cons_of_ne_nil hne
    rw [← (List.cons.inj hcons).1]
    exact List.all_eq_true.mp halpha first List.mem_cons_self
  obtain ⟨hblank, hcomment⟩ := not_comment_of_isAlpha hletter tail
  rw [hcons] at hmodified
  exact piece_of_modifiedLength? hblank hcomment hmodified

/-- A literal with letters before its quote mark or without them is as long as its quote mark says. -/
theorem piece_quoted (hletters : letters ∈ escapingLetters language) (hquote : quote ∈ quoteMarks language)
    {rest tail : List Char} {c : Char} (hcons : letters ++ quote :: rest = c :: tail) :
    piece language c tail = { kind := some .string
                              more := letters.length + quotedLength language (quote :: rest) - 1 } := by
  obtain ⟨halpha, hmodifier, hnotRaw⟩ := escapingLetters_modify letters hletters
  have hmark : quote.isAlpha = false ∧ Text.isBlank quote = false ∧ Text.isAlphabetic quote = false ∧
      quote.isDigit = false ∧ quote ≠ '/' ∧ quote ≠ '#' ∧ quote ≠ '_' := by
    rcases quoteMarks_cases hquote with rfl | ⟨rfl, _⟩ <;> decide +kernel
  obtain ⟨hletter, hblank, hword, hdigit, hslash, hhash, hline⟩ := hmark
  have hstop : ∀ c ∈ (quote :: rest).head?, c.isAlpha = false := by
    rintro _ ⟨⟩
    exact hletter
  have hmodified := modifiedLength?_append language halpha hstop
  by_cases hne : letters = []
  · subst hne
    obtain ⟨rfl, rfl⟩ := List.cons.inj hcons
    have hnone : modifiedLength? language (quote :: rest) = none := by
      rw [List.nil_append] at hmodified
      rw [hmodified]
      cases language <;> rfl
    have hquoted : quote = '"' ∨ quote = '\'' ∧ language = .python := quoteMarks_cases hquote
    rw [piece_eq_plainPiece hblank (comment?_eq_none rest hslash hhash) hnone, plainPiece,
      if_neg (by simp [hword, hline]), if_neg (by simp [hdigit]), if_pos hquoted, List.length_nil,
      Nat.zero_add]
  · have hhead : (quote :: rest).head? = some '"' ∨
        language = .python ∧ (quote :: rest).head? = some '\'' := by
      rcases quoteMarks_cases hquote with rfl | ⟨rfl, hlanguage⟩
      · exact .inl rfl
      · exact .inr ⟨hlanguage, rfl⟩
    rw [if_neg (by simp [hmodifier hne]), if_neg hnotRaw, if_pos hhead] at hmodified
    exact piece_letters halpha hne hcons hmodified

theorem rawLength?_append (hashes : Nat) (rest : List Char) :
    rawLength? (List.replicate hashes '#' ++ '"' :: rest) =
      some (hashes + 1 + Text.lengthThrough (rawMark hashes) rest) := by
  have htake : (List.replicate hashes '#' ++ '"' :: rest).takeWhile (· == '#') =
      List.replicate hashes '#' := by
    rw [List.takeWhile_append_of_pos (by simp)]
    simp
  have hdrop : (List.replicate hashes '#' ++ '"' :: rest).drop (List.replicate hashes '#').length =
      '"' :: rest := List.drop_left
  unfold rawLength?
  simp only [htake, hdrop]
  rw [List.length_replicate]
  rfl

/-- A raw literal is as long as its hash signs say. -/
theorem piece_raw (hletters : letters ∈ rawLetters) (hashes : Nat) {rest tail : List Char} {c : Char}
    (hcons : letters ++ (List.replicate hashes '#' ++ '"' :: rest) = c :: tail) :
    piece .rust c tail = { kind := some .string
                           more := letters.length + (hashes + 1 +
                             Text.lengthThrough (rawMark hashes) rest) - 1 } := by
  have hall : ∀ letters ∈ rawLetters, letters.all Char.isAlpha = true ∧
      isModifier .rust letters = true ∧ letters.getLast? = some 'r' ∧ letters ≠ [] := by decide
  obtain ⟨halpha, hmodifier, hraw, hne⟩ := hall letters hletters
  have hstop : ∀ c ∈ (List.replicate hashes '#' ++ '"' :: rest).head?, c.isAlpha = false := by
    cases hashes <;> rintro _ ⟨⟩ <;> decide
  have hmodified := modifiedLength?_append .rust halpha hstop
  rw [if_neg (by simp [hmodifier]), if_pos ⟨rfl, hraw⟩, rawLength?_append, Option.map_some] at hmodified
  exact piece_letters halpha hne hcons hmodified

/-- A character literal is read up to its second apostrophe. -/
theorem piece_apostrophe (rest : List Char) :
    piece .rust '\'' rest = { kind := if characterLength rest = 0 then none else some .string
                              more := characterLength rest } := by
  rw [piece_eq_plainPiece (by decide) (comment?_eq_none rest (by decide) (by decide)) rfl, plainPiece]
  rfl

end Strings

end Lexer

open Lexer

/-- What begins with a character that is not blank does not begin behind a text before blanks. -/
theorem BlankNext.exists_cons {c : Char} {text later rest : List Char} (hnext : BlankNext later)
    (hcons : text ++ later = c :: rest) (hplain : Text.isBlank c = false) : ∃ tail, text = c :: tail := by
  cases text with
  | nil =>
    rw [List.nil_append] at hcons
    exact absurd (by rw [hcons]; rfl) (hnext.head?_ne hplain)
  | cons first tail => exact ⟨tail, by rw [(List.cons.inj hcons).1]⟩

namespace IsCode

variable {language : HostLanguage} {c : Char} {text tail later : List Char}

theorem of_suffix (hcode : IsCode language text) {rest : List Char} (hsuffix : rest <:+ text) :
    IsCode language rest where
  plain c hmem := hcode.plain c (hsuffix.subset hmem)
  slashes hlanguage := (hcode.slashes hlanguage).imp (mt (·.trans hsuffix.isInfix))
    (mt (·.trans hsuffix.isInfix))
  hash hlanguage hmem := hcode.hash hlanguage (hsuffix.subset hmem)

/-- No quote mark begins what stands behind some of the text before blanks. -/
theorem head?_ne (hcode : IsCode language text) (hnext : BlankNext later) :
    (text ++ later).head? ≠ some '"' ∧ (text ++ later).head? ≠ some '\'' := by
  refine ⟨fun hhead => ?_, fun hhead => ?_⟩
  all_goals
    obtain ⟨rest, hrest⟩ := List.head?_eq_some_iff.mp hhead
    obtain ⟨tail, rfl⟩ := hnext.exists_cons hrest (by decide)
    have hplain := hcode.plain _ List.mem_cons_self
    simp at hplain

theorem comment?_eq_none (hcode : IsCode language (c :: tail)) (hnext : BlankNext later) :
    comment? language (c :: (tail ++ later)) = none := by
  unfold comment?
  split
  next rest hcons =>
    obtain ⟨rfl, hrest⟩ := List.cons.inj hcons
    obtain ⟨others, rfl⟩ := hnext.exists_cons hrest (by decide)
    exact absurd ⟨[], others, rfl⟩ (hcode.slashes rfl).1
  next rest hcons =>
    obtain ⟨rfl, hrest⟩ := List.cons.inj hcons
    obtain ⟨others, rfl⟩ := hnext.exists_cons hrest (by decide)
    exact absurd ⟨[], others, rfl⟩ (hcode.slashes rfl).2
  next rest hcons =>
    obtain ⟨rfl, hrest⟩ := List.cons.inj hcons
    exact absurd List.mem_cons_self (hcode.hash rfl)
  next => rfl

theorem rawLength?_eq_none (hcode : IsCode language text) (hnext : BlankNext later) :
    rawLength? (text ++ later) = none := by
  have hstop := hnext.not (P := (· == '#')) (by decide +kernel)
  have hhead := ((hcode.of_suffix (List.dropWhile_suffix (· == '#'))).head?_ne hnext).1
  have hdrop : (text ++ later).drop (text.takeWhile (· == '#')).length =
      text.dropWhile (· == '#') ++ later := by
    rw [List.drop_append_of_le_length (List.takeWhile_prefix _).length_le, Text.drop_takeWhile]
  unfold rawLength?
  simp only [Text.takeWhile_append text hstop, hdrop]
  split
  next rest hrest => exact absurd (by rw [hrest]; rfl) hhead
  next => rfl

theorem modifiedLength?_eq_none (hcode : IsCode language text) (hnext : BlankNext later) :
    modifiedLength? language (text ++ later) = none := by
  have hrest := hcode.of_suffix (List.dropWhile_suffix Char.isAlpha)
  have hquote := hrest.head?_ne hnext
  have hdrop : (text ++ later).drop (text.takeWhile Char.isAlpha).length =
      text.dropWhile Char.isAlpha ++ later := by
    rw [List.drop_append_of_le_length (List.takeWhile_prefix _).length_le, Text.drop_takeWhile]
  unfold modifiedLength?
  simp only [Text.takeWhile_append text (hnext.not (P := Char.isAlpha) (by decide +kernel)), hdrop,
    hrest.rawLength?_eq_none hnext, hquote.1, hquote.2]
  simp

/-- An operator of two characters ends with the text before blanks. -/
theorem length_pos_of_operator (hnext : BlankNext later)
    (hoperator : ((tail ++ later).head?.any fun next => operators.contains (c, next)) = true) :
    1 ≤ tail.length := by
  have hplain : ∀ pair ∈ operators, Text.isBlank pair.2 = false := by decide +kernel
  cases tail with
  | nil =>
    cases later with
    | nil => cases hoperator
    | cons next later =>
      have hother := hplain (c, next) (List.contains_iff_mem.mp hoperator)
      exact absurd rfl (hnext.head?_ne hother)
  | cons next tail => exact Nat.le_add_left 1 _

/-- Before blanks, words, numbers and punctuation end with the text. -/
theorem piece_eq (hcode : IsCode language (c :: tail)) (hnext : BlankNext later) : ∃ kind more,
    piece language c (tail ++ later) = { kind := some kind, more } ∧ kind ≠ .string ∧
      more ≤ tail.length := by
  obtain ⟨hblank, hquote, hapostrophe⟩ := hcode.plain c List.mem_cons_self
  have hword := hnext.not (P := fun c => Text.isAlphanumeric c || c == '_') (by decide +kernel)
  have hnumber := hnext.not (P := fun c => c.isAlphanum || c == '_' || c == '.') (by decide +kernel)
  have hliteral : ¬ (c = '"' ∨ c = '\'' ∧ language = .python) := by simp [hquote, hapostrophe]
  rw [piece_eq_plainPiece hblank (hcode.comment?_eq_none hnext) (hcode.modifiedLength?_eq_none hnext)]
  unfold plainPiece
  rw [Text.takeWhile_append tail hword, Text.takeWhile_append tail hnumber, if_neg hliteral,
    if_neg hapostrophe]
  split_ifs with hwords hdigit hoperator
  · exact ⟨.word, _, rfl, by simp, (List.takeWhile_prefix _).length_le⟩
  · exact ⟨.number, _, rfl, by simp, (List.takeWhile_prefix _).length_le⟩
  · exact ⟨.punctuation, 1, rfl, by simp, length_pos_of_operator hnext hoperator⟩
  · exact ⟨.punctuation, 0, rfl, by simp, Nat.zero_le _⟩

end IsCode

namespace Literal

variable {language : HostLanguage} {later : List Char}

theorem chars_ne_nil (written : Literal language) : written.chars ≠ [] := by
  cases written <;> simp [chars]

/-- A literal that ends plainly is read as a whole. -/
theorem piece_eq {written : Literal language} (hplain : written.EndsPlainly) (hnext : BlankNext later)
    {c : Char} {tail : List Char} (hcons : written.chars = c :: tail) :
    piece language c (tail ++ later) = { kind := some .string, more := tail.length } := by
  have hlength := congrArg List.length hcons
  have hlater := congrArg (· ++ later) hcons
  -- Each form is measured in its own way. The first letters decide which form the lexer sees.
  cases written with
  | quoted letters quote text hletters hquote hcloses =>
    simp only [chars, List.append_assoc, List.cons_append, List.length_append, List.length_cons]
      at hlater hlength
    rw [piece_quoted hletters hquote hlater, quotedLength_quoted hquote hcloses hplain hnext]
    congr 1
    omega
  | tripleQuoted letters quote text hlanguage hletters hquote hcloses =>
    simp only [chars, EndsPlainly, List.append_assoc, List.cons_append, List.length_append,
      List.length_cons] at hplain hlater hlength
    rw [piece_quoted (by rwa [hlanguage]) hquote hlater, hlanguage,
      quotedLength_tripleQuoted hcloses hplain]
    congr 1
    omega
  | raw letters hashes content hlanguage hletters hfirst =>
    have hmark : rawMark hashes ≠ [] := List.cons_ne_nil _ _
    simp only [chars, List.append_assoc, List.cons_append, List.length_append, List.length_cons,
      List.length_replicate] at hlater hlength
    rw [hlanguage, piece_raw hletters hashes hlater, Text.lengthThrough_eq hmark hfirst]
    congr 1
    omega
  | character first hlanguage hfirst =>
    have hread : characterLength ([first, '\''] ++ later) = 2 := by
      rw [List.cons_append, List.singleton_append, characterLength]
      exact fun hc => hfirst.1 hc
    obtain ⟨rfl, rfl⟩ := List.cons.inj hcons
    rw [hlanguage, piece_apostrophe, hread]
    rfl
  | escape first rest hlanguage hfirst hrest =>
    have hline : '\n' ∉ first :: rest := List.not_mem_cons_of_ne_of_not_mem (Ne.symm hfirst) hrest.1
    have hquote : '\'' ∉ first :: rest := List.not_mem_cons_of_ne_of_not_mem (Ne.symm hplain) hrest.2
    have hread : characterLength ('\\' :: first :: rest ++ ['\''] ++ later) = rest.length + 3 :=
      characterLength_escape hline hquote
    obtain ⟨hc, htail⟩ := List.cons.inj hcons
    rw [← hc, ← htail, hlanguage, piece_apostrophe]
    simp only [List.append_eq, hread]
    simp

end Literal

/-- The apostrophe of a lifetime is skipped. -/
theorem IsCode.piece_lifetime {language : HostLanguage} {c : Char} {rest later : List Char}
    (hcode : IsCode language (c :: rest)) (hlanguage : language = .rust) (hname : c ≠ '\\')
    (hnext : BlankNext later) :
    piece language '\'' (c :: rest ++ later) = { kind := none, more := 0 } := by
  have hsecond := ((hcode.of_suffix (List.suffix_cons c rest)).head?_ne hnext).2
  have hread : characterLength (c :: (rest ++ later)) = 0 := by
    unfold characterLength
    split
    next hcons => exact absurd (List.cons.inj hcons).1 hname
    next hcons => exact absurd (by rw [(List.cons.inj hcons).2]; rfl) hsecond
    next => rfl
  rw [hlanguage, List.cons_append, piece_apostrophe, hread]
  rfl

end TemplateAnalysis.Host
