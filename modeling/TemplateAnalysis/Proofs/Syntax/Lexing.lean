import TemplateAnalysis.Proofs.Syntax.Lexeme
import TemplateAnalysis.Proofs.Text
import TemplateAnalysis.Proofs.Template.Order

namespace TemplateAnalysis.Syntax

open Template (Keyword Symbol Tag TagForm Token TokenKind)
open Template.Lexer

section Characters

/-- No name begins with a blank. -/
theorem isBlank_of_isNameStart {c : Char} (hstart : isNameStart c = true) : Text.isBlank c = false := by
  rw [← Bool.not_eq_true]
  intro hblank
  have hnot := Text.of_isBlank (P := (isNameStart · = false)) hblank (by decide +kernel)
  rw [hstart] at hnot
  cases hnot

/-- A character that can neither close a tag nor belong to a mark of white space control. -/
theorem closerLength?_eq_none {c : Char} (form : TagForm) (depth : Nat) (rest : List Char)
    (hsign : c ≠ '-' ∧ c ≠ '+') (hclose : c ≠ '%' ∧ c ≠ '}') :
    closerLength? form depth (c :: rest) = none := by
  have hlength : signLength (c :: rest) = 0 := by simp [signLength, hsign]
  unfold closerLength?
  rw [hlength]
  split <;> simp_all

theorem opensTag_of_ne {c : Char} (rest : List Char) (hne : c ≠ '{') : opensTag (c :: rest) = false := by
  unfold opensTag
  split
  next hcons => exact absurd (List.cons.inj hcons).1 hne
  next => rfl

theorem ne_of_mem {P : Char → Bool} {c : Char} {others : List Char} (hP : P c = true)
    (hnone : others.any P = false) : ∀ other ∈ others, c ≠ other := by
  rintro other hmem rfl
  exact List.any_eq_false.mp hnone c hmem hP

/-- A character that takes no part in the marks of tags begins a word, a number, a string or a
    symbol. -/
theorem codePiece_eq {c : Char} (form : TagForm) (depth : Nat) (rest : List Char)
    (hblank : Text.isBlank c = false) (hne : ∀ mark ∈ ['-', '+', '%', '}', '{'], c ≠ mark) :
    codePiece form depth c rest =
      if isNameStart c then
        { kind := some (wordKind (c :: rest.takeWhile isNamePart))
          more := (rest.takeWhile isNamePart).length, next := .code form depth }
      else if c.isDigit then numberPiece rest (.code form depth)
      else if c = '"' ∨ c = '\'' then
        { kind := some .string, more := stringLength c rest, next := .code form depth }
      else symbolPiece form depth c rest := by
  simp only [List.mem_cons, List.not_mem_nil, or_false, forall_eq_or_imp, forall_eq] at hne
  obtain ⟨hminus, hplus, hpercent, hclose, hopen⟩ := hne
  have hcloser := closerLength?_eq_none form depth rest ⟨hminus, hplus⟩ ⟨hpercent, hclose⟩
  rw [codePiece, hblank, hcloser, opensTag_of_ne rest hopen]
  simp

theorem takeWhile_append_blank {P : Char → Bool} {word : List Char} (rest : List Char)
    (hall : word.all P = true) (hstop : ∀ c ∈ rest.head?, P c = false) :
    (word ++ rest).takeWhile P = word := by
  rw [Text.takeWhile_append word hstop, List.takeWhile_eq_self_iff.mpr (List.all_eq_true.mp hall)]

end Characters

section Lexemes

variable (form : TagForm) (depth : Nat) (rest : List Char)

/-- What the lexer makes of a lexeme before a blank: one token of its kind. -/
def LexesAs (form : TagForm) (depth : Nat) (lexeme : Lexeme) : Prop :=
  ∃ c tail, lexeme.chars = c :: tail ∧ Text.isBlank c = false ∧ ∀ rest,
    codePiece form depth c (tail ++ ' ' :: rest) =
      { kind := some lexeme.kind, more := tail.length, next := .code form (lexeme.depthAfter depth) }

theorem codePiece_word {c : Char} {tail : List Char} (hbegins : isNameStart c = true)
    (hcontinues : tail.all isNamePart = true) :
    codePiece form depth c (tail ++ ' ' :: rest) =
      { kind := some (wordKind (c :: tail)), more := tail.length, next := .code form depth } := by
  rw [codePiece_eq form depth _ (isBlank_of_isNameStart hbegins)
    (ne_of_mem hbegins (by decide)), if_pos hbegins]
  have hstop : ∀ c ∈ (' ' :: rest).head?, isNamePart c = false := by
    rintro c ⟨⟩
    decide
  rw [takeWhile_append_blank (' ' :: rest) hcontinues hstop]

theorem Ident.lexes (ident : Ident) : LexesAs form depth (.name ident) := by
  refine ⟨ident.first, ident.rest, rfl, isBlank_of_isNameStart ident.begins, fun rest => ?_⟩
  rw [codePiece_word form depth rest ident.begins ident.continues, ident.free]
  rfl

theorem keyword_lexes (word : Keyword) : LexesAs form depth (.keyword word) := by
  have hspelling : ∃ c tail, word.text.toList = c :: tail ∧ isNameStart c = true ∧
      tail.all isNamePart = true ∧ wordKind (c :: tail) = .keyword word := by
    cases word <;> exact ⟨_, _, rfl, by decide, by decide, by decide⟩
  obtain ⟨c, tail, hchars, hbegins, hcontinues, hkind⟩ := hspelling
  refine ⟨c, tail, hchars, isBlank_of_isNameStart hbegins, fun rest => ?_⟩
  rw [codePiece_word form depth rest hbegins hcontinues, hkind]
  rfl

theorem digitsLength_append {digits : List Char} {rest : List Char}
    (hall : digits.all isDigitPart = true) (hstop : ∀ c ∈ rest.head?, isDigitPart c = false) :
    digitsLength (digits ++ rest) = digits.length :=
  congrArg List.length (takeWhile_append_blank rest hall hstop)

theorem Digits.all_chars (digits : Digits) : digits.chars.all isDigitPart = true := by
  simp [chars, isDigitPart, digits.begins, digits.continues]

theorem Digits.signLength_eq (digits : Digits) (rest : List Char) :
    signLength (digits.chars ++ rest) = 0 := by
  have hsign : ∀ sign ∈ ['-', '+'], digits.first ≠ sign := ne_of_mem digits.begins (by decide)
  simp only [List.mem_cons, List.not_mem_nil, or_false, forall_eq_or_imp, forall_eq] at hsign
  simp [Digits.chars, signLength, hsign]

/-- What is true of each of the ten digits is true of a digit. -/
theorem of_isDigit {P : Char → Prop} {c : Char} (hdigit : c.isDigit = true)
    (hdigits : ∀ offset < 10, P (Char.ofNat (48 + offset))) : P c := by
  have hbetween : 48 ≤ c.toNat ∧ c.toNat ≤ 57 := by simpa [Char.isDigit, UInt32.le_iff_toNat_le] using hdigit
  have hP := hdigits (c.toNat - 48) (by omega)
  rwa [Nat.add_sub_cancel' hbetween.1, Char.ofNat_toNat] at hP

theorem isBlank_of_isDigit {c : Char} (hdigit : c.isDigit = true) : Text.isBlank c = false :=
  of_isDigit (P := (Text.isBlank · = false)) hdigit (by decide +kernel)

theorem not_isNameStart_of_isDigit {c : Char} (hdigit : c.isDigit = true) : isNameStart c = false :=
  of_isDigit (P := (isNameStart · = false)) hdigit (by decide +kernel)

theorem not_isDigitPart_head? (exponent : Option Exponent) :
    ∀ c ∈ (exponent.elim [] Exponent.chars ++ ' ' :: rest).head?, isDigitPart c = false := by
  cases exponent with
  | none =>
    rintro c ⟨⟩
    decide
  | some exponent =>
    rintro c ⟨⟩
    rcases exponent.isLetter with hletter | hletter <;> rw [hletter] <;> decide

theorem not_isDigitPart_fraction? (fraction : Option Digits) (exponent : Option Exponent) :
    ∀ c ∈ ((fraction.elim [] fun digits => '.' :: digits.chars) ++
      (exponent.elim [] Exponent.chars ++ ' ' :: rest)).head?, isDigitPart c = false := by
  cases fraction with
  | none => exact not_isDigitPart_head? rest exponent
  | some digits =>
    rintro c ⟨⟩
    decide

/-- The exponent of a number is read to its end. -/
theorem exponentLength_eq (exponent : Option Exponent) :
    exponentLength (exponent.elim [] Exponent.chars ++ ' ' :: rest) =
      (exponent.elim [] Exponent.chars).length := by
  cases exponent with
  | none => simp [exponentLength]
  | some exponent =>
    obtain ⟨letter, hletter, sign, hsign, digits⟩ := exponent
    have hstop : ∀ c ∈ (' ' :: rest).head?, isDigitPart c = false := by
      rintro c ⟨⟩
      decide
    have hdigits := digitsLength_append digits.all_chars hstop
    have hdigit : (digits.chars ++ ' ' :: rest).head?.any Char.isDigit = true := digits.begins
    have hplain := digits.signLength_eq (' ' :: rest)
    simp only [Option.elim_some, Exponent.chars, List.cons_append, List.append_assoc, exponentLength,
      List.length_cons, List.length_append]
    rcases hsign with rfl | rfl | rfl
    · simp only [Option.toList_none, List.nil_append, hplain, List.drop_zero, hdigit, hletter, hdigits]
      simp
      omega
    · have hone : signLength ('+' :: (digits.chars ++ ' ' :: rest)) = 1 := rfl
      simp only [Option.toList_some, List.cons_append, List.nil_append, hone, List.drop_one,
        List.tail_cons, hdigit, hletter, hdigits]
      simp
      omega
    · have hone : signLength ('-' :: (digits.chars ++ ' ' :: rest)) = 1 := rfl
      simp only [Option.toList_some, List.cons_append, List.nil_append, hone, List.drop_one,
        List.tail_cons, hdigit, hletter, hdigits]
      simp
      omega

/-- The fraction of a number is read to its end, whether an exponent follows or not. -/
theorem fractionLength_eq (fraction : Option Digits) (exponent : Option Exponent) :
    fractionLength ((fraction.elim [] fun digits => '.' :: digits.chars) ++
        (exponent.elim [] Exponent.chars ++ ' ' :: rest)) =
      (fraction.elim [] fun digits => '.' :: digits.chars).length := by
  have hstop := not_isDigitPart_head? rest exponent
  cases fraction with
  | none =>
    have hpoint : ∀ c ∈ (exponent.elim [] Exponent.chars ++ ' ' :: rest).head?, c ≠ '.' := by
      cases exponent with
      | none => simp
      | some exponent => rcases exponent.isLetter with hletter | hletter <;> simp [Exponent.chars, hletter]
    simp only [Option.elim_none, List.nil_append, List.length_nil]
    unfold fractionLength
    split
    next hcons => exact absurd rfl (hpoint '.' (by rw [hcons]; rfl))
    next => rfl
  | some digits =>
    have hdigits := digitsLength_append digits.all_chars hstop
    simp only [Digits.chars, List.cons_append] at hdigits
    simp only [Option.elim_some, Digits.chars, List.cons_append, fractionLength, digits.begins, if_pos,
      hdigits]
    simp
    omega

theorem Numeral.lexes (value : Numeral) : LexesAs form depth (.number value) := by
  have hspecial : ∀ special ∈ ['-', '+', '%', '}', '{'], value.whole.first ≠ special :=
    ne_of_mem value.whole.begins (by decide)
  refine ⟨value.whole.first, value.tail, rfl, isBlank_of_isDigit value.whole.begins, fun rest => ?_⟩
  have hfraction := fractionLength_eq rest value.fraction value.exponent
  have hexponent := exponentLength_eq rest value.exponent
  have hwhole := digitsLength_append value.whole.continues
    (not_isDigitPart_fraction? rest value.fraction value.exponent)
  rw [codePiece_eq form depth _ (isBlank_of_isDigit value.whole.begins) hspecial,
    if_neg (by simp [not_isNameStart_of_isDigit value.whole.begins]), if_pos value.whole.begins]
  simp only [numberPiece, Numeral.tail, List.append_assoc, hwhole, List.drop_left, hfraction]
  rw [← List.drop_drop, List.drop_left, List.drop_left, hexponent]
  obtain ⟨whole, fraction, exponent⟩ := value
  cases fraction <;> cases exponent <;>
    simp [Lexeme.kind, Numeral.kind, Lexeme.depthAfter, Exponent.chars, Nat.add_assoc]
  omega

theorem stringLength_cons {quote c : Char} (hescape : c ≠ '\\') (hline : c ≠ '\n') :
    stringLength quote (c :: rest) = if c = quote then 1 else 1 + stringLength quote rest := by
  rw [stringLength, if_neg hline]
  · exact fun hc => absurd hc hescape
  · exact fun _ _ hc => absurd hc hescape

theorem stringLength_append {quote : Char} {body : List Char} (hquote : quote = '"' ∨ quote = '\'')
    (hbody : isQuotable quote body = true) :
    stringLength quote (body ++ quote :: rest) = body.length + 1 := by
  fun_induction isQuotable quote body with
  | case1 =>
    rw [List.nil_append, stringLength_cons, if_pos rfl, List.length_nil]
    · rcases hquote with rfl | rfl <;> decide
    · rcases hquote with rfl | rfl <;> decide
  | case2 => cases hbody
  | case3 c later ih =>
    simp only [List.cons_append, stringLength, ih hbody, List.length_cons]
    omega
  | case4 c later hsingle hescaped ih =>
    simp only [Bool.and_eq_true, bne_iff_ne, ne_eq] at hbody
    obtain ⟨⟨hline, hmark⟩, hlater⟩ := hbody
    have hescape : c ≠ '\\' := by
      rintro rfl
      cases later with
      | nil => exact hsingle rfl rfl
      | cons next later => exact hescaped next later rfl rfl
    rw [List.cons_append, stringLength_cons _ hescape hline, if_neg hmark, ih hlater, List.length_cons]
    omega

theorem Literal.lexes (value : Literal) : LexesAs form depth (.string value) := by
  have hplain : Text.isBlank value.quote = false ∧ isNameStart value.quote = false ∧
      value.quote.isDigit = false := by
    rcases value.isQuote with hquote | hquote <;> rw [hquote] <;> decide
  have hne : ∀ mark ∈ ['-', '+', '%', '}', '{'], value.quote ≠ mark :=
    ne_of_mem (P := fun c => c == '"' || c == '\'') (by simpa using value.isQuote) (by decide)
  obtain ⟨hblank, hname, hdigit⟩ := hplain
  refine ⟨value.quote, value.body ++ [value.quote], rfl, hblank, fun rest => ?_⟩
  rw [codePiece_eq form depth _ hblank hne, if_neg (by simp [hname]), if_neg (by simp [hdigit]),
    if_pos value.isQuote, List.append_assoc, List.singleton_append,
    stringLength_append (' ' :: rest) value.isQuote value.isBody]
  simp [Lexeme.kind, Lexeme.depthAfter]

/-- A symbol before a blank is not taken for a part of anything longer. -/
theorem codePiece_symbol {mark : Symbol} {c : Char} {tail : List Char}
    (hchars : mark.text.toList = c :: tail) : codePiece form depth c (tail ++ ' ' :: rest) =
      { kind := some (.symbol mark), more := tail.length
        next := .code form (Template.Lexer.depthAfter depth (some mark)) } := by
  have hplain : Text.isBlank c = false ∧ isNameStart c = false ∧ c.isDigit = false ∧
      ¬(c = '"' ∨ c = '\'') := by
    cases mark <;> simp [Symbol.text] at hchars <;> obtain ⟨rfl, -⟩ := hchars <;> decide
  have hcloser : closerLength? form depth (c :: (tail ++ ' ' :: rest)) = none := by
    cases mark <;> simp [Symbol.text] at hchars <;> obtain ⟨rfl, rfl⟩ := hchars <;> cases form <;>
      simp [closerLength?, signLength]
  have hopens : opensTag (c :: (tail ++ ' ' :: rest)) = false := by
    cases mark <;> simp [Symbol.text] at hchars <;> obtain ⟨rfl, rfl⟩ := hchars <;> simp [opensTag]
  have hsymbol : symbolPiece form depth c (tail ++ ' ' :: rest) =
      { kind := some (.symbol mark), more := tail.length
        next := .code form (Template.Lexer.depthAfter depth (some mark)) } := by
    cases mark <;> simp [Symbol.text] at hchars <;> obtain ⟨rfl, rfl⟩ := hchars <;>
      simp [symbolPiece, doubleSymbol?, symbol?] <;> rfl
  obtain ⟨hblank, hname, hdigit, hquote⟩ := hplain
  rw [codePiece, hcloser, hopens, if_neg (by simp [hblank])]
  simp only
  rw [if_neg (by simp), if_neg (by simp [hname]), if_neg (by simp [hdigit]), if_neg hquote, hsymbol]

theorem symbol_lexes (mark : Symbol) : LexesAs form depth (.symbol mark) := by
  have hspelling : ∃ c tail, mark.text.toList = c :: tail ∧ Text.isBlank c = false := by
    cases mark <;> exact ⟨_, _, rfl, by decide⟩
  obtain ⟨c, tail, hchars, hblank⟩ := hspelling
  exact ⟨c, tail, hchars, hblank, fun rest => codePiece_symbol form depth rest hchars⟩

/-- Every lexeme becomes one token if a blank follows. -/
theorem Lexeme.lexes (lexeme : Lexeme) : LexesAs form depth lexeme := by
  cases lexeme with
  | name ident => exact ident.lexes form depth
  | keyword word => exact keyword_lexes form depth word
  | number value => exact value.lexes form depth
  | string value => exact value.lexes form depth
  | symbol mark => exact symbol_lexes form depth mark

end Lexemes

section Tags

variable {form : TagForm} {place : Place}

/-- A piece that makes a token is cut off. -/
theorem tokensFrom_piece {mode next : Mode} {c : Char} {tail rest : List Char} {kind : TokenKind}
    (hpiece : piece mode c (tail ++ rest) = { kind := some kind, more := tail.length, next }) :
    tokensFrom mode place (c :: (tail ++ rest)) =
      { kind, start := place, text := String.ofList (c :: tail) } ::
        tokensFrom next (place.past (c :: tail)) rest := by
  rw [tokensFrom, hpiece]
  simp only [List.take_left, List.drop_left]

/-- One blank inside a tag is skipped. -/
theorem tokensFrom_blank {depth : Nat} {c : Char} {rest : List Char} (hblank : Text.isBlank c = false) :
    tokensFrom (.code form depth) place (' ' :: c :: rest) =
      tokensFrom (.code form depth) (place.after ' ') (c :: rest) := by
  have hpiece : piece (.code form depth) ' ' (c :: rest) =
      { kind := none, more := 0, next := .code form depth } := by
    have hspace : Text.isBlank ' ' = true := by decide
    rw [piece, codePiece, if_pos hspace, List.takeWhile_cons_of_neg (by simp [hblank])]
    rfl
  rw [tokensFrom, hpiece]
  rfl

/-- Printed lexemes are read one by one, whatever follows after a blank. -/
theorem tokensFrom_spaced (parts : List Part) (depth : Nat) (rest : List Char) :
    tokensFrom (.code form depth) place (Part.spaced parts ++ ' ' :: rest) =
      (Part.locate place parts).map (·.1) ++
        tokensFrom (.code form (Part.depthAfter depth parts)) (place.past (Part.spaced parts))
          (' ' :: rest) := by
  induction parts generalizing place depth with
  | nil => rfl
  | cons part parts ih =>
    obtain ⟨c, tail, hchars, hblank, hpiece⟩ := part.lexeme.lexes form depth
    have hblankNext : ∃ more, Part.spaced parts ++ ' ' :: rest = ' ' :: more := by
      cases parts with
      | nil => exact ⟨rest, rfl⟩
      | cons next parts => exact ⟨_, rfl⟩
    obtain ⟨more, hmore⟩ := hblankNext
    have hspaced : Part.spaced (part :: parts) ++ ' ' :: rest =
        ' ' :: c :: (tail ++ (Part.spaced parts ++ ' ' :: rest)) := by
      simp [Part.spaced, Part.chars, hchars]
    have hpast : place.past (Part.spaced (part :: parts)) =
        ((place.after ' ').past (c :: tail)).past (Part.spaced parts) := by
      rw [← Place.past_append, ← Place.past_cons]
      simp [Part.spaced, Part.chars, hchars]
    rw [hspaced, tokensFrom_blank hblank, tokensFrom_piece (by rw [hmore]; exact hpiece more), ih, hpast]
    simp [Part.locate, Part.kind, Part.text, Part.chars, hchars, Part.depthAfter]

theorem tokensFrom_opening (left : Trim) (rest : List Char) :
    tokensFrom .data place (opening form ++ left.chars ++ ' ' :: rest) =
      { kind := .tagBegin form, start := place, text := String.ofList (opening form ++ left.chars) } ::
        tokensFrom (.code form 0) (place.past (opening form ++ left.chars)) (' ' :: rest) := by
  obtain ⟨c, tail, hchars⟩ : ∃ c tail, opening form ++ left.chars = c :: tail := by
    cases form <;> exact ⟨_, _, rfl⟩
  rw [hchars]
  refine tokensFrom_piece ?_
  cases form <;> cases left <;> cases hchars <;> rfl

/-- A tag is closed once its braces are closed. -/
theorem tokensFrom_closing {depth : Nat} (right : Trim) (rest : List Char)
    (hdepth : form = .expression → depth = 0) :
    tokensFrom (.code form depth) place (' ' :: (right.chars ++ closing form ++ rest)) =
      { kind := .tagEnd form, start := place.after ' '
        text := String.ofList (right.chars ++ closing form) } ::
        tokensFrom .data ((place.after ' ').past (right.chars ++ closing form)) rest := by
  obtain ⟨c, tail, hchars, hblank⟩ : ∃ c tail, right.chars ++ closing form = c :: tail ∧
      Text.isBlank c = false := by
    cases form <;> cases right <;> exact ⟨_, _, rfl, by decide⟩
  rw [hchars, List.cons_append, tokensFrom_blank hblank]
  refine tokensFrom_piece ?_
  cases form with
  | expression =>
    obtain rfl := hdepth rfl
    cases right <;> cases hchars <;> rfl
  | statement => cases right <;> cases hchars <;> rfl

/-- A printed tag is read mark by mark and lexeme by lexeme. -/
theorem tokensFrom_tag (left right : Trim) (parts : List Part) (rest : List Char)
    (hcloses : form = .expression → Part.depthAfter 0 parts = 0) :
    let inside := place.past (opening form ++ left.chars)
    let behind := (inside.past (Part.spaced parts)).after ' '
    tokensFrom .data place (opening form ++ left.chars ++
        (Part.spaced parts ++ ' ' :: (right.chars ++ closing form ++ rest))) =
      { kind := .tagBegin form, start := place, text := String.ofList (opening form ++ left.chars) } ::
        ((Part.locate inside parts).map (·.1) ++
          { kind := .tagEnd form, start := behind, text := String.ofList (right.chars ++ closing form) } ::
            tokensFrom .data (behind.past (right.chars ++ closing form)) rest) := by
  intro inside behind
  obtain ⟨more, hmore⟩ : ∃ more,
      Part.spaced parts ++ ' ' :: (right.chars ++ closing form ++ rest) = ' ' :: more := by
    cases parts with
    | nil => exact ⟨_, rfl⟩
    | cons part parts => exact ⟨_, rfl⟩
  rw [hmore, tokensFrom_opening, ← hmore, tokensFrom_spaced, tokensFrom_closing right rest hcloses]

theorem isInsideTag_of_mem_locate {parts : List Part} {token : Token}
    (hmem : token ∈ (Part.locate place parts).map (·.1)) : token.kind.isInsideTag = true := by
  induction parts generalizing place with
  | nil => cases hmem
  | cons part parts ih =>
    rw [Part.locate, List.map_cons, List.mem_cons] at hmem
    rcases hmem with rfl | hmem
    · obtain ⟨lexeme, role⟩ := part
      cases lexeme with
      | number value =>
        simp only [Part.kind, Lexeme.kind, Numeral.kind]
        split <;> rfl
      | _ => rfl
    · exact ih hmem

/-- A tag reaches from its opening mark to the next closing mark. -/
theorem ofTokens_body {stop : Position} {first last : Token} {body rest : List Token}
    (hfirst : first.kind = .tagBegin form) (hbody : ∀ token ∈ body, token.kind.isInsideTag = true)
    (hlast : last.kind = .tagEnd form) :
    Tag.ofTokens stop (first :: (body ++ last :: rest)) =
      { form, start := first.start.position, body, after := last.stop.position } ::
        Tag.ofTokens stop rest := by
  have hbreak : last.kind.isInsideTag = false := by rw [hlast]; rfl
  have htake : (body ++ last :: rest).takeWhile (·.kind.isInsideTag) = body := by
    rw [List.takeWhile_append_of_pos hbody, List.takeWhile_cons_of_neg (by simp [hbreak]),
      List.append_nil]
  have hdrop : (body ++ last :: rest).dropWhile (·.kind.isInsideTag) = last :: rest := by
    rw [List.dropWhile_append_of_pos hbody, List.dropWhile_cons_of_neg (by simp [hbreak])]
  have hskip : Tag.ofTokens stop (last :: rest) = Tag.ofTokens stop rest :=
    Tag.ofTokens_tail (by rw [hlast]; rfl)
  rw [Tag.ofTokens, hfirst]
  simp only [htake, hdrop, hskip, Tag.stopBefore, hlast, TokenKind.isTagEnd, if_pos]

/-- A printed tag is read as one tag. -/
theorem ofTokens_tag {stop : Position} (parts : List Part) (rest : List Char)
    (hcloses : (Fragment.tag form parts).Closes) :
    Tag.ofTokens stop (tokensFrom .data place ((Fragment.tag form parts).chars ++ rest)) =
      Fragment.tagAt form place parts ::
        Tag.ofTokens stop (tokensFrom .data (place.past (Fragment.tag form parts).chars) rest) := by
  have hchars : (Fragment.tag form parts).chars ++ rest =
      opening form ++ Trim.unmarked.chars ++
        (Part.spaced parts ++ ' ' :: (Trim.unmarked.chars ++ closing form ++ rest)) := by
    simp [Fragment.chars, Trim.chars]
  have hdepth : form = .expression → Part.depthAfter 0 parts = 0 := by
    rintro rfl
    exact hcloses
  have hpast : place.past (Fragment.tag form parts).chars =
      (((place.past (opening form)).past (Part.spaced parts)).after ' ').past (closing form) := by
    simp [Fragment.chars, Place.past_append]
  rw [hchars, tokensFrom_tag .unmarked .unmarked parts rest hdepth,
    ofTokens_body rfl (fun token hmem => isInsideTag_of_mem_locate hmem) rfl, Fragment.tagAt, hpast]
  simp only [Trim.chars, List.append_nil, List.nil_append, Token.stop, String.toList_ofList]

/-- The text up to the next tag is read at once. -/
theorem textLength_append {text : List Char} (rest : List Char) (hplain : isPlain text = true) :
    textLength (text ++ rest) = text.length + textLength rest := by
  fun_induction isPlain text with
  | case1 => simp
  | case2 c =>
    rw [bne_iff_ne] at hplain
    simp [textLength, opensTag_of_ne rest hplain, Nat.add_comm]
  | case3 c next later ih =>
    rw [Bool.and_eq_true, Bool.not_eq_true'] at hplain
    obtain ⟨hopens, hlater⟩ := hplain
    have hsame : opensTag (c :: next :: (later ++ rest)) = opensTag (c :: next :: later) := by
      unfold opensTag
      split <;> simp_all
    have hrest := ih hlater
    simp only [List.cons_append] at hrest
    rw [List.cons_append, List.cons_append, textLength, hsame, hopens, hrest]
    simp only [Bool.false_eq_true, if_false, List.length_cons]
    omega

/-- What stands before the next opening mark is text. -/
theorem tokensFrom_ahead (place : Place) (text : List Char) :
    ∃ texts, (∀ token ∈ texts, token.kind = .text) ∧ tokensFrom .data place text =
      texts ++ tokensFrom .data (place.past (text.take (textLength text))) (text.drop (textLength text)) := by
  cases text with
  | nil => exact ⟨[], nofun, rfl⟩
  | cons c rest =>
    cases hopens : opensTag (c :: rest) with
    | true =>
      rw [textLength, if_pos hopens]
      exact ⟨[], nofun, rfl⟩
    | false =>
      have hpiece : piece .data c rest = { kind := some .text, more := textLength rest, next := .data } := by
        rw [piece]
        unfold dataPiece
        split
        next => simp [opensTag] at hopens
        next => simp [opensTag] at hopens
        next => simp [opensTag] at hopens
        next => rfl
      rw [tokensFrom, hpiece, textLength, hopens]
      simp only [Bool.false_eq_true, if_false, List.take_succ_cons, List.drop_succ_cons]
      exact ⟨[_], List.forall_mem_singleton.mpr rfl, rfl⟩

/-- Text makes no tag, so the tags begin with the next opening mark. -/
theorem ofTokens_ahead (stop : Position) (text : List Char) :
    Tag.ofTokens stop (tokensFrom .data place text) =
      Tag.ofTokens stop (tokensFrom .data (place.past (text.take (textLength text)))
        (text.drop (textLength text))) := by
  obtain ⟨texts, htexts, hread⟩ := tokensFrom_ahead place text
  rw [hread]
  clear hread
  induction texts with
  | nil => rfl
  | cons token rest ih =>
    obtain ⟨htoken, hrest⟩ := List.forall_mem_cons.mp htexts
    rw [List.cons_append, Tag.ofTokens_tail (by rw [htoken]; rfl), ih hrest]

theorem ofTokens_text {stop : Position} (content : PlainText) (rest : List Char) :
    Tag.ofTokens stop (tokensFrom .data place (content.chars ++ rest)) =
      Tag.ofTokens stop (tokensFrom .data (place.past content.chars) rest) := by
  rw [ofTokens_ahead stop (content.chars ++ rest), ofTokens_ahead stop rest,
    textLength_append rest content.isPlain, List.take_length_add_append, List.drop_length_add_append,
    Place.past_append]

/-- The tags of a printed template are those that were printed. -/
theorem ofTokens_fragments {stop : Position} (fragments : List Fragment)
    (hcloses : ∀ fragment ∈ fragments, fragment.Closes) :
    Tag.ofTokens stop (tokensFrom .data place (fragments.flatMap Fragment.chars)) =
      Fragment.tags place fragments := by
  induction fragments generalizing place with
  | nil =>
    rw [List.flatMap_nil, tokensFrom, Tag.ofTokens_tail rfl, Tag.ofTokens, Fragment.tags]
  | cons fragment rest ih =>
    obtain ⟨hfragment, hrest⟩ := List.forall_mem_cons.mp hcloses
    rw [List.flatMap_cons]
    cases fragment with
    | text content => exact (ofTokens_text content _).trans (ih hrest)
    | tag form parts => rw [ofTokens_tag parts _ hfragment, ih hrest, Fragment.tags]

end Tags

end TemplateAnalysis.Syntax
