import Mathlib.Data.List.Infix
import TemplateAnalysis.Proofs.Syntax.Lexing
import TemplateAnalysis.Proofs.Template.Lookahead

namespace TemplateAnalysis.Syntax

open Template (Symbol TagForm Token TokenKind tokenize)
open Template.Lexer

/-- What tokens spell, wherever they stand. -/
def spellings (tokens : List Token) : List (TokenKind × String) :=
  tokens.map fun token => (token.kind, token.text)

theorem spellings_cons (token : Token) (tokens : List Token) :
    spellings (token :: tokens) = (token.kind, token.text) :: spellings tokens := rfl

theorem spellings_append (first second : List Token) :
    spellings (first ++ second) = spellings first ++ spellings second :=
  List.map_append

/-- Whether no tag and no comment opens in a text. -/
def OpensNothing (text : List Char) : Prop :=
  ∀ mark ∈ ['{', '%', '#'], ¬ ['{', mark] <:+: text

instance (text : List Char) : Decidable (OpensNothing text) :=
  List.decidableBAll (fun mark => ¬ ['{', mark] <:+: text) ['{', '%', '#']

namespace Lexeme

/-- A lexeme as a token. -/
def spelling (lexeme : Lexeme) : TokenKind × String :=
  (lexeme.kind, String.ofList lexeme.chars)

/-- A tag that holds lexemes with single blanks between them and around them. -/
def printed (form : TagForm) (left : Trim) (lexemes : List Lexeme) (right : Trim) : List Char :=
  opening form ++ left.chars ++ lexemes.flatMap (' ' :: ·.chars) ++ ' ' :: right.chars ++ closing form

/-- The braces among lexemes form pairs: none closes before it opens, and none stays open. -/
structure Balanced (lexemes : List Lexeme) : Prop where
  opened : ∀ earlier, earlier <+: lexemes →
    earlier.count (.symbol .rightBrace) ≤ earlier.count (.symbol .leftBrace)
  closed : lexemes.count (.symbol .rightBrace) = lexemes.count (.symbol .leftBrace)

/-- A brace that closes is taken off the open ones if there is any. -/
theorem depthAfter_add_count {lexeme : Lexeme} {depth : Nat}
    (hopened : [lexeme].count (.symbol .rightBrace) ≤ depth + [lexeme].count (.symbol .leftBrace)) :
    lexeme.depthAfter depth + [lexeme].count (.symbol .rightBrace) =
      depth + [lexeme].count (.symbol .leftBrace) := by
  cases lexeme with
  | symbol mark =>
    cases mark <;> simp [depthAfter, Template.Lexer.depthAfter] at hopened ⊢
    omega
  | _ => simp [depthAfter]

end Lexeme

/-- While no brace closes that is not open, the number of open braces is a difference of counts. -/
theorem Part.depthAfter_add_count {parts : List Part} {depth : Nat}
    (hopened : ∀ earlier, earlier <+: parts.map (·.lexeme) →
      earlier.count (.symbol .rightBrace) ≤ depth + earlier.count (.symbol .leftBrace)) :
    depthAfter depth parts + (parts.map (·.lexeme)).count (.symbol .rightBrace) =
      depth + (parts.map (·.lexeme)).count (.symbol .leftBrace) := by
  induction parts generalizing depth with
  | nil => rfl
  | cons part parts ih =>
    rw [List.map_cons] at hopened ⊢
    have hfirst := Lexeme.depthAfter_add_count (hopened [part.lexeme] ⟨_, rfl⟩)
    have hlater : ∀ earlier, earlier <+: parts.map (·.lexeme) →
        earlier.count (.symbol .rightBrace) ≤
          part.lexeme.depthAfter depth + earlier.count (.symbol .leftBrace) := by
      intro earlier hearlier
      have hcount := hopened (part.lexeme :: earlier) ((List.prefix_cons_inj _).mpr hearlier)
      rw [← List.singleton_append, List.count_append, List.count_append] at hcount
      omega
    have hrest := ih hlater
    have hsplit : depthAfter depth (part :: parts) = depthAfter (part.lexeme.depthAfter depth) parts := rfl
    rw [hsplit, ← List.singleton_append, List.count_append, List.count_append]
    omega

/-- Lexemes whose roles do not matter. -/
def Part.bare (lexemes : List Lexeme) : List Part :=
  lexemes.map fun lexeme => { lexeme }

theorem Part.map_lexeme_bare (lexemes : List Lexeme) : (bare lexemes).map (·.lexeme) = lexemes := by
  rw [bare, List.map_map]
  exact List.map_id lexemes

theorem Lexeme.Balanced.depthAfter_eq {lexemes : List Lexeme} (hbalanced : Balanced lexemes) :
    Part.depthAfter 0 (Part.bare lexemes) = 0 := by
  have hopened : ∀ earlier, earlier <+: (Part.bare lexemes).map (·.lexeme) →
      earlier.count (.symbol .rightBrace) ≤ 0 + earlier.count (.symbol .leftBrace) := by
    intro earlier hearlier
    rw [Part.map_lexeme_bare] at hearlier
    rw [Nat.zero_add]
    exact hbalanced.opened earlier hearlier
  have hcount := Part.depthAfter_add_count hopened
  rw [Part.map_lexeme_bare, hbalanced.closed] at hcount
  omega

section Texts

variable {text : List Char}

theorem OpensNothing.tail {c : Char} (hnothing : OpensNothing (c :: text)) : OpensNothing text :=
  fun mark hmark hholds => hnothing mark hmark (hholds.trans (List.suffix_cons c text).isInfix)

theorem OpensNothing.opensTag_eq (hnothing : OpensNothing text) : opensTag text = false := by
  cases text with
  | nil => rfl
  | cons c rest =>
    rw [← Bool.not_eq_true]
    intro hopens
    obtain ⟨mark, inner, rfl, rfl, hmark⟩ := opensTag_cases hopens
    exact hnothing mark (by simpa using hmark) ⟨[], inner, rfl⟩

theorem OpensNothing.textLength_eq (hnothing : OpensNothing text) : textLength text = text.length := by
  induction text with
  | nil => rfl
  | cons c rest ih =>
    rw [textLength, hnothing.opensTag_eq, ih hnothing.tail]
    rfl

theorem isPlain_of_opensNothing (hnothing : OpensNothing text) (hlast : text.getLast? ≠ some '{') :
    isPlain text = true := by
  fun_induction isPlain text with
  | case1 => rfl
  | case2 c => simpa using hlast
  | case3 c next rest ih =>
    rw [hnothing.opensTag_eq, ih hnothing.tail (by simpa using hlast)]
    rfl

/-- A text before an opening mark is one token. -/
theorem tokensFrom_text {place : Place} {c : Char} {text rest : List Char}
    (hplain : isPlain (c :: text) = true) (hopens : opensTag rest = true) :
    tokensFrom .data place (c :: text ++ rest) =
      { kind := .text, start := place, text := String.ofList (c :: text) } ::
        tokensFrom .data (place.past (c :: text)) rest := by
  have hmark : textLength rest = 0 := by
    cases rest with
    | nil => rfl
    | cons c rest => rw [textLength, if_pos hopens]
  have hwhole := textLength_append rest hplain
  rw [hmark, List.cons_append, textLength] at hwhole
  split at hwhole
  next => simp at hwhole
  next hclosed =>
    refine tokensFrom_piece ?_
    rw [piece, dataPiece_of_plain (Bool.eq_false_of_not_eq_true hclosed)]
    simp only [List.length_cons] at hwhole
    congr
    omega

/-- A text that runs to the end of the input is one token. -/
theorem tokensFrom_lastText {place : Place} {text : List Char} (hne : text ≠ [])
    (hnothing : OpensNothing text) :
    spellings (tokensFrom .data place text) = [(.text, String.ofList text), (.endOfFile, "")] := by
  obtain ⟨c, rest, rfl⟩ := List.exists_cons_of_ne_nil hne
  have hpiece : piece .data c (rest ++ []) = { kind := some .text, more := rest.length, next := .data } := by
    rw [List.append_nil, piece, dataPiece_of_plain hnothing.opensTag_eq, hnothing.tail.textLength_eq]
  rw [← List.append_nil rest, tokensFrom_piece hpiece, List.append_nil, tokensFrom]
  rfl

end Texts

theorem Part.spellings_locate (place : Place) (parts : List Part) :
    spellings ((locate place parts).map (·.1)) = (parts.map (·.lexeme)).map Lexeme.spelling := by
  induction parts generalizing place with
  | nil => rfl
  | cons part parts ih =>
    rw [locate, List.map_cons, spellings_cons, ih]
    rfl

/-- Lexemes that are printed in a tag are read back as they are, whatever marks stand beside the
    marks of the tag. A statement closes even within braces; an expression needs them in pairs. The
    text before the tag must not end in a brace, which would open the tag one character early. -/
theorem tokenize_printed (form : TagForm) (left right : Trim) (lexemes : List Lexeme)
    {before after : List Char} (hbefore : before ≠ []) (hafter : after ≠ [])
    (hopensBefore : OpensNothing before) (hopensAfter : OpensNothing after)
    (hlast : before.getLast? ≠ some '{') (hbalanced : form = .expression → Lexeme.Balanced lexemes) :
    spellings (tokenize (before ++ Lexeme.printed form left lexemes right ++ after)) =
      [(.text, String.ofList before), (.tagBegin form, String.ofList (opening form ++ left.chars))] ++
        lexemes.map Lexeme.spelling ++
        [(.tagEnd form, String.ofList (right.chars ++ closing form)), (.text, String.ofList after),
          (.endOfFile, "")] := by
  have hprinted : Lexeme.printed form left lexemes right ++ after =
      opening form ++ left.chars ++ (Part.spaced (Part.bare lexemes) ++
        ' ' :: (right.chars ++ closing form ++ after)) := by
    simp [Lexeme.printed, Part.spaced, Part.bare, Part.chars, List.flatMap_map]
  have hmark : opensTag (Lexeme.printed form left lexemes right ++ after) = true := by
    rw [hprinted]
    cases form <;> rfl
  obtain ⟨c, text, rfl⟩ := List.exists_cons_of_ne_nil hbefore
  rw [tokenize, List.append_assoc, tokensFrom_text (isPlain_of_opensNothing hopensBefore hlast) hmark, hprinted,
    tokensFrom_tag left right _ after fun hform => (hbalanced hform).depthAfter_eq]
  simp only [spellings_cons, spellings_append, Part.spellings_locate, Part.map_lexeme_bare,
    tokensFrom_lastText hafter hopensAfter, List.cons_append, List.nil_append]

/-- Two dictionaries, one within the other, with a key that looks like a closing mark. The word behind
    the number is not its exponent, and the signs at the end do not belong to the closing mark. -/
def dictionaries : List Lexeme :=
  [.symbol .leftBrace,
    .string { quote := '"', body := "\x7d\\\"\x7d".toList, isQuote := Literal.isQuote_double, isBody := by decide },
    .symbol .colon, .symbol .leftBrace,
    .number { whole := { first := '1', rest := ['_'], begins := by decide, continues := by decide } },
    .name { first := 'e', rest := ['1'], begins := by decide, continues := by decide, free := by decide },
    .symbol .rightBrace, .symbol .rightBrace, .keyword .notKw, .symbol .percent, .symbol .minus]

theorem balanced_dictionaries : Lexeme.Balanced dictionaries where
  opened earlier hearlier := by
    have hcounts : ∀ earlier ∈ dictionaries.inits,
        earlier.count (.symbol .rightBrace) ≤ earlier.count (.symbol .leftBrace) := by decide +kernel
    exact hcounts earlier ((List.mem_inits _ _).mpr hearlier)
  closed := by decide +kernel

theorem tokenize_printed_dictionaries :
    let before := "a\x7d\x7d\x7b ".toList
    let after := "%\x7d\x7b".toList
    (before ≠ [] ∧ after ≠ [] ∧ OpensNothing before ∧ OpensNothing after ∧ before.getLast? ≠ some '{' ∧
      Lexeme.Balanced dictionaries) ∧
    spellings (tokenize (before ++ Lexeme.printed .expression .strip dictionaries .keep ++ after)) =
      [(.text, "a\x7d\x7d\x7b "), (.tagBegin .expression, "\x7b\x7b-"), (.symbol .leftBrace, "\x7b"),
        (.string, "\"\x7d\\\"\x7d\""), (.symbol .colon, ":"), (.symbol .leftBrace, "\x7b"), (.integer, "1_"),
        (.identifier, "e1"), (.symbol .rightBrace, "\x7d"), (.symbol .rightBrace, "\x7d"),
        (.keyword .notKw, "not"), (.symbol .percent, "%"), (.symbol .minus, "-"),
        (.tagEnd .expression, "+\x7d\x7d"), (.text, "%\x7d\x7b"), (.endOfFile, "")] := by
  intro before after
  have hopensBefore : OpensNothing before := by decide +kernel
  have hopensAfter : OpensNothing after := by decide +kernel
  have hbefore : before ≠ [] := by decide +kernel
  have hafter : after ≠ [] := by decide +kernel
  have hlast : before.getLast? ≠ some '{' := by decide +kernel
  refine ⟨⟨hbefore, hafter, hopensBefore, hopensAfter, hlast, balanced_dictionaries⟩, ?_⟩
  rw [tokenize_printed .expression .strip .keep dictionaries hbefore hafter hopensBefore hopensAfter hlast
    fun _ => balanced_dictionaries]
  decide +kernel

end TemplateAnalysis.Syntax
