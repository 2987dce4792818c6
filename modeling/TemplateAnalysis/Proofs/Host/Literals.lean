import TemplateAnalysis.Proofs.Host.Lexemes

namespace TemplateAnalysis.Host

variable {language : HostLanguage}

/-- The token of a literal that stands at a place. -/
def Literal.token (written : Literal language) (place : Place) : Token :=
  { kind := .string, start := place, text := String.ofList written.chars }

/-- A token that is no literal lies between two places. -/
structure Token.Within (start stop : Place) (token : Token) : Prop where
  kind : token.kind ≠ .string
  start : start.offset ≤ token.start.offset
  nonempty : token.start.offset < token.stop.offset
  stop : token.stop.offset ≤ stop.offset

theorem Token.Within.mono {token : Token} {start start' stop : Place} (hwithin : token.Within start' stop)
    (hle : start.offset ≤ start'.offset) : token.Within start stop :=
  { hwithin with start := hle.trans hwithin.start }

namespace Part

/-- The token of a part that stands at a place, if it is a literal. -/
def token? (place : Place) : Part language → Option Token
  | .literal written => some (written.token place)
  | _ => none

/-- Where a part ends that stands at a place. -/
def stop (place : Place) (part : Part language) : Place :=
  place.past part.chars

/-- What is read of a part at a place: the token of a literal, nothing of a comment, and of anything else
    tokens that are no literals and lie within the part. -/
def Reads (place : Place) (part : Part language) (tokens : List Token) : Prop :=
  match part with
  | .literal written => tokens = [written.token place]
  | .comment _ => tokens = []
  | _ => ∀ token ∈ tokens, token.Within place (part.stop place)

end Part

namespace Lexer

theorem tokensFrom_cons (start : Place) (c : Char) (rest : List Char) :
    tokensFrom language start (c :: rest) =
      ((piece language c rest).kind.map fun kind =>
        { kind, start, text := String.ofList (c :: rest.take (piece language c rest).more) }).toList ++
        tokensFrom language (start.past (c :: rest.take (piece language c rest).more))
          (rest.drop (piece language c rest).more) := by
  rw [tokensFrom]
  split
  next kind hkind => rw [hkind]; rfl
  next hkind => rw [hkind]; rfl

/-- A text that is one piece makes its token, if it makes any. -/
theorem tokensFrom_piece {c : Char} {tail later : List Char} {kind : Option TokenKind}
    (hpiece : piece language c (tail ++ later) = { kind, more := tail.length }) (place : Place) :
    tokensFrom language place (c :: tail ++ later) =
      (kind.map fun kind => { kind, start := place, text := String.ofList (c :: tail) }).toList ++
        tokensFrom language (place.past (c :: tail)) later := by
  rw [List.cons_append, tokensFrom_cons, hpiece]
  simp only [List.take_left, List.drop_left]

theorem tokensFrom_blanks {gap : List Char} (hgap : ∀ c ∈ gap, Text.isBlank c = true) (place : Place)
    (later : List Char) :
    tokensFrom language place (gap ++ later) = tokensFrom language (place.past gap) later := by
  induction gap generalizing place with
  | nil => rfl
  | cons c gap ih =>
    obtain ⟨hblank, hrest⟩ := List.forall_mem_cons.mp hgap
    have hpiece := piece_of_isBlank language (gap ++ later) hblank
    rw [List.cons_append, tokensFrom_cons, hpiece]
    exact ih hrest (place.after c)

theorem tokensFrom_comment {comment later : List Char} (hcomment : IsComment later language comment)
    (place : Place) :
    tokensFrom language place (comment ++ later) = tokensFrom language (place.past comment) later := by
  have hread := comment?_append hcomment
  obtain ⟨c, tail, rfl, hblank⟩ : ∃ c tail, comment = c :: tail ∧ Text.isBlank c = false := by
    cases hcomment <;> exact ⟨_, _, rfl, by decide⟩
  exact tokensFrom_piece (piece_of_comment? hblank hread) place

/-- Words, numbers and punctuation make tokens that lie within them. -/
theorem exists_tokensFrom_code {text later : List Char} (hcode : IsCode language text)
    (hnext : BlankNext later) (place : Place) : ∃ tokens,
      tokensFrom language place (text ++ later) =
        tokens ++ tokensFrom language (place.past text) later ∧
      ∀ token ∈ tokens, token.Within place (place.past text) := by
  induction hlength : text.length using Nat.strong_induction_on generalizing text place with
  | _ length ih =>
    subst hlength
    cases text with
    | nil => exact ⟨[], rfl, fun _ hmem => nomatch hmem⟩
    | cons c tail =>
      obtain ⟨kind, more, hpiece, hkind, hmore⟩ := hcode.piece_eq hnext
      have hrest := hcode.of_suffix ((List.drop_suffix more tail).trans (List.suffix_cons c tail))
      obtain ⟨tokens, hread, htokens⟩ := ih (tail.drop more).length
        (by simp only [List.length_drop, List.length_cons]; omega) hrest
        (place.past (c :: tail.take more)) rfl
      have hpast : (place.past (c :: tail.take more)).past (tail.drop more) = place.past (c :: tail) := by
        rw [← Place.past_append, List.cons_append, List.take_append_drop]
      rw [hpast] at hread htokens
      have hfirst : place.offset < (place.past (c :: tail.take more)).offset :=
        place.offset_lt_past (List.cons_ne_nil _ _)
      have hlast : (place.past (c :: tail.take more)).offset ≤ (place.past (c :: tail)).offset :=
        hpast ▸ Place.offset_le_past _ (tail.drop more)
      refine ⟨{ kind, start := place, text := String.ofList (c :: tail.take more) } :: tokens, ?_, ?_⟩
      · rw [List.cons_append, tokensFrom_cons, hpiece]
        simp only
        rw [List.take_append_of_le_length hmore, List.drop_append_of_le_length hmore, hread]
        rfl
      · refine List.forall_mem_cons.mpr ⟨⟨hkind, le_refl _, ?_, ?_⟩, fun token hmem =>
          (htokens token hmem).mono hfirst.le⟩
        · rwa [Token.stop, String.toList_ofList]
        · rwa [Token.stop, String.toList_ofList]

/-- Each part of a program is read on its own. -/
theorem exists_tokensFrom_part {part : Part language} {later : List Char} (hnext : BlankNext later)
    (hcomment : ∀ text, part = .comment text → IsComment later language text)
    (hplain : ∀ written, part = .literal written → written.EndsPlainly) (place : Place) : ∃ tokens,
      tokensFrom language place (part.chars ++ later) =
        tokens ++ tokensFrom language (part.stop place) later ∧ part.Reads place tokens := by
  cases part with
  | code text hcode => exact exists_tokensFrom_code hcode hnext place
  | lifetime c rest hlanguage hname hcode =>
    obtain ⟨tokens, hread, htokens⟩ := exists_tokensFrom_code hcode hnext (place.after '\'')
    have hafter : place.offset ≤ (place.after '\'').offset := Nat.le_add_right _ _
    refine ⟨tokens, ?_, fun token hmem => (htokens token hmem).mono hafter⟩
    rw [Part.chars, List.cons_append, tokensFrom_cons, hcode.piece_lifetime hlanguage hname hnext]
    exact hread
  | comment text => exact ⟨[], tokensFrom_comment (hcomment text rfl) place, rfl⟩
  | literal written =>
    obtain ⟨c, tail, hcons⟩ := List.exists_cons_of_ne_nil written.chars_ne_nil
    have hpiece := Literal.piece_eq (hplain written rfl) hnext hcons
    refine ⟨[written.token place], ?_, rfl⟩
    rw [Part.stop, Part.chars, Literal.token, hcons, tokensFrom_piece hpiece]
    rfl

end Lexer

/-- The parts of a program with the places at which they stand. -/
def placed (place : Place) : List (Item language) → List (Place × Part language)
  | [] => []
  | item :: items => (place, item.part) :: placed ((item.part.stop place).past item.gap) items

/-- The tokens of a program are what is read of its parts, one after another. -/
inductive ReadsAll : List (Place × Part language) → List Token → Prop
  | nil : ReadsAll [] []
  | cons {place : Place} {part : Part language} {parts : List (Place × Part language)}
      {first later : List Token} (hreads : part.Reads place first) (hlater : ReadsAll parts later) :
      ReadsAll ((place, part) :: parts) (first ++ later)

theorem Separated.blankNext {item : Item language} {items : List (Item language)}
    (hgap : item.gap = [] → items = []) : BlankNext (item.gap ++ spelling items) := by
  intro c hc
  cases hcons : item.gap with
  | nil =>
    rw [hcons, hgap hcons] at hc
    cases hc
  | cons first rest =>
    rw [hcons] at hc
    obtain rfl := Option.some.inj hc
    exact item.blank first (hcons ▸ List.mem_cons_self)

theorem Separated.readsAll {items : List (Item language)} (hseparated : Separated items)
    (hplain : ∀ item ∈ items, ∀ written, item.part = .literal written → written.EndsPlainly)
    (place : Place) :
    ReadsAll (placed place items) (Lexer.tokensFrom language place (spelling items)) := by
  induction hseparated generalizing place with
  | nil =>
    rw [spelling, Lexer.tokensFrom]
    exact .nil
  | @cons item items hgap hcomment hitems ih =>
    obtain ⟨hfirst, hrest⟩ := List.forall_mem_cons.mp hplain
    obtain ⟨tokens, hread, hreads⟩ :=
      Lexer.exists_tokensFrom_part (Separated.blankNext hgap) hcomment hfirst place
    rw [spelling, hread, Lexer.tokensFrom_blanks item.blank]
    exact .cons hreads (ih hrest _)

/-- How the tokens of a program go with the parts of which it is put together. -/
structure ReadsLiterals (parts : List (Place × Part language)) (tokens : List Token) : Prop where
  /-- The tokens of literals are the literals of the program, each of them as a whole. -/
  literals : tokens.filter (·.kind == .string) = parts.filterMap fun (place, part) => part.token? place
  /-- Any other token lies within a part that is neither a literal nor a comment. -/
  others : ∀ token ∈ tokens, token.kind ≠ .string → ∃ place part, (place, part) ∈ parts ∧
    (∀ written, part ≠ .literal written) ∧ (∀ text, part ≠ .comment text) ∧
    token.Within place (part.stop place)
  /-- No token begins within a literal, behind its first character. -/
  outsideLiterals : ∀ place written, (place, .literal written) ∈ parts → ∀ token ∈ tokens,
    token.start.offset ≤ place.offset ∨ (place.past written.chars).offset ≤ token.start.offset
  /-- No token begins within a comment. -/
  outsideComments : ∀ place text, (place, .comment text) ∈ parts → ∀ token ∈ tokens,
    token.start.offset < place.offset ∨ (place.past text).offset ≤ token.start.offset

/-- What is read of a part lies within it. -/
theorem Part.Reads.within {place : Place} {part : Part language} {tokens : List Token}
    (hreads : part.Reads place tokens) : ∀ token ∈ tokens, place.offset ≤ token.start.offset ∧
      token.start.offset < (part.stop place).offset := by
  intro token hmem
  cases part with
  | code | lifetime =>
    have hwithin := hreads token hmem
    exact ⟨hwithin.start, hwithin.nonempty.trans_le hwithin.stop⟩
  | comment =>
    rw [show tokens = [] from hreads] at hmem
    cases hmem
  | literal written =>
    rw [show tokens = [written.token place] from hreads] at hmem
    obtain rfl := List.mem_singleton.mp hmem
    exact ⟨le_refl _, place.offset_lt_past written.chars_ne_nil⟩

theorem Part.Reads.filter {place : Place} {part : Part language} {tokens : List Token}
    (hreads : part.Reads place tokens) :
    tokens.filter (·.kind == .string) = (part.token? place).toList := by
  cases part with
  | code | lifetime =>
    refine List.filter_eq_nil_iff.mpr fun token hmem => ?_
    simpa using (hreads token hmem).kind
  | comment => rw [show tokens = [] from hreads]; rfl
  | literal written => rw [show tokens = [written.token place] from hreads]; rfl

/-- Parts stand behind one another. -/
def Ordered (parts : List (Place × Part language)) : Prop :=
  parts.Pairwise fun first second => (first.2.stop first.1).offset ≤ second.1.offset

theorem placed_ordered (place : Place) (items : List (Item language)) :
    (∀ part ∈ placed place items, place.offset ≤ part.1.offset) ∧ Ordered (placed place items) := by
  induction items generalizing place with
  | nil => exact ⟨fun _ hmem => (nomatch hmem), List.Pairwise.nil⟩
  | cons item items ih =>
    obtain ⟨hafter, hordered⟩ := ih ((item.part.stop place).past item.gap)
    have hstop : place.offset ≤ (item.part.stop place).offset := place.offset_le_past _
    have hgap : (item.part.stop place).offset ≤ ((item.part.stop place).past item.gap).offset :=
      Place.offset_le_past _ _
    exact ⟨List.forall_mem_cons.mpr ⟨le_refl _, fun part hmem => (hstop.trans hgap).trans (hafter part hmem)⟩,
      List.pairwise_cons.mpr ⟨fun part hmem => hgap.trans (hafter part hmem), hordered⟩⟩

namespace ReadsAll

variable {parts : List (Place × Part language)} {tokens : List Token} {token : Token}

theorem filter (hreads : ReadsAll parts tokens) : tokens.filter (·.kind == .string) =
    parts.filterMap fun (place, part) => part.token? place := by
  induction hreads with
  | nil => rfl
  | @cons place part parts first later hfirst _ ih =>
    rw [List.filter_append, hfirst.filter, ih, List.filterMap_cons]
    cases part <;> rfl

/-- Each token is read of some part. -/
theorem exists_part (hreads : ReadsAll parts tokens) (hmem : token ∈ tokens) :
    ∃ place part, (place, part) ∈ parts ∧ ∃ first, part.Reads place first ∧ token ∈ first := by
  induction hreads with
  | nil => cases hmem
  | @cons place part parts first later hfirst _ ih =>
    rcases List.mem_append.mp hmem with hmem | hmem
    · exact ⟨place, part, List.mem_cons_self, first, hfirst, hmem⟩
    · obtain ⟨place', part', hpart, hread⟩ := ih hmem
      exact ⟨place', part', List.mem_cons_of_mem _ hpart, hread⟩

/-- A token that is not read of a part stands before it or behind it. -/
theorem outside (hreads : ReadsAll parts tokens) (hordered : Ordered parts) {place : Place}
    {part : Part language} (hpart : (place, part) ∈ parts) (hmem : token ∈ tokens) :
    (∃ first, part.Reads place first ∧ token ∈ first) ∨ token.start.offset < place.offset ∨
      (part.stop place).offset ≤ token.start.offset := by
  induction hreads with
  | nil => cases hmem
  | @cons place' part' parts first later hfirst hlater ih =>
    obtain ⟨hbehind, hrest⟩ := List.pairwise_cons.mp hordered
    rcases List.mem_cons.mp hpart with hhead | hpart
    · obtain ⟨rfl, rfl⟩ := Prod.mk.inj hhead
      rcases List.mem_append.mp hmem with hmem | hmem
      · exact .inl ⟨first, hfirst, hmem⟩
      · obtain ⟨place'', part'', hother, tokens, hread, htoken⟩ := hlater.exists_part hmem
        exact .inr (.inr ((hbehind _ hother).trans (hread.within token htoken).1))
    · rcases List.mem_append.mp hmem with hmem | hmem
      · exact .inr (.inl ((hfirst.within token hmem).2.trans_le (hbehind _ hpart)))
      · exact ih hrest hpart hmem

end ReadsAll

/-- Literals are read at their true extent: in every program whose parts stand between blanks the tokens
    of literals are its literals, and no token begins within a literal or a comment. The literals must
    end plainly. -/
theorem tokenize_literals {leading : List Char} {items : List (Item language)}
    (hleading : ∀ c ∈ leading, Text.isBlank c = true) (hseparated : Separated items)
    (hplain : ∀ item ∈ items, ∀ written, item.part = .literal written → written.EndsPlainly) :
    ReadsLiterals (placed (Place.past {} leading) items)
      (tokenize language (leading ++ spelling items)) := by
  have hreads := hseparated.readsAll hplain (Place.past {} leading)
  have hordered := (placed_ordered (Place.past {} leading) items).2
  rw [tokenize, Lexer.tokensFrom_blanks hleading]
  refine ⟨hreads.filter, fun token hmem hkind => ?_, fun place written hpart token hmem => ?_,
    fun place text hpart token hmem => ?_⟩
  · obtain ⟨place, part, hpart, first, hread, htoken⟩ := hreads.exists_part hmem
    refine ⟨place, part, hpart, ?_⟩
    cases part with
    | code | lifetime => exact ⟨by simp, by simp, hread token htoken⟩
    | comment =>
      rw [show first = [] from hread] at htoken
      cases htoken
    | literal written =>
      rw [show first = [written.token place] from hread] at htoken
      exact absurd (List.mem_singleton.mp htoken ▸ rfl) hkind
  · rcases hreads.outside hordered hpart hmem with ⟨first, hread, htoken⟩ | hbefore | hbehind
    · rw [show first = [written.token place] from hread] at htoken
      rw [List.mem_singleton.mp htoken]
      exact .inl (le_refl _)
    · exact .inl hbefore.le
    · exact .inr hbehind
  · rcases hreads.outside hordered hpart hmem with ⟨first, hread, htoken⟩ | hbefore | hbehind
    · rw [show first = [] from hread] at htoken
      cases htoken
    · exact .inl hbefore
    · exact .inr hbehind

/-- A string with an escaped quote mark, a lifetime, a comment within a comment, a raw string that holds a
    quote mark, and an escape between apostrophes. -/
def severalLiterals : List (Item .rust) := [
  { part := .literal (.quoted ['b'] '"' ['\\', '"', '"'] (by decide) (by decide) (.escape .ends))
    gap := [' '], blank := List.all_eq_true.mp rfl },
  { part := .lifetime 'a' [] rfl (by decide)
      { plain := List.forall_mem_singleton.mpr (by decide +kernel), slashes := by decide, hash := by decide }
    gap := ['\n'], blank := List.all_eq_true.mp rfl },
  { part := .comment "/* /* \" */ */".toList, gap := ['\t'], blank := List.all_eq_true.mp rfl },
  { part := .literal (.raw ['r'] 1 ['"'] rfl (by decide) (by decide))
    gap := [' '], blank := List.all_eq_true.mp rfl },
  { part := .literal (.escape 'n' [] rfl (by decide) (by decide)), gap := [], blank := nofun }]

theorem severalLiterals_separated : Separated severalLiterals := by
  refine .cons nofun nofun (.cons nofun nofun (.cons nofun ?_ (.cons nofun nofun
    (.cons (fun _ => rfl) nofun .nil))))
  rintro _ ⟨⟩
  have hread : Lexer.comment? .rust "/* /* \" */ */\tr#\"\"\"# '\\n'".toList = some 13 := by decide
  exact (Lexer.comment?_sound hread).2.2

theorem tokenize_literals_several :
    (∀ c ∈ [' '], Text.isBlank c = true) ∧ Separated severalLiterals ∧
      (∀ item ∈ severalLiterals, ∀ written, item.part = .literal written → written.EndsPlainly) ∧
      ReadsLiterals (placed (Place.past {} [' ']) severalLiterals)
        (tokenize .rust ([' '] ++ spelling severalLiterals)) := by
  have hplain : ∀ item ∈ severalLiterals, ∀ written, item.part = .literal written →
      written.EndsPlainly := by
    simp only [severalLiterals, List.forall_mem_cons]
    refine ⟨?_, ?_, ?_, ?_, ?_, List.forall_mem_nil _⟩ <;> rintro _ ⟨⟩
    · rintro ⟨⟩
    · trivial
    · show 'n' ≠ '\''
      decide
  have hleading : ∀ c ∈ [' '], Text.isBlank c = true := List.all_eq_true.mp rfl
  exact ⟨hleading, severalLiterals_separated, hplain,
    tokenize_literals hleading severalLiterals_separated hplain⟩

/-- A program of one literal. -/
def Literal.program (written : Literal language) : List (Item language) :=
  [{ part := .literal written, gap := [], blank := nofun }]

theorem Literal.program_separated (written : Literal language) : Separated written.program :=
  .cons (fun _ => rfl) nofun .nil

/-- An apostrophe that is escaped, as a character literal. -/
def escapedApostrophe : Literal .rust :=
  .escape '\'' [] rfl (by decide) (by decide)

/-- A string between marks of three quote marks that holds such a mark behind a backslash. -/
def escapedMark : Literal .python :=
  .tripleQuoted [] '"' "\\\"\"\" \"\"\"".toList rfl (by decide) (by decide)
    (.escape (.plain (by decide) (by decide) nofun (.plain (by decide) (by decide) nofun
      (.plain (by decide) (by decide) nofun .ends))))

/-- A string on two lines, with a backslash before a line end of two characters. -/
def escapedLineEnd : Literal .python :=
  .quoted [] '"' ['\\', '\r', '\n', '"'] (by decide) (by decide) (.lineEnd .ends)

/-- Where a backslash is overlooked, literals are cut short. -/
theorem literals_cut_short :
    (Separated escapedApostrophe.program ∧
      ¬ ReadsLiterals (placed {} escapedApostrophe.program)
        (tokenize .rust (spelling escapedApostrophe.program))) ∧
    (Separated escapedMark.program ∧
      ¬ ReadsLiterals (placed {} escapedMark.program)
        (tokenize .python (spelling escapedMark.program))) ∧
    Separated escapedLineEnd.program ∧
      ¬ ReadsLiterals (placed {} escapedLineEnd.program)
        (tokenize .python (spelling escapedLineEnd.program)) := by
  refine ⟨⟨Literal.program_separated _, fun hreads => absurd hreads.literals ?_⟩,
    ⟨Literal.program_separated _, fun hreads => absurd hreads.literals ?_⟩,
    Literal.program_separated _, fun hreads => absurd hreads.literals ?_⟩
  all_goals decide +kernel

end TemplateAnalysis.Host
