import Mathlib.Data.List.TakeWhile
import TemplateAnalysis.Proofs.Template.Layout
import TemplateAnalysis.Proofs.Template.Order

namespace TemplateAnalysis

namespace Template

namespace Lexer

/-- The mark that closes a tag of some form, without the mark of white space control. -/
def closingMark : TagForm → List Char
  | .expression => ['}', '}']
  | .statement => ['%', '}']

theorem length_closingMark (form : TagForm) : (closingMark form).length = 2 := by
  cases form <;> rfl

/-- What begins here settles what is read before it: two characters are enough, and three where the
    letter of an exponent might come first. -/
def Settles (text : List Char) : Prop :=
  2 ≤ text.length ∧ ((∃ c ∈ text.head?, c = 'e' ∨ c = 'E') → 3 ≤ text.length)

namespace Settles

variable {text : List Char}

theorem of_suffix {rest : List Char} (hsettles : Settles rest) (hsuffix : rest <:+ text) :
    Settles text := by
  have hle := hsuffix.length_le
  refine ⟨hsettles.1.trans hle, fun hletter => ?_⟩
  rcases hle.eq_or_lt with hsame | hlonger
  · rw [← hsuffix.eq_of_length hsame] at hletter ⊢
    exact hsettles.2 hletter
  · exact Nat.succ_le_of_lt (hsettles.1.trans_lt hlonger)

theorem of_drop {count : Nat} (hsettles : Settles (text.drop count)) : Settles text :=
  hsettles.of_suffix (List.drop_suffix count text)

/-- No mark that closes a tag begins with the letter of an exponent. -/
theorem of_closingMark {form : TagForm} (hbegins : closingMark form <+: text) : Settles text := by
  obtain ⟨tail, rfl⟩ := hbegins
  refine ⟨?_, fun ⟨c, hc, hletter⟩ => ?_⟩
  · cases form <;> simp [closingMark]
  · cases form <;> cases hc <;> simp at hletter

theorem exists_cons (hsettles : Settles text) :
    ∃ first second rest, text = first :: second :: rest := by
  match text, hsettles.1 with
  | first :: second :: rest, _ => exact ⟨first, second, rest, rfl⟩

end Settles

/-- A text ends in a mark that closes a tag. No token that begins before such a mark looks ahead
    beyond it: not even a number that an exponent might follow. -/
def EndsInMark (text : List Char) : Prop :=
  ∃ form, closingMark form <:+ text

namespace EndsInMark

variable {text : List Char}

theorem of_suffix {rest : List Char} (hends : EndsInMark rest) (hsuffix : rest <:+ text) :
    EndsInMark text := by
  obtain ⟨form, hrest⟩ := hends
  exact ⟨form, hrest.trans hsuffix⟩

theorem settles (hends : EndsInMark text) : Settles text := by
  obtain ⟨form, hsuffix⟩ := hends
  exact (Settles.of_closingMark (List.prefix_refl _)).of_suffix hsuffix

end EndsInMark

section Lookahead

variable {text later : List Char} (later' : List Char)

theorem drop_append {count : Nat} (hsettles : Settles (text.drop count)) :
    (text ++ later').drop count = text.drop count ++ later' := by
  have hlong := hsettles.1
  rw [List.length_drop] at hlong
  exact List.drop_append_of_le_length (by omega)

theorem take_append {count : Nat} (hsettles : Settles (text.drop count)) :
    (text ++ later').take count = text.take count := by
  have hlong := hsettles.1
  rw [List.length_drop] at hlong
  exact List.take_append_of_le_length (by omega)

theorem takeWhile_congr {P : Char → Bool}
    (hsettles : Settles (text.drop ((text ++ later).takeWhile P).length)) :
    (text ++ later').takeWhile P = (text ++ later).takeWhile P := by
  have hpart : ¬ (text.takeWhile P).length = text.length := by
    intro hwhole
    have hle : text.length ≤ ((text ++ later).takeWhile P).length := by
      rw [List.takeWhile_append, if_pos hwhole, List.length_append]
      exact Nat.le_add_right _ _
    rw [List.drop_of_length_le hle] at hsettles
    exact absurd hsettles.1 (by simp)
  rw [List.takeWhile_append, if_neg hpart, List.takeWhile_append, if_neg hpart]

theorem opensTag_cons (first second : Char) (rest : List Char) :
    opensTag (first :: second :: rest) =
      (first == '{' && (second == '{' || second == '%' || second == '#')) := by
  unfold opensTag
  split
  next hcons =>
    obtain ⟨rfl, hrest⟩ := List.cons.inj hcons
    obtain ⟨rfl, rfl⟩ := List.cons.inj hrest
    simp
  next hother =>
    have hne : first ≠ '{' := by
      rintro rfl
      exact hother _ _ rfl
    simp [hne]

theorem opensTag_append_eq (hlong : 2 ≤ text.length) : opensTag (text ++ later') = opensTag text := by
  match text, hlong with
  | first :: second :: rest, _ =>
    rw [List.cons_append, List.cons_append, opensTag_cons, opensTag_cons]

theorem signLength_append (hne : text ≠ []) : signLength (text ++ later') = signLength text := by
  match text, hne with
  | c :: rest, _ => rfl

theorem signLength_le (text : List Char) : signLength text ≤ 1 := by
  unfold signLength
  split
  · split <;> simp
  · simp

theorem textLength_congr (hsettles : Settles (text.drop (textLength (text ++ later)))) :
    textLength (text ++ later') = textLength (text ++ later) := by
  induction text with
  | nil => exact absurd hsettles.1 (by simp)
  | cons c rest ih =>
    have hlong := hsettles.of_drop.1
    rw [List.cons_append, List.cons_append, textLength, textLength, ← List.cons_append,
      ← List.cons_append, opensTag_append_eq later' hlong, opensTag_append_eq later hlong]
    cases hopens : opensTag (c :: rest) with
    | true => rfl
    | false =>
      rw [List.cons_append, textLength, ← List.cons_append, opensTag_append_eq later hlong,
        hopens] at hsettles
      rw [ih hsettles]

theorem digitsLength_congr (hsettles : Settles (text.drop (digitsLength (text ++ later)))) :
    digitsLength (text ++ later') = digitsLength (text ++ later) :=
  congrArg List.length (takeWhile_congr later' hsettles)

theorem fractionLength_congr (hsettles : Settles (text.drop (fractionLength (text ++ later)))) :
    fractionLength (text ++ later') = fractionLength (text ++ later) := by
  obtain ⟨point, digit, rest, rfl⟩ := hsettles.of_drop.exists_cons
  simp only [List.cons_append] at hsettles ⊢
  by_cases hpoint : point = '.'
  · subst hpoint
    rw [fractionLength, fractionLength]
    split
    next hdigit =>
      rw [fractionLength, if_pos hdigit, Nat.add_comm, List.drop_succ_cons, ← List.cons_append] at hsettles
      rw [← List.cons_append, digitsLength_congr later' hsettles, List.cons_append]
    next => rfl
  · have hnone : ∀ rest, fractionLength (point :: rest) = 0 := by
      intro rest
      unfold fractionLength
      split
      next hcons => exact absurd (List.cons.inj hcons).1 hpoint
      next => rfl
    rw [hnone, hnone]

theorem exponentLength_cons (letter : Char) (rest : List Char) :
    exponentLength (letter :: rest) =
      if (letter = 'e' ∨ letter = 'E') ∧
          (rest.drop (signLength rest)).head?.any Char.isDigit = true then
        1 + signLength rest + digitsLength (rest.drop (signLength rest))
      else 0 := rfl

theorem exponentLength_congr (hsettles : Settles (text.drop (exponentLength (text ++ later)))) :
    exponentLength (text ++ later') = exponentLength (text ++ later) := by
  obtain ⟨letter, next, rest, rfl⟩ := hsettles.of_drop.exists_cons
  have hsigned : ∀ later, signLength (next :: rest ++ later) = signLength (next :: rest) :=
    fun later => signLength_append later (List.cons_ne_nil _ _)
  have hsign := signLength_le (next :: rest)
  have hdrop : ∀ later, (next :: rest ++ later).drop (signLength (next :: rest)) =
      (next :: rest).drop (signLength (next :: rest)) ++ later :=
    fun later => List.drop_append_of_le_length (hsign.trans (by simp))
  simp only [List.cons_append] at hsettles hsigned hdrop ⊢
  rw [exponentLength_cons, exponentLength_cons, hsigned, hsigned, hdrop, hdrop]
  rw [exponentLength_cons, hsigned, hdrop] at hsettles
  by_cases hletter : letter = 'e' ∨ letter = 'E'
  · have hlong := hsettles.of_drop.2 ⟨letter, rfl, hletter⟩
    obtain ⟨first, tail, htail⟩ : ∃ first tail, (next :: rest).drop (signLength (next :: rest)) =
        first :: tail := by
      refine List.exists_cons_of_ne_nil fun hempty => ?_
      have hlength := List.drop_eq_nil_iff.mp hempty
      simp only [List.length_cons] at hlength hlong
      omega
    rw [htail, List.cons_append, List.cons_append, List.head?_cons, List.head?_cons]
    split
    next hvalue =>
      rw [htail, List.cons_append, List.head?_cons, if_pos hvalue, Nat.add_assoc, Nat.add_comm,
        List.drop_succ_cons, ← List.drop_drop, htail, ← List.cons_append] at hsettles
      rw [← List.cons_append, digitsLength_congr later' hsettles, List.cons_append]
    next => rfl
  · rw [if_neg fun hvalue => hletter hvalue.1, if_neg fun hvalue => hletter hvalue.1]

theorem stringLength_plain {quote c : Char} (rest : List Char) (hplain : c ≠ '\\') :
    stringLength quote (c :: rest) =
      if c = '\n' then 0 else if c = quote then 1 else 1 + stringLength quote rest := by
  rw [stringLength]
  · exact fun hc => absurd hc hplain
  · exact fun _ _ hc => absurd hc hplain

theorem stringLength_congr {quote : Char}
    (hsettles : Settles (text.drop (stringLength quote (text ++ later)))) :
    stringLength quote (text ++ later') = stringLength quote (text ++ later) := by
  induction hlength : text.length using Nat.strong_induction_on generalizing text with
  | _ length ih =>
    subst hlength
    obtain ⟨c, next, rest, rfl⟩ := hsettles.of_drop.exists_cons
    by_cases hescape : c = '\\'
    · subst hescape
      simp only [List.cons_append] at hsettles ⊢
      rw [stringLength, Nat.add_comm, List.drop_succ_cons, List.drop_succ_cons] at hsettles
      rw [stringLength, stringLength, ih rest.length (by simp only [List.length_cons]; omega) hsettles rfl]
    · simp only [List.cons_append] at hsettles ih ⊢
      rw [stringLength_plain _ hescape] at hsettles
      rw [stringLength_plain _ hescape, stringLength_plain _ hescape]
      split_ifs at hsettles ⊢ with hline hquote
      · rfl
      · rfl
      · rw [Nat.add_comm, List.drop_succ_cons] at hsettles
        have hrest := ih (next :: rest).length (by simp) hsettles rfl
        simp only [List.cons_append] at hrest
        rw [hrest]

/-- The end of a tag is a mark of its form, and no brace may be open in an expression. -/
theorem closerLength?_eq_some {form : TagForm} {depth length : Nat} {text : List Char} :
    closerLength? form depth text = some length ↔
      closingMark form <+: text.drop (signLength text) ∧ (form = .expression → depth = 0) ∧
        length = signLength text + 2 := by
  unfold closerLength?
  simp only
  generalize text.drop (signLength text) = rest
  constructor
  · intro hcloser
    split at hcloser
    next tail => exact ⟨⟨tail, rfl⟩, nofun, (Option.some.inj hcloser).symm⟩
    next tail =>
      split at hcloser
      next hdepth => exact ⟨⟨tail, rfl⟩, fun _ => hdepth, (Option.some.inj hcloser).symm⟩
      next => cases hcloser
    next => cases hcloser
  · rintro ⟨⟨tail, rfl⟩, hdepth, rfl⟩
    cases form with
    | expression => simp [closingMark, hdepth rfl]
    | statement => rfl

theorem closerLength?_append (form : TagForm) (depth : Nat) (hlong : 3 ≤ text.length) :
    closerLength? form depth (text ++ later') = closerLength? form depth text := by
  have hsign := signLength_le text
  have hne : text ≠ [] := List.ne_nil_of_length_pos (by omega)
  refine Option.ext fun length => ?_
  rw [closerLength?_eq_some, closerLength?_eq_some, signLength_append later' hne,
    List.drop_append_of_le_length (by omega)]
  refine and_congr_left' (Text.begins_append_iff ?_ later')
  rw [length_closingMark, List.length_drop]
  omega

theorem dataPiece_of_plain {c : Char} {rest : List Char} (hplain : opensTag (c :: rest) = false) :
    dataPiece c rest = { kind := some .text, more := textLength rest, next := .data } := by
  unfold dataPiece
  split
  next => cases hplain
  next => cases hplain
  next => cases hplain
  next => rfl

theorem opensTag_cases {c : Char} {rest : List Char} (hopens : opensTag (c :: rest) = true) :
    ∃ mark inner, c = '{' ∧ rest = mark :: inner ∧ (mark = '{' ∨ mark = '%' ∨ mark = '#') := by
  unfold opensTag at hopens
  split at hopens
  next mark inner hcons =>
    obtain ⟨rfl, hrest⟩ := List.cons.inj hcons
    exact ⟨mark, inner, rfl, hrest, by simpa [or_assoc] using hopens⟩
  next => cases hopens

theorem dataPiece_congr {c : Char}
    (hsettles : Settles (text.drop (dataPiece c (text ++ later)).more)) :
    dataPiece c (text ++ later') = dataPiece c (text ++ later) := by
  have hlong := hsettles.of_drop.1
  have hwhole : 2 ≤ (c :: text).length := by
    simp only [List.length_cons]
    omega
  have hsame : ∀ later, opensTag (c :: (text ++ later)) = opensTag (c :: text) :=
    fun later => opensTag_append_eq later hwhole
  cases hopens : opensTag (c :: text) with
  | false =>
    rw [dataPiece_of_plain ((hsame later).trans hopens)] at hsettles ⊢
    rw [dataPiece_of_plain ((hsame later').trans hopens), textLength_congr later' hsettles]
  | true =>
    obtain ⟨mark, inner, rfl, rfl, rfl | rfl | rfl⟩ := opensTag_cases hopens
    · have hinner : inner ≠ [] := by
        rintro rfl
        exact absurd hlong (by decide)
      simp only [List.cons_append, dataPiece, signLength_append _ hinner]
    · have hinner : inner ≠ [] := by
        rintro rfl
        exact absurd hlong (by decide)
      simp only [List.cons_append, dataPiece, signLength_append _ hinner]
    · have hends : Text.lengthThrough ['#', '}'] ('#' :: inner ++ later) < ('#' :: inner).length :=
        Nat.lt_of_sub_pos (Nat.zero_lt_of_lt (List.length_drop ▸ hsettles.1))
      have hthrough := Text.lengthThrough_congr hends later'
      simp only [List.cons_append] at hthrough
      simp only [List.cons_append, dataPiece, hthrough]

theorem numberPiece_congr {next : Mode}
    (hsettles : Settles (text.drop (numberPiece (text ++ later) next).more)) :
    numberPiece (text ++ later') next = numberPiece (text ++ later) next := by
  simp only [numberPiece] at hsettles ⊢
  rw [← List.drop_drop] at hsettles
  have hletter := hsettles.of_drop
  have hpoint := hletter
  rw [← List.drop_drop] at hpoint
  have hwhole := hpoint.of_drop
  rw [drop_append later hwhole] at hpoint hletter hsettles
  rw [drop_append later hletter] at hsettles
  rw [digitsLength_congr later' hwhole, drop_append later hwhole, drop_append later' hwhole,
    fractionLength_congr later' hpoint, drop_append later hletter, drop_append later' hletter,
    exponentLength_congr later' hsettles]

theorem codePiece_congr {form : TagForm} {depth : Nat} {c : Char}
    (hsettles : Settles (text.drop (codePiece form depth c (text ++ later)).more)) :
    codePiece form depth c (text ++ later') = codePiece form depth c (text ++ later) := by
  have hlong := hsettles.of_drop.1
  have hwhole : 3 ≤ (c :: text).length := Nat.succ_le_succ hlong
  have hcloser : ∀ later, closerLength? form depth (c :: (text ++ later)) =
      closerLength? form depth (c :: text) := fun later => closerLength?_append later form depth hwhole
  have hopens : ∀ later, opensTag (c :: (text ++ later)) = opensTag (c :: text) :=
    fun later => opensTag_append_eq later (Nat.le_of_succ_le hwhole)
  have hne : text ≠ [] := List.ne_nil_of_length_pos (by omega)
  rw [codePiece, hcloser, hopens] at hsettles
  rw [codePiece, codePiece, hcloser, hopens, hcloser, hopens]
  by_cases hblank : Text.isBlank c = true
  · rw [if_pos hblank] at hsettles
    rw [if_pos hblank, if_pos hblank, takeWhile_congr later' hsettles]
  rw [if_neg hblank] at hsettles
  rw [if_neg hblank, if_neg hblank]
  cases hlength : closerLength? form depth (c :: text) with
  | some length => simp only
  | none =>
    rw [hlength] at hsettles
    simp only at hsettles ⊢
    split_ifs at hsettles ⊢ with htag hname hdigit hquote
    · exact dataPiece_congr later' hsettles
    · rw [takeWhile_congr later' hsettles]
    · exact numberPiece_congr later' hsettles
    · rw [stringLength_congr later' hsettles]
    · rw [symbolPiece, symbolPiece, List.head?_append, List.head?_append, List.head?_eq_some_head hne]
      rfl

/-- What a piece of the text is, the characters behind it settle, and nothing that follows them. -/
theorem piece_congr {mode : Mode} {c : Char}
    (hsettles : Settles (text.drop (piece mode c (text ++ later)).more)) :
    piece mode c (text ++ later') = piece mode c (text ++ later) :=
  match mode with
  | .data => dataPiece_congr later' hsettles
  | .code _ _ => codePiece_congr later' hsettles

end Lookahead

section Marks

variable (later : List Char)

/-- What a piece of the text is, a tag that ends behind it decides, and nothing that follows. -/
theorem piece_append {mode : Mode} {c : Char} {rest : List Char}
    (hends : EndsInMark (rest.drop (piece mode c rest).more)) :
    piece mode c (rest ++ later) = piece mode c rest := by
  have hsettles := hends.settles
  have hcongr := @piece_congr rest [] later mode c
  rw [List.append_nil] at hcongr
  exact hcongr hsettles

theorem dataPiece_kind_ne (c : Char) (rest : List Char) (form : TagForm) :
    (dataPiece c rest).kind ≠ some (.tagEnd form) := by
  unfold dataPiece
  split <;> simp

theorem symbolPiece_kind_ne (form : TagForm) (depth : Nat) (c : Char) (rest : List Char)
    (other : TagForm) : (symbolPiece form depth c rest).kind ≠ some (.tagEnd other) := by
  unfold symbolPiece
  split
  next => simp
  next => cases hsymbol : symbol? c <;> simp

/-- Only the mark of its form ends a tag. -/
theorem piece_of_tagEnd {mode : Mode} {c : Char} {rest : List Char} {form : TagForm}
    (hkind : (piece mode c rest).kind = some (.tagEnd form)) :
    ∃ depth length, mode = .code form depth ∧ Text.isBlank c = false ∧
      closerLength? form depth (c :: rest) = some length := by
  cases mode with
  | data => exact absurd hkind (dataPiece_kind_ne c rest form)
  | code tag depth =>
    rw [piece, codePiece] at hkind
    split at hkind
    next => cases hkind
    next hblank =>
      split at hkind
      next length hlength =>
        cases hkind
        exact ⟨depth, length, rfl, Bool.eq_false_of_not_eq_true hblank, hlength⟩
      next =>
        split_ifs at hkind with htag hname
        · exact absurd hkind (dataPiece_kind_ne c rest form)
        · rcases wordKind_cases (c :: rest.takeWhile isNamePart) with hword | ⟨keyword, hword⟩ <;>
            simp [hword] at hkind
        · simp only [numberPiece] at hkind
          split_ifs at hkind <;> cases hkind
        · cases hkind
        · exact absurd hkind (symbolPiece_kind_ne tag depth c rest form)

theorem piece_of_closer {form : TagForm} {depth length : Nat} {c : Char} {rest : List Char}
    (hblank : Text.isBlank c = false) (hcloser : closerLength? form depth (c :: rest) = some length) :
    piece (.code form depth) c rest =
      { kind := some (.tagEnd form), more := length - 1, next := .data } := by
  rw [piece, codePiece, if_neg (by simp [hblank]), hcloser]

/-- A mark that ends a tag in a text is read alike whatever follows the text. -/
theorem piece_tagEnd_congr {mode : Mode} {c : Char} {form : TagForm} {text later : List Char}
    (hkind : (piece mode c (text ++ later)).kind = some (.tagEnd form))
    (hmore : (piece mode c (text ++ later)).more ≤ text.length) (later' : List Char) :
    piece mode c (text ++ later') = piece mode c (text ++ later) ∧ Settles (c :: text) := by
  obtain ⟨depth, length, rfl, hblank, hcloser⟩ := piece_of_tagEnd hkind
  rw [piece_of_closer hblank hcloser] at hmore ⊢
  obtain ⟨hmark, hdepth, rfl⟩ := closerLength?_eq_some.mp hcloser
  have hlong : signLength (c :: text) + 2 ≤ (c :: text).length := by
    have hsign : signLength (c :: (text ++ later)) = signLength (c :: text) := rfl
    simp only [hsign, List.length_cons] at hmore ⊢
    omega
  have hdrop : ∀ later, (c :: (text ++ later)).drop (signLength (c :: text)) =
      (c :: text).drop (signLength (c :: text)) ++ later := fun later =>
    List.drop_append_of_le_length (Nat.le_of_add_right_le hlong)
  have hsize : (closingMark form).length ≤ ((c :: text).drop (signLength (c :: text))).length := by
    rw [length_closingMark, List.length_drop]
    omega
  have hinside := (Text.begins_append_iff hsize later).mp (hdrop later ▸ hmark)
  refine ⟨piece_of_closer hblank (closerLength?_eq_some.mpr ⟨?_, hdepth, rfl⟩), ?_⟩
  · exact (hdrop later') ▸ (Text.begins_append_iff hsize later').mpr hinside
  · exact (Settles.of_closingMark hinside).of_drop

/-- The mark that ends a tag at the end of a text. -/
theorem piece_tagEnd {mode : Mode} {c : Char} {rest : List Char} {form : TagForm}
    (hkind : (piece mode c rest).kind = some (.tagEnd form))
    (hwhole : rest.drop (piece mode c rest).more = []) :
    EndsInMark (c :: rest) ∧ (piece mode c rest).next = .data ∧
      (piece mode c rest).more = rest.length ∧ piece mode c (rest ++ later) = piece mode c rest := by
  obtain ⟨depth, length, rfl, hblank, hcloser⟩ := piece_of_tagEnd hkind
  have hread := piece_of_closer hblank hcloser
  obtain ⟨hmark, -, rfl⟩ := closerLength?_eq_some.mp hcloser
  have hshort := List.drop_eq_nil_iff.mp hwhole
  have hlong := hmark.length_le
  rw [length_closingMark, List.length_drop, List.length_cons] at hlong
  rw [hread] at hshort
  simp only at hshort
  have hmore : (piece (.code form depth) c rest).more = rest.length := by
    rw [hread]
    simp only
    omega
  have hcongr := @piece_tagEnd_congr (.code form depth) c form rest []
  rw [List.append_nil] at hcongr
  refine ⟨⟨form, ?_⟩, congrArg Piece.next hread, hmore, (hcongr hkind hmore.le later).1⟩
  rw [hmark.eq_of_length_le (by rw [length_closingMark, List.length_drop, List.length_cons]; omega)]
  exact List.drop_suffix _ _

end Marks

/-- The tokens of a text are read up to its end, and the last one of them ends a tag there. -/
structure EndsInTag (mode : Mode) (start : Place) (text : List Char) (tokens : List Token) :
    Prop where
  read : tokensFrom mode start text =
    tokens ++ [{ kind := .endOfFile, start := start.past text, text := "" }]
  last : ∃ token form, tokens.getLast? = some token ∧ token.kind = .tagEnd form ∧
    token.stop.offset = (start.past text).offset

theorem tokensFrom_cons (mode : Mode) (start : Place) (c : Char) (rest : List Char) :
    tokensFrom mode start (c :: rest) =
      ((piece mode c rest).kind.map fun kind =>
        { kind, start, text := String.ofList (c :: rest.take (piece mode c rest).more) }).toList ++
        tokensFrom (piece mode c rest).next (start.past (c :: rest.take (piece mode c rest).more))
          (rest.drop (piece mode c rest).more) := by
  rw [tokensFrom]
  split
  next kind hkind => rw [hkind]; rfl
  next hkind => rw [hkind]; rfl

/-- A text that ends behind a tag is read without a look at what follows. -/
theorem EndsInTag.append {mode : Mode} {start : Place} {text : List Char} {tokens : List Token}
    (hends : EndsInTag mode start text tokens) :
    EndsInMark text ∧ ∀ later, tokensFrom mode start (text ++ later) =
      tokens ++ tokensFrom .data (start.past text) later := by
  induction hlength : text.length using Nat.strong_induction_on
    generalizing mode start text tokens with
  | _ length ih =>
    subst hlength
    obtain ⟨hread, token, form, hlast, hkind, hstop⟩ := hends
    cases text with
    | nil =>
      rw [tokensFrom] at hread
      have hlengths := congrArg List.length hread
      cases tokens with
      | nil => cases hlast
      | cons first others => simp at hlengths
    | cons c rest =>
      obtain ⟨inner, hinner, _⟩ := (tokensFrom_layout (piece mode c rest).next
        (start.past (c :: rest.take (piece mode c rest).more))
        (rest.drop (piece mode c rest).more)).last
      rw [past_lexeme] at hinner
      rw [tokensFrom_cons, hinner, ← List.append_assoc] at hread
      obtain rfl := List.append_cancel_right hread
      -- The first piece is the end of the tag, or the end lies in what follows the piece.
      rcases inner.eq_nil_or_concat with rfl | ⟨others, final, rfl⟩
      · rw [List.append_nil] at hlast
        obtain ⟨kind, hkind', rfl⟩ := Option.map_eq_some_iff.mp (Option.mem_toList.mp
          (List.mem_of_getLast? hlast))
        -- The token ends where the text does, so nothing is left behind it.
        have hwhole : rest.drop (piece mode c rest).more = [] := by
          by_contra hne
          have hpos := Text.byteLength_pos hne
          rw [← past_lexeme start c rest (piece mode c rest).more, Place.offset_past] at hstop
          simp only [Token.stop, String.toList_ofList] at hstop
          omega
        obtain rfl : kind = .tagEnd form := hkind
        refine ⟨(piece_tagEnd [] hkind' hwhole).1, fun later => ?_⟩
        obtain ⟨_, hnext, hmore, hpiece⟩ := piece_tagEnd later hkind' hwhole
        rw [List.cons_append, tokensFrom_cons, hpiece, hnext, hmore, List.take_left, List.drop_left,
          hkind', List.take_length, List.append_nil]
      · have hinside : EndsInTag (piece mode c rest).next
            (start.past (c :: rest.take (piece mode c rest).more))
            (rest.drop (piece mode c rest).more) (others.concat final) := by
          refine ⟨by rw [hinner, past_lexeme], token, form, ?_, hkind, by rw [hstop, past_lexeme]⟩
          simpa using hlast
        obtain ⟨hmark, hlater⟩ := ih _ (by simp only [List.length_drop, List.length_cons]; omega)
          hinside rfl
        refine ⟨hmark.of_suffix ((List.drop_suffix _ _).trans (List.suffix_cons c rest)), fun later => ?_⟩
        rw [List.cons_append, tokensFrom_cons, piece_append later hmark, take_append later hmark.settles,
          drop_append later hmark.settles, hlater later, past_lexeme, List.append_assoc]

end Lexer

namespace Tag

theorem stopBefore_append {tokens : List Token} (hne : tokens ≠ []) (stop other : Position)
    (later : List Token) : stopBefore stop (tokens ++ later) = stopBefore other tokens := by
  cases tokens with
  | nil => exact absurd rfl hne
  | cons token rest => rfl

/-- Behind the end of a tag, tags are read anew. -/
theorem ofTokens_append {stop other : Position} {tokens : List Token} {last : Token}
    (hlast : tokens.getLast? = some last) (hend : last.kind.isTagEnd = true) (later : List Token) :
    ofTokens stop (tokens ++ later) = ofTokens other tokens ++ ofTokens stop later := by
  have houtside : last.kind.isInsideTag = false ∧ last.kind.isTagBegin = false := by
    cases hkind : last.kind <;>
      simp_all [TokenKind.isTagEnd, TokenKind.isInsideTag, TokenKind.isTagBegin]
  induction tokens using tokens_induction with
  | nil => cases hlast
  | outside token rest hbegin ih =>
    rw [List.cons_append, ofTokens_tail hbegin, ofTokens_tail hbegin]
    cases rest with
    | nil => rw [ofTokens]; rfl
    | cons next rest =>
      rw [List.getLast?_cons_cons] at hlast
      exact ih hlast
  | opening token rest form hkind ih =>
    have hrest : rest.getLast? = some last := by
      cases rest with
      | nil =>
        rw [List.getLast?_singleton, Option.some.injEq] at hlast
        rw [← hlast, hkind] at houtside
        cases houtside.2
      | cons next rest => rwa [List.getLast?_cons_cons] at hlast
    -- The last token ends a tag, so the body of this tag stops at it at the latest.
    have hne : rest.dropWhile (·.kind.isInsideTag) ≠ [] := by
      intro hnil
      have hinside := List.dropWhile_eq_nil_iff.mp hnil last (List.mem_of_getLast? hrest)
      rw [houtside.1] at hinside
      cases hinside
    have hsplit := List.takeWhile_append_dropWhile
      (p := fun token : Token => token.kind.isInsideTag) (l := rest)
    have hlater : (rest.dropWhile (·.kind.isInsideTag)).getLast? = some last := by
      obtain ⟨before, final, hfinal⟩ := (List.eq_nil_or_concat _).resolve_left hne
      rw [← hsplit, List.getLast?_append, hfinal] at hrest
      rw [hfinal]
      simpa using hrest
    have hlength := congrArg List.length hsplit
    rw [List.length_append] at hlength
    have hpos := List.length_pos_iff.mpr hne
    rw [List.cons_append, ofTokens, ofTokens, hkind, List.takeWhile_append, if_neg (by omega),
      List.dropWhile_append, if_neg (by simpa using hne)]
    simp only [stopBefore_append hne stop other, List.cons_append]
    rw [ih hlater]

end Tag

end Template

end TemplateAnalysis
