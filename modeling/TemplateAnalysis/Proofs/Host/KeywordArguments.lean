import TemplateAnalysis.Proofs.Host.Brackets
import TemplateAnalysis.Proofs.Host.Covering
import TemplateAnalysis.Proofs.Host.Spelling

namespace TemplateAnalysis.Host

namespace Lexer

variable {language : HostLanguage} {start : Place} {text : List Char} {token : Token}

theorem letter_of_piece {c : Char} {rest : List Char}
    (hword : (piece language c rest).kind = some .word) : (Text.isAlphabetic c || c == '_') = true := by
  obtain ⟨-, hpiece⟩ | ⟨_, -, hpiece⟩ | ⟨_, -, hpiece⟩ | hpiece := piece_cases language c rest
  · rw [hpiece] at hword
    cases hword
  · rw [hpiece] at hword
    cases hword
  · rw [hpiece] at hword
    cases hword
  · rw [hpiece, plainPiece] at hword
    split_ifs at hword with hletter
    · exact hletter
    all_goals cases hword

/-- A word of a program begins with a letter or an underscore. -/
theorem isName_of_mem (hmem : token ∈ tokensFrom language start text) (hword : token.kind = .word) :
    token.IsName := by
  fun_induction tokensFrom language start text with
  | case1 => cases hmem
  | case2 start c rest piece lexeme later kind hkind ih =>
    rcases List.mem_cons.mp hmem with rfl | hmem
    · refine ⟨hword, ?_⟩
      rw [String.toList_ofList]
      exact letter_of_piece (hkind.trans (congrArg some hword))
    · exact ih hmem
  | case3 start c rest piece lexeme later hkind ih => exact ih hmem

end Lexer

namespace KeywordArguments

/-- Balanced tokens in which each `lambda` outside of the brackets has the colon that ends its parameters.
    Something may be required of the tokens outside of brackets and parameters. -/
inductive Complete : (Token → Prop) → List Token → Prop
  | nil {outside : Token → Prop} : Complete outside []
  | plain {outside : Token → Prop} {token : Token} {rest : List Token}
      (hplain : token.isBracket = false) (hword : token.text ≠ "lambda") (houtside : outside token)
      (hrest : Complete outside rest) : Complete outside (token :: rest)
  | group {outside : Token → Prop} {opening closing : Token} {inner rest : List Token}
      (hpairs : opening.Pairs closing) (hinner : Balanced (fun _ => True) inner)
      (hrest : Complete outside rest) : Complete outside (opening :: (inner ++ closing :: rest))
  | function {outside : Token → Prop} {word colon : Token} {parameters rest : List Token}
      (hword : word.text = "lambda") (hparameters : Complete (·.text ≠ ":") parameters)
      (hcolon : colon.text = ":") (hrest : Complete outside rest) :
      Complete outside (word :: (parameters ++ colon :: rest))

/-- Tokens that end among the parameters of a `lambda`. -/
def InParameters (tokens : List Token) : Prop :=
  ∃ earlier word parameters, tokens = earlier ++ word :: parameters ∧ Balanced (fun _ => True) earlier ∧
    word.text = "lambda" ∧ Complete (·.text ≠ ":") parameters

/-- The word has an equals sign behind it, and before it in the argument list there are such tokens. -/
def Named (earlier : List Token → Prop) (arguments : List Token) (key : Token) : Prop :=
  ∃ front sign back, earlier front ∧ arguments = front ++ key :: sign :: back ∧ key.kind = .word ∧
    sign.isPunctuation "=" = true

/-- The word has an argument list in round brackets behind it. -/
def HasArguments (tokens before : List Token) (word : Token) (arguments : List Token) : Prop :=
  ∃ opening closing after, tokens = before ++ word :: opening :: (arguments ++ closing :: after) ∧
    word.kind = .word ∧ opening.isPunctuation "(" = true ∧ opening.Pairs closing ∧
    Balanced (fun _ => True) arguments

/-- The keywords that name what is defined and not called. -/
def definers : List String :=
  ["def", "class"]

/-- The functions that hand variables to a template. -/
def functions : List String :=
  ["render_template", "render_template_string"]

/-- A call of this word behind such tokens hands its keyword arguments to templates. -/
inductive HandsOver : List Token → Token → Prop
  | method {earlier : List Token} {point word : Token} (hpoint : point.isPunctuation "." = true)
      (hword : word.text = "render") : HandsOver (earlier ++ [point]) word
  | function {before : List Token} {word : Token} (hword : word.text ∈ functions)
      (hcalled : ∀ token ∈ before.getLast?, token.text ∉ definers) : HandsOver before word
  | update {earlier : List Token} {table point word : Token} (htable : table.text ∈ tables)
      (hpoint : point.isPunctuation "." = true) (hword : word.text = "update") :
      HandsOver (earlier ++ [table, point]) word

/-- The word behind such tokens is taken for one that hands variables to a template, but it is a function of
    the program's own, or the name of a definition. -/
inductive Mistaken : List Token → Token → Prop
  | free {before : List Token} {word : Token} (hword : word.text = "render")
      (hfree : ∀ token ∈ before.getLast?, token.isPunctuation "." = false) : Mistaken before word
  | defined {earlier : List Token} {definer word : Token} (hword : word.text ∈ functions)
      (hdefiner : definer.text ∈ definers) : Mistaken (earlier ++ [definer]) word

/-- The variables that a program declares for templates. -/
inductive Declared (tokens : List Token) : Identifier → Prop
  | argument {before arguments : List Token} {word key : Token}
      (hcall : HasArguments tokens before word arguments) (hhands : HandsOver before word)
      (hkey : Named (Complete fun _ => True) arguments key) :
      Declared tokens (key.identifier .hostVariable)
  | entry {before after : List Token} {table opening name closing sign : Token}
      (htokens : tokens = before ++ table :: opening :: name :: closing :: sign :: after)
      (hword : table.kind = .word) (htable : table.text ∈ tables)
      (hopening : opening.isPunctuation "[" = true) (hname : name.kind = .string)
      (hclosing : closing.isPunctuation "]" = true) (hsign : sign.isPunctuation "=" = true) :
      Declared tokens (name.contentIdentifier .hostVariable)

/-- The names that are found beside them: those in the argument list of a word that is mistaken, and
    parameters of a `lambda` among the arguments of a call. -/
inductive Stray (tokens : List Token) : Identifier → Prop
  | argument {before arguments : List Token} {word key : Token}
      (hlist : HasArguments tokens before word arguments) (hmistaken : Mistaken before word)
      (hkey : Named (Balanced fun _ => True) arguments key) : Stray tokens (key.identifier .hostVariable)
  | parameter {before arguments : List Token} {word key : Token}
      (hcall : HasArguments tokens before word arguments) (hhands : HandsOver before word)
      (hkey : Named InParameters arguments key) : Stray tokens (key.identifier .hostVariable)

variable {tokens arguments rest after : List Token} {token closing key : Token} {identifier : Identifier}

theorem isBracket_of_text {mark : String} (htext : token.text = mark) (hmark : mark ∈ ["lambda", ":"]) :
    token.isBracket = false := by
  have hother : ∀ mark ∈ ["lambda", ":"], (mark == "(" || mark == "[" || mark == "\x7b" ||
      (mark == ")" || mark == "]" || mark == "\x7d")) = false := by decide
  rw [Token.isBracket, Token.opensBracket, Token.closesBracket, htext]
  exact hother mark hmark

theorem Complete.balanced {outside : Token → Prop} (hcomplete : Complete outside tokens) :
    Balanced (fun _ => True) tokens := by
  induction hcomplete with
  | nil => exact .nil
  | plain hplain _ _ _ ih => exact .plain hplain trivial ih
  | group hpairs hinner _ ih => exact .group hpairs hinner ih
  | function hword _ hcolon _ ihParameters ih =>
    have hrest := ihParameters.append (.plain (isBracket_of_text hcolon (by decide)) trivial ih)
    exact .plain (isBracket_of_text hword (by decide)) trivial hrest

theorem InParameters.cons_append {front : List Token} (hbalanced : Balanced (fun _ => True) front)
    (hwithin : InParameters tokens) : InParameters (front ++ tokens) := by
  obtain ⟨earlier, word, parameters, rfl, hearlier, hrest⟩ := hwithin
  exact ⟨front ++ earlier, word, parameters, by rw [List.append_assoc], hbalanced.append hearlier, hrest⟩

theorem Complete.append {outside : Token → Prop} {inner : List Token} (hinner : Complete outside inner)
    (hrest : Complete outside rest) : Complete outside (inner ++ rest) := by
  induction hinner with
  | nil => exact hrest
  | plain hplain hword houtside _ ih => exact .plain hplain hword houtside (ih hrest)
  | group hpairs hwithin _ ih =>
    rw [List.cons_append, List.append_assoc, List.cons_append]
    exact .group hpairs hwithin (ih hrest)
  | function hword hparameters hcolon _ _ ih =>
    rw [List.cons_append, List.append_assoc, List.cons_append]
    exact .function hword hparameters hcolon (ih hrest)

theorem Complete.mono {outside outside' : Token → Prop} (hcomplete : Complete outside tokens)
    (himp : ∀ token, outside token → outside' token) : Complete outside' tokens := by
  induction hcomplete with
  | nil => exact .nil
  | plain hplain hword houtside _ ih => exact .plain hplain hword (himp _ houtside) (ih himp)
  | group hpairs hwithin _ ih => exact .group hpairs hwithin (ih himp)
  | function hword hparameters hcolon _ _ ih => exact .function hword hparameters hcolon (ih himp)

/-- Behind a `lambda` there are its parameters up to the first colon that is not one of another `lambda`. -/
theorem exists_parameters (hbalanced : Balanced (fun _ => True) tokens) :
    InParameters tokens ∨ ∃ parameters later, tokens = parameters ++ later ∧
      Complete (·.text ≠ ":") parameters ∧
      (later = [] ∨ ∃ colon rest, later = colon :: rest ∧ colon.text = ":" ∧
        Balanced (fun _ => True) rest) := by
  induction hlength : tokens.length using Nat.strong_induction_on generalizing tokens with
  | _ length ih =>
    subst hlength
    cases hbalanced with
    | nil => exact .inr ⟨[], [], rfl, .nil, .inl rfl⟩
    | @plain _ token rest hplain _ hrest =>
      have hfront : Balanced (fun _ => True) [token] := .plain hplain trivial .nil
      by_cases hcolon : token.text = ":"
      · exact .inr ⟨[], token :: rest, rfl, .nil, .inr ⟨token, rest, rfl, hcolon, hrest⟩⟩
      rcases ih rest.length (Nat.lt_succ_self _) hrest rfl with
        hwithin | ⟨parameters, later, rfl, hread, hlater⟩
      · exact .inl (hwithin.cons_append hfront)
      by_cases hword : token.text = "lambda"
      · rcases hlater with rfl | ⟨colon, rest, rfl, hcolon', hrest'⟩
        · exact .inl ⟨[], token, parameters, by rw [List.append_nil, List.nil_append], .nil, hword, hread⟩
        -- The colon belongs to the inner function, so the search for the outer one goes on behind
        -- it.
        have hshort : rest.length < (token :: (parameters ++ colon :: rest)).length := by
          simp only [List.length_cons, List.length_append]
          omega
        rcases ih rest.length hshort hrest' rfl with hwithin | ⟨parameters', later, rfl, hread', hlater⟩
        · have hhead : Complete (fun _ => True) (token :: (parameters ++ [colon])) :=
            .function hword hread hcolon' .nil
          have hwhole := hwithin.cons_append hhead.balanced
          rw [List.cons_append, List.append_assoc] at hwhole
          exact .inl hwhole
        · refine .inr ⟨token :: (parameters ++ colon :: parameters'), later, by simp, ?_, hlater⟩
          exact .function hword hread hcolon' hread'
      · exact .inr ⟨token :: parameters, later, rfl, .plain hplain hword hcolon hread, hlater⟩
    | @group _ opening closing inner rest hpairs hinner hrest =>
      have hshort : rest.length < (opening :: (inner ++ closing :: rest)).length := by
        simp only [List.length_cons, List.length_append]
        omega
      rcases ih rest.length hshort hrest rfl with hwithin | ⟨parameters, later, rfl, hread, hlater⟩
      · have hwhole := hwithin.cons_append (.group hpairs hinner .nil)
        rw [List.cons_append, List.append_assoc] at hwhole
        exact .inl hwhole
      · exact .inr ⟨opening :: (inner ++ closing :: parameters), later, by simp,
          .group hpairs hinner hread, hlater⟩

/-- Balanced tokens either leave no `lambda` without its colon or end among the parameters of one. -/
theorem complete_or_inParameters (hbalanced : Balanced (fun _ => True) tokens) :
    Complete (fun _ => True) tokens ∨ InParameters tokens := by
  induction hlength : tokens.length using Nat.strong_induction_on generalizing tokens with
  | _ length ih =>
    subst hlength
    rcases exists_parameters hbalanced with hwithin | ⟨parameters, later, rfl, hread, hlater⟩
    · exact .inr hwithin
    have hparameters := hread.mono fun _ _ => trivial
    rcases hlater with rfl | ⟨colon, rest, rfl, hcolon, hrest⟩
    · exact .inl (hparameters.append .nil)
    have hshort : rest.length < (parameters ++ colon :: rest).length := by
      simp only [List.length_cons, List.length_append]
      omega
    have hplain : colon.isBracket = false := isBracket_of_text hcolon (by decide)
    rcases ih rest.length hshort hrest rfl with hcomplete | hwithin
    · have hword : colon.text ≠ "lambda" := by
        rw [hcolon]
        decide
      exact .inl (hparameters.append (.plain hplain hword trivial hcomplete))
    · have hwhole := hwithin.cons_append (hparameters.balanced.append (.plain hplain trivial .nil))
      rw [List.append_assoc] at hwhole
      exact .inr hwhole

section Names

variable {depth : Nat}

theorem names_opens (hopens : token.opensBracket = true) :
    names depth (token :: rest) = names (depth + 1) rest := by
  rw [names, if_pos hopens]

theorem names_closes (hcloses : token.opensBracket = false ∧ token.closesBracket = true) :
    names depth (token :: rest) = if depth = 0 then [] else names (depth - 1) rest := by
  rw [names, if_neg (by simp [hcloses]), if_pos hcloses.2]

theorem names_plain (hplain : token.isBracket = false) : names depth (token :: rest) =
    (if depth = 0 ∧ token.kind = .word ∧ (rest.head?.any fun sign => sign.isPunctuation "=") = true then
      [token.identifier .hostVariable] else []) ++ names depth rest := by
  obtain ⟨hopens, hcloses⟩ := Token.isBracket_eq_false_iff.mp hplain
  rw [names, if_neg (by simp [hopens]), if_neg (by simp [hcloses])]
  split_ifs <;> rfl

/-- Arguments in a bracket within the arguments do not count. -/
theorem names_balanced {outside : Token → Prop} {inner : List Token} (hbalanced : Balanced outside inner)
    (later : List Token) : names (depth + 1) (inner ++ later) = names (depth + 1) later := by
  induction hbalanced generalizing depth later with
  | nil => rfl
  | plain hplain _ _ ih =>
    rw [List.cons_append, names_plain hplain, ih, if_neg fun hnamed => absurd hnamed.1 (Nat.succ_ne_zero _)]
    rfl
  | group hpairs _ _ ihInner ih =>
    rw [List.cons_append, List.append_assoc, List.cons_append, names_opens hpairs.opens, ihInner,
      names_closes hpairs.closes, if_neg (Nat.succ_ne_zero _), Nat.add_sub_cancel, ih]

/-- A word before the rest of the arguments is named, or a word of the rest is. -/
theorem named_plain (hplain : token.isBracket = false) : Named (Balanced fun _ => True) (token :: rest) key ↔
    key = token ∧ token.kind = .word ∧ (rest.head?.any fun sign => sign.isPunctuation "=") = true ∨
      Named (Balanced fun _ => True) rest key := by
  constructor
  · rintro ⟨front, sign, back, hfront, hsplit, hword, hsign⟩
    cases hfront with
    | nil =>
      obtain ⟨rfl, rfl⟩ := List.cons.inj hsplit
      exact .inl ⟨rfl, hword, hsign⟩
    | plain _ _ hrest => exact .inr ⟨_, sign, back, hrest, (List.cons.inj hsplit).2, hword, hsign⟩
    | group hpairs =>
      rw [Token.isBracket_eq_false_iff, (List.cons.inj hsplit).1, hpairs.opens] at hplain
      cases hplain.1
  · rintro (⟨rfl, hword, hsign⟩ | ⟨front, sign, back, hfront, rfl, hword, hsign⟩)
    · cases rest with
      | nil => cases hsign
      | cons sign back => exact ⟨[], sign, back, .nil, rfl, hword, hsign⟩
    · exact ⟨token :: front, sign, back, .plain hplain trivial hfront, rfl, hword, hsign⟩

theorem named_group {opening : Token} {inner : List Token} (hpairs : opening.Pairs closing)
    (hinner : Balanced (fun _ => True) inner) (hword : opening.kind = .word → opening.isBracket = false) :
    Named (Balanced fun _ => True) (opening :: (inner ++ closing :: rest)) key ↔
      Named (Balanced fun _ => True) rest key := by
  have hbracket : opening.isBracket = true := by rw [Token.isBracket, hpairs.opens, Bool.true_or]
  constructor
  · rintro ⟨front, sign, back, hfront, hsplit, hkey, hsign⟩
    cases hfront with
    | nil =>
      obtain ⟨rfl, -⟩ := List.cons.inj hsplit
      rw [hword hkey] at hbracket
      cases hbracket
    | plain hplain =>
      rw [← (List.cons.inj hsplit).1, hbracket] at hplain
      cases hplain
    | group hpairs' hinner' hrest =>
      simp only [List.cons_append, List.append_assoc] at hsplit
      obtain ⟨rfl, hlater⟩ := List.cons.inj hsplit
      obtain ⟨-, -, rfl⟩ := hinner.closing_unique hinner' hpairs.closes hpairs'.closes hlater
      exact ⟨_, sign, back, hrest, rfl, hkey, hsign⟩
  · rintro ⟨front, sign, back, hfront, rfl, hkey, hsign⟩
    exact ⟨opening :: (inner ++ closing :: front), sign, back, .group hpairs hinner hfront, by simp, hkey,
      hsign⟩

/-- The names that are found in an argument list are those of its words outside of brackets that have an
    equals sign behind them. -/
theorem mem_names_iff {outside : Token → Prop} (hbalanced : Balanced outside arguments)
    (hcloses : closing.opensBracket = false ∧ closing.closesBracket = true)
    (hwords : ∀ token ∈ arguments, token.kind = .word → token.isBracket = false) :
    identifier ∈ names 0 (arguments ++ closing :: after) ↔
      ∃ key, Named (Balanced fun _ => True) arguments key ∧ identifier = key.identifier .hostVariable := by
  induction hbalanced with
  | nil =>
    rw [List.nil_append, names_closes hcloses, if_pos rfl]
    constructor
    · intro hmem
      cases hmem
    · rintro ⟨_, ⟨front, sign, back, _, hsplit, _⟩, _⟩
      simp at hsplit
  | @plain outside token rest hplain _ _ ih =>
    have hsign : closing.isPunctuation "=" = false := by
      refine Bool.eq_false_of_not_eq_true fun hsign => ?_
      rw [Token.closesBracket, (Token.isPunctuation_iff.mp hsign).2] at hcloses
      exact absurd hcloses.2 (by decide)
    have hhead : ((rest ++ closing :: after).head?.any fun sign => sign.isPunctuation "=") =
        rest.head?.any fun sign => sign.isPunctuation "=" := by
      cases rest with
      | nil => exact hsign
      | cons => rfl
    rw [List.cons_append, names_plain hplain, List.mem_append, hhead,
      ih fun token hmem => hwords token (List.mem_cons_of_mem _ hmem)]
    simp only [named_plain hplain, or_and_right, exists_or, true_and]
    refine or_congr ?_ Iff.rfl
    split_ifs with hnamed
    · simp [hnamed]
    · simp [hnamed]
  | @group outside opening closing' inner rest hpairs hinner _ _ ih =>
    -- Names within brackets are passed over, and behind the group the depth is what it was before.
    have hopening := hwords opening List.mem_cons_self
    rw [List.cons_append, List.append_assoc, List.cons_append, names_opens hpairs.opens,
      names_balanced hinner, names_closes hpairs.closes, if_neg (Nat.succ_ne_zero 0), Nat.add_sub_cancel,
      ih fun token hmem => hwords token (by simp [hmem])]
    simp only [named_group hpairs hinner hopening]

end Names

/-- The names in the argument list behind a word, if there is one. -/
theorem opensCall_and_mem_names_iff {before : List Token} {word : Token}
    (hbalanced : Balanced (fun _ => True) tokens) (hsplit : tokens = before ++ word :: rest)
    (hwords : ∀ token ∈ tokens, token.kind = .word → token.isBracket = false) (hword : word.kind = .word) :
    opensCall rest = true ∧ identifier ∈ names 0 rest.tail ↔
      ∃ arguments key, HasArguments tokens before word arguments ∧
        Named (Balanced fun _ => True) arguments key ∧ identifier = key.identifier .hostVariable := by
  have hnames : ∀ {opening closing : Token} {arguments after : List Token},
      rest = opening :: (arguments ++ closing :: after) → opening.Pairs closing →
      Balanced (fun _ => True) arguments → (identifier ∈ names 0 rest.tail ↔
        ∃ key, Named (Balanced fun _ => True) arguments key ∧ identifier = key.identifier .hostVariable) := by
    rintro opening closing arguments after rfl hpairs harguments
    exact mem_names_iff harguments hpairs.closes fun token hmem => hwords token (by simp [hsplit, hmem])
  constructor
  · rintro ⟨hopens, hmem⟩
    cases rest with
    | nil => cases hopens
    | cons opening rest =>
      have hround : opening.isPunctuation "(" = true := hopens
      have hbracket : opening.opensBracket = true := by
        rw [Token.opensBracket, (Token.isPunctuation_iff.mp hround).2]
        rfl
      obtain ⟨arguments, closing, after, rfl, hpairs, harguments⟩ :=
        hbalanced.exists_closing (before ++ [word]) (by simpa using hsplit) hbracket
      obtain ⟨key, hkey⟩ := (hnames rfl hpairs harguments).mp hmem
      exact ⟨arguments, key, ⟨opening, closing, after, hsplit, hword, hround, hpairs, harguments⟩, hkey⟩
  · rintro ⟨arguments, key, ⟨opening, closing, after, htokens, -, hround, hpairs, harguments⟩, hkey⟩
    have hrest : rest = opening :: (arguments ++ closing :: after) :=
      (List.cons.inj (List.append_cancel_left (hsplit.symm.trans htokens))).2
    refine ⟨?_, (hnames hrest hpairs harguments).mpr ⟨key, hkey⟩⟩
    rw [hrest]
    exact hround

/-- The words before tables are updated. -/
def IsUpdate (before : List Token) (word : Token) : Prop :=
  ∃ earlier table point, before = earlier ++ [table, point] ∧ table.text ∈ tables ∧
    point.isPunctuation "." = true ∧ word.text = "update"

theorem handsOver_or_mistaken_iff {before : List Token} {word : Token} :
    HandsOver before word ∨ Mistaken before word ↔ word.text ∈ renderCalls ∨ IsUpdate before word := by
  have hcalls : word.text ∈ renderCalls ↔ word.text = "render" ∨ word.text ∈ functions := List.mem_cons
  rw [hcalls]
  constructor
  · rintro ((⟨_, hword⟩ | ⟨hword, _⟩ | ⟨htable, hpoint, hword⟩) | ⟨hword, _⟩ | ⟨hword, _⟩)
    · exact .inl (.inl hword)
    · exact .inl (.inr hword)
    · exact .inr ⟨_, _, _, rfl, htable, hpoint, hword⟩
    · exact .inl (.inl hword)
    · exact .inl (.inr hword)
  · rintro ((hword | hword) | ⟨earlier, table, point, rfl, htable, hpoint, hword⟩)
    · rcases List.eq_nil_or_concat' before with rfl | ⟨earlier, last, rfl⟩
      · exact .inr (.free hword fun _ hlast => nomatch hlast)
      · by_cases hpoint : last.isPunctuation "." = true
        · exact .inl (.method hpoint hword)
        · exact .inr (.free hword (by simpa using hpoint))
    · rcases List.eq_nil_or_concat' before with rfl | ⟨earlier, last, rfl⟩
      · exact .inl (.function hword fun _ hlast => nomatch hlast)
      · by_cases hdefiner : last.text ∈ definers
        · exact .inr (.defined hword hdefiner)
        · exact .inl (.function hword (by simpa using hdefiner))
    · exact .inl (.update htable hpoint hword)

theorem mem_renderArguments_iff {word : Token} : identifier ∈ renderArguments word rest ↔
    word.text ∈ renderCalls ∧ opensCall rest = true ∧ identifier ∈ names 0 rest.tail := by
  rw [renderArguments]
  split_ifs with hcalled
  · rw [List.contains_iff_mem] at hcalled
    simp [hcalled]
  · rw [List.contains_iff_mem] at hcalled
    simp only [List.not_mem_nil, false_iff]
    tauto

theorem mem_updateArguments_iff {before : List Token} {word : Token} :
    identifier ∈ updateArguments before.reverse word rest ↔
      IsUpdate before word ∧ opensCall rest = true ∧ identifier ∈ names 0 rest.tail := by
  constructor
  · intro hmem
    unfold updateArguments at hmem
    split at hmem
    next point table earlier hbefore =>
      split at hmem
      next hcall =>
        obtain ⟨hword, hpoint, htable, hopens⟩ := hcall
        have hsplit : before = earlier.reverse ++ [table, point] := by
          rw [← List.reverse_reverse before, hbefore]
          simp
        exact ⟨⟨_, table, point, hsplit, List.contains_iff_mem.mp htable, hpoint, hword⟩, hopens, hmem⟩
      next => cases hmem
    next => cases hmem
  · rintro ⟨⟨earlier, table, point, rfl, htable, hpoint, hword⟩, hopens, hmem⟩
    have hcall : word.text = "update" ∧ point.isPunctuation "." = true ∧
        tables.contains table.text = true ∧ opensCall rest = true :=
      ⟨hword, hpoint, List.contains_iff_mem.mpr htable, hopens⟩
    simp only [List.reverse_append, List.reverse_cons, List.reverse_nil, List.nil_append, List.cons_append,
      updateArguments]
    rw [if_pos hcall]
    exact hmem

theorem mem_tableEntry_iff {word : Token} : identifier ∈ tableEntry word rest ↔
    ∃ opening name closing sign after, rest = opening :: name :: closing :: sign :: after ∧
      word.text ∈ tables ∧ opening.isPunctuation "[" = true ∧ name.kind = .string ∧
      closing.isPunctuation "]" = true ∧ sign.isPunctuation "=" = true ∧
      identifier = name.contentIdentifier .hostVariable := by
  constructor
  · intro hmem
    unfold tableEntry at hmem
    split at hmem
    next opening name closing sign after =>
      split at hmem
      next hentry =>
        obtain ⟨htable, hopening, hname, hclosing, hsign⟩ := hentry
        exact ⟨opening, name, closing, sign, after, rfl, List.contains_iff_mem.mp htable, hopening, hname,
          hclosing, hsign, List.mem_singleton.mp hmem⟩
      next => cases hmem
    next => cases hmem
  · rintro ⟨opening, name, closing, sign, after, rfl, htable, hopening, hname, hclosing, hsign, rfl⟩
    rw [tableEntry, if_pos ⟨List.contains_iff_mem.mpr htable, hopening, hname, hclosing, hsign⟩]
    exact List.mem_singleton_self _

theorem kind_of_mem_templateName {word : Token} (hmem : identifier ∈ templateName word rest) :
    identifier.kind = .templateRef := by
  unfold templateName at hmem
  split at hmem
  next =>
    split at hmem
    · rw [List.mem_singleton.mp hmem]
      rfl
    · cases hmem
  next => cases hmem

theorem mem_collect_iff {before : List Token} : identifier ∈ collect before tokens ↔
    ∃ earlier word rest, tokens = earlier ++ word :: rest ∧ word.kind = .word ∧
      identifier ∈ renderArguments word rest ++ updateArguments (earlier.reverse ++ before) word rest ++
        tableEntry word rest ++ templateName word rest := by
  induction tokens generalizing before with
  | nil => simp [collect]
  | cons token rest ih =>
    rw [collect, List.mem_append, ih]
    constructor
    · rintro (hfound | ⟨earlier, word, later, rfl, hrest⟩)
      · split_ifs at hfound with hword
        · exact ⟨[], token, rest, rfl, hword, hfound⟩
        · cases hfound
      · exact ⟨token :: earlier, word, later, rfl, by simpa using hrest⟩
    · rintro ⟨earlier, word, later, hsplit, hword, hfound⟩
      cases earlier with
      | nil =>
        obtain ⟨rfl, rfl⟩ := List.cons.inj hsplit
        rw [if_pos hword]
        exact .inl hfound
      | cons first earlier =>
        obtain ⟨rfl, rfl⟩ := List.cons.inj hsplit
        exact .inr ⟨earlier, word, later, rfl, hword, by simpa using hfound⟩

theorem InParameters.balanced (hwithin : InParameters tokens) : Balanced (fun _ => True) tokens := by
  obtain ⟨earlier, word, parameters, rfl, hearlier, hword, hparameters⟩ := hwithin
  exact hearlier.append (.plain (isBracket_of_text hword (by decide)) trivial hparameters.balanced)

theorem Named.mono {earlier earlier' : List Token → Prop} (hkey : Named earlier arguments key)
    (himp : ∀ front, earlier front → earlier' front) : Named earlier' arguments key := by
  obtain ⟨front, sign, back, hfront, hnamed⟩ := hkey
  exact ⟨front, sign, back, himp front hfront, hnamed⟩

section Variables

variable {before : List Token} {word : Token}

theorem declared_or_stray (hlist : HasArguments tokens before word arguments)
    (hknown : word.text ∈ renderCalls ∨ IsUpdate before word)
    (hkey : Named (Balanced fun _ => True) arguments key) :
    Declared tokens (key.identifier .hostVariable) ∨ Stray tokens (key.identifier .hostVariable) := by
  rcases handsOver_or_mistaken_iff.mpr hknown with hhands | hmistaken
  · obtain ⟨front, sign, back, hfront, hnamed⟩ := hkey
    rcases complete_or_inParameters hfront with hcomplete | hwithin
    · exact .inl (.argument hlist hhands ⟨front, sign, back, hcomplete, hnamed⟩)
    · exact .inr (.parameter hlist hhands ⟨front, sign, back, hwithin, hnamed⟩)
  · exact .inr (.argument hlist hmistaken hkey)

variable (hbalanced : Balanced (fun _ => True) tokens)
  (hwords : ∀ token ∈ tokens, token.kind = .word → token.isBracket = false)
include hbalanced hwords

theorem mem_collect_of_named (hlist : HasArguments tokens before word arguments)
    (hknown : HandsOver before word ∨ Mistaken before word)
    (hkey : Named (Balanced fun _ => True) arguments key) :
    key.identifier .hostVariable ∈ collect [] tokens := by
  obtain ⟨opening, closing, after, hsplit, hword, -⟩ := id hlist
  have hfound := (opensCall_and_mem_names_iff hbalanced hsplit hwords hword).mpr
    ⟨arguments, key, hlist, hkey, rfl⟩
  refine mem_collect_iff.mpr ⟨before, word, _, hsplit, hword, ?_⟩
  rw [List.append_nil, List.mem_append, List.mem_append, List.mem_append]
  rcases handsOver_or_mistaken_iff.mp hknown with hrender | hupdate
  · exact .inl (.inl (.inl (mem_renderArguments_iff.mpr ⟨hrender, hfound⟩)))
  · exact .inl (.inl (.inr (mem_updateArguments_iff.mpr ⟨hupdate, hfound⟩)))

/-- What the words of a program are taken to declare for templates. -/
theorem mem_collect_variables_iff : identifier ∈ collect [] tokens ∧ identifier.kind = .hostVariable ↔
    Declared tokens identifier ∨ Stray tokens identifier := by
  constructor
  · rintro ⟨hmem, hkind⟩
    obtain ⟨before, word, rest, hsplit, hword, hfound⟩ := mem_collect_iff.mp hmem
    rw [List.append_nil, List.mem_append, List.mem_append, List.mem_append, mem_renderArguments_iff,
      mem_updateArguments_iff, opensCall_and_mem_names_iff hbalanced hsplit hwords hword,
      mem_tableEntry_iff] at hfound
    rcases hfound with ((⟨hrender, _, _, hlist, hkey, rfl⟩ | ⟨hupdate, _, _, hlist, hkey, rfl⟩) | hentry) |
      htemplate
    · exact declared_or_stray hlist (.inl hrender) hkey
    · exact declared_or_stray hlist (.inr hupdate) hkey
    · obtain ⟨_, _, _, _, _, rfl, htable, hopening, hname, hclosing, hsign, rfl⟩ := hentry
      exact .inl (.entry hsplit hword htable hopening hname hclosing hsign)
    · rw [kind_of_mem_templateName htemplate] at hkind
      cases hkind
  · rintro ((⟨hlist, hhands, hkey⟩ | ⟨hsplit, hword, htable, hopening, hname, hclosing, hsign⟩) |
      ⟨hlist, hmistaken, hkey⟩ | ⟨hlist, hhands, hkey⟩)
    · have hfound := hkey.mono fun _ hcomplete => hcomplete.balanced
      exact ⟨mem_collect_of_named hbalanced hwords hlist (.inl hhands) hfound, rfl⟩
    · refine ⟨mem_collect_iff.mpr ⟨_, _, _, hsplit, hword, ?_⟩, rfl⟩
      rw [List.mem_append, List.mem_append]
      exact .inl (.inr (mem_tableEntry_iff.mpr
        ⟨_, _, _, _, _, rfl, htable, hopening, hname, hclosing, hsign, rfl⟩))
    · exact ⟨mem_collect_of_named hbalanced hwords hlist (.inr hmistaken) hkey, rfl⟩
    · have hfound := hkey.mono fun _ hwithin => hwithin.balanced
      exact ⟨mem_collect_of_named hbalanced hwords hlist (.inl hhands) hfound, rfl⟩

end Variables

end KeywordArguments

/-- The variables that are found in a program with balanced brackets are those that it declares for templates
    and the stray names beside them, in the order of their places and none of them twice. -/
theorem scan_variables {source : Source}
    (hbalanced : Balanced (fun _ => True) (tokenize .python source.chars)) :
    let found := (scan .python source).filter (·.kind == .hostVariable)
    found.Pairwise Identifier.Before ∧ ∀ identifier, identifier ∈ found ↔
      KeywordArguments.Declared (tokenize .python source.chars) identifier ∨
        KeywordArguments.Stray (tokenize .python source.chars) identifier := by
  intro found
  have hcollected : ∀ identifier, identifier ∈ scan .python source ↔
      identifier ∈ KeywordArguments.collect [] (tokenize .python source.chars) := by
    intro identifier
    refine ⟨Identifier.mem_of_mem_normalize, fun hmem => Identifier.mem_normalize hmem ?_⟩
    intro other hother hsame
    obtain ⟨token, htoken, hyields⟩ := KeywordArguments.collect_yields [] _ identifier hmem
    obtain ⟨token', htoken', hyields'⟩ := KeywordArguments.collect_yields [] _ other hother
    exact hyields'.unique htoken' hyields htoken hsame
  refine ⟨(Identifier.normalize_increasing _).sublist List.filter_sublist, fun identifier => ?_⟩
  rw [List.mem_filter, hcollected, beq_iff_eq]
  exact KeywordArguments.mem_collect_variables_iff hbalanced
    fun token hmem hword => (Lexer.isName_of_mem hmem hword).isBracket_eq_false

/-- Arguments with a call and a `lambda` among them: the names in the call are passed over, and the parameter
    of the `lambda` is found. -/
theorem scan_variables_nested :
    let source : Source := ⟨"app.py", "page.render(a=f(b=1),c=lambda d=2:d,e=[g])"⟩
    let tokens := tokenize .python source.chars
    let key (column : Nat) (name : String) : Identifier :=
      { range := ⟨⟨0, column⟩, ⟨0, column + 1⟩⟩, name, kind := .hostVariable }
    Balanced (fun _ => True) tokens ∧ ∀ identifier,
      identifier ∈ [key 12 "a", key 21 "c", key 30 "d", key 36 "e"] ↔
        KeywordArguments.Declared tokens identifier ∨ KeywordArguments.Stray tokens identifier := by
  intro source tokens key
  have hbalanced : Balanced (fun _ => True) tokens := by decide +kernel
  have hcollected : KeywordArguments.collect [] tokens =
      [key 12 "a", key 21 "c", key 30 "d", key 36 "e"] := by decide +kernel
  have hfound : (scan .python source).filter (·.kind == .hostVariable) =
      [key 12 "a", key 21 "c", key 30 "d", key 36 "e"] := by
    have hincreasing : [key 12 "a", key 21 "c", key 30 "d", key 36 "e"].Pairwise Identifier.Before := by decide
    exact congrArg _ ((congrArg Identifier.normalize hcollected).trans
      (Identifier.normalize_eq_self hincreasing))
  rw [← hfound]
  exact ⟨hbalanced, (scan_variables hbalanced).2⟩

/-- The parameter of a method that a program defines under the name `render` is taken for a variable of a
    template, though the program declares none. -/
theorem parameter_taken : ∃ (source : Source) (identifier : Identifier),
    Balanced (fun _ => True) (tokenize .python source.chars) ∧ identifier.kind = .hostVariable ∧
      identifier ∈ scan .python source ∧
      ¬ KeywordArguments.Declared (tokenize .python source.chars) identifier := by
  let source : Source := ⟨"app.py", "def render(self, title=1): pass"⟩
  have htexts : ∀ token ∈ tokenize .python source.chars,
      token.text ≠ "." ∧ token.text ∉ KeywordArguments.functions ∧
        token.text ∉ KeywordArguments.tables := by decide +kernel
  have hnone : ∀ identifier, ¬ KeywordArguments.Declared (tokenize .python source.chars) identifier := by
    rintro _ (⟨⟨_, _, _, htokens, _⟩, hhands, _⟩ | ⟨htokens, _, htable, _⟩)
    · rw [htokens] at htexts
      cases hhands with
      | @method _ point _ hpoint => exact (htexts point (by simp)).1 (Token.isPunctuation_iff.mp hpoint).2
      | function hword => exact (htexts _ (by simp)).2.1 hword
      | @update _ table _ _ htable => exact (htexts table (by simp)).2.2 htable
    · rw [htokens] at htexts
      exact (htexts _ (by simp)).2.2 htable
  let title : Identifier := { range := ⟨⟨0, 17⟩, ⟨0, 22⟩⟩, name := "title", kind := .hostVariable }
  exact ⟨source, title, by decide +kernel, rfl, by decide +kernel, hnone title⟩

end TemplateAnalysis.Host
