import TemplateAnalysis.Proofs.Syntax.Scanning

namespace TemplateAnalysis.Syntax

open Template (Keyword Mentions Statement Symbol Tag Token TokenKind)
open Template.Mentions

/-- A token in a place where only some kinds are allowed. -/
structure Leaf (allows : TokenKind → Bool) where
  token : Token
  allowed : allows token.kind = true

/-- A name. Keywords that expressions do not reserve are names as well. -/
abbrev Word := Leaf TokenKind.isName

/-- A given symbol. -/
abbrev Mark (mark : Symbol) := Leaf (· == .symbol mark)

/-- A given keyword. -/
abbrev Reserved (word : Keyword) := Leaf (· == .keyword word)

/-- A place that allows nothing that ends a tag is inside of it. -/
theorem Leaf.isInsideTag {allows : TokenKind → Bool} (leaf : Leaf allows)
    (hend : allows .endOfFile = false) (hforms : ∀ form,
      (allows (.tagBegin form) || allows (.tagEnd form)) = false) :
    leaf.token.kind.isInsideTag = true := by
  have hallowed := leaf.allowed
  cases hkind : leaf.token.kind with
  | endOfFile =>
    rw [hkind, hend] at hallowed
    cases hallowed
  | tagBegin form | tagEnd form =>
    have hform := hforms form
    rw [hkind] at hallowed
    rw [hallowed] at hform
    simp at hform
  | _ => rfl

@[simp] theorem Word.isInsideTag (name : Word) : name.token.kind.isInsideTag = true :=
  Leaf.isInsideTag name rfl fun _ => rfl

@[simp] theorem Mark.isInsideTag {mark : Symbol} (leaf : Mark mark) :
    leaf.token.kind.isInsideTag = true :=
  Leaf.isInsideTag leaf rfl fun _ => rfl

@[simp] theorem Reserved.isInsideTag {word : Keyword} (leaf : Reserved word) :
    leaf.token.kind.isInsideTag = true :=
  Leaf.isInsideTag leaf rfl fun _ => rfl

/-- Whether a kind of token is a number or a string. -/
def isConstant : TokenKind → Bool
  | .integer | .float | .string => true
  | _ => false

/-- Whether a kind of token stands before its operand. -/
def isPrefixOperator : TokenKind → Bool
  | .keyword .notKw | .symbol .minus | .symbol .plus => true
  | _ => false

/-- Whether a kind of token stands between its operands. -/
def isInfixOperator : TokenKind → Bool
  | .symbol mark => isOperator mark
  | .keyword .andKw | .keyword .orKw | .keyword .inKw => true
  | _ => false

/-- Whether a kind of token spreads the argument behind it. -/
def isStar : TokenKind → Bool
  | .symbol .star | .symbol .starStar => true
  | _ => false

/-- What a phrase of an expression is. -/
inductive Category
  | expression
  | arguments
  | items
  | item
  | bound
  | step

/-- The phrases of expressions, with all their tokens. Parentheses that group an expression are a
    display of one item. -/
inductive Phrase : Category → Type
  | reference (name : Word) : Phrase .expression
  | constant (value : Leaf isConstant) : Phrase .expression
  | member (object : Phrase .expression) (dot : Mark .dot) (field : Word) : Phrase .expression
  | subscript (object : Phrase .expression) (opening : Mark .leftBracket) (index : Phrase .items)
    (closing : Mark .rightBracket) : Phrase .expression
  | call (callee : Phrase .expression) (opening : Mark .leftParen) (values : Phrase .items)
    (closing : Mark .rightParen) : Phrase .expression
  | filter (value : Phrase .expression) (pipe : Mark .pipe) (name : Word)
    (arguments : Phrase .arguments) : Phrase .expression
  | test (value : Phrase .expression) (is : Reserved .isKw) (negation : Option (Reserved .notKw))
    (name : Word) (arguments : Phrase .arguments) : Phrase .expression
  /-- A test may have one argument without parentheses. -/
  | testOf (value : Phrase .expression) (is : Reserved .isKw) (negation : Option (Reserved .notKw))
    (name : Word) (argument : Phrase .expression) : Phrase .expression
  | unary (operator : Leaf isPrefixOperator) (operand : Phrase .expression) : Phrase .expression
  | binary (left : Phrase .expression) (operator : Leaf isInfixOperator)
    (right : Phrase .expression) : Phrase .expression
  | notIn (left : Phrase .expression) (negation : Reserved .notKw) (operator : Reserved .inKw)
    (right : Phrase .expression) : Phrase .expression
  | conditional (value : Phrase .expression) (head : Reserved .ifKw)
    (condition : Phrase .expression) : Phrase .expression
  | alternative (value : Phrase .expression) (head : Reserved .ifKw)
    (condition : Phrase .expression) (middle : Reserved .elseKw) (otherwise : Phrase .expression) :
    Phrase .expression
  | display (bracket : Bracket) (opening : Mark bracket.opening) (values : Phrase .items)
    (closing : Mark bracket.closing) : Phrase .expression
  /-- A tuple without parentheses. -/
  | sequence (first : Phrase .expression) (comma : Mark .comma) (second : Phrase .expression) :
    Phrase .expression
  | noArguments : Phrase .arguments
  | someArguments (opening : Mark .leftParen) (values : Phrase .items)
    (closing : Mark .rightParen) : Phrase .arguments
  | noItems : Phrase .items
  | lastItem (item : Phrase .item) : Phrase .items
  | nextItem (item : Phrase .item) (comma : Mark .comma) (rest : Phrase .items) : Phrase .items
  | plain (value : Phrase .expression) : Phrase .item
  | starred (star : Leaf isStar) (value : Phrase .expression) : Phrase .item
  | named (name : Word) (sign : Mark .assign) (value : Phrase .expression) : Phrase .item
  | entry (key : Phrase .expression) (colon : Mark .colon) (value : Phrase .expression) :
    Phrase .item
  | slice (start : Phrase .bound) (colon : Mark .colon) (stop : Phrase .bound)
    (step : Phrase .step) : Phrase .item
  | noBound : Phrase .bound
  | someBound (value : Phrase .expression) : Phrase .bound
  | noStep : Phrase .step
  | someStep (colon : Mark .colon) (step : Phrase .bound) : Phrase .step

namespace Phrase

/-- The tokens of a phrase in the order of the text. -/
def tokens {category : Category} : Phrase category → List Token
  | .reference name => [name.token]
  | .constant value => [value.token]
  | .member object dot field => object.tokens ++ [dot.token, field.token]
  | .subscript object opening index closing =>
    object.tokens ++ opening.token :: (index.tokens ++ [closing.token])
  | .call callee opening values closing =>
    callee.tokens ++ opening.token :: (values.tokens ++ [closing.token])
  | .filter value pipe name arguments =>
    value.tokens ++ pipe.token :: name.token :: arguments.tokens
  | .test value is negation name arguments =>
    value.tokens ++ is.token :: (negation.toList.map (·.token) ++ name.token :: arguments.tokens)
  | .testOf value is negation name argument =>
    value.tokens ++ is.token :: (negation.toList.map (·.token) ++ name.token :: argument.tokens)
  | .unary operator operand => operator.token :: operand.tokens
  | .binary left operator right => left.tokens ++ operator.token :: right.tokens
  | .notIn left negation operator right =>
    left.tokens ++ negation.token :: operator.token :: right.tokens
  | .conditional value head condition => value.tokens ++ head.token :: condition.tokens
  | .alternative value head condition middle otherwise =>
    value.tokens ++ head.token :: (condition.tokens ++ middle.token :: otherwise.tokens)
  | .display _ opening values closing => opening.token :: (values.tokens ++ [closing.token])
  | .sequence first comma second => first.tokens ++ comma.token :: second.tokens
  | .noArguments | .noItems | .noBound | .noStep => []
  | .someArguments opening values closing => opening.token :: (values.tokens ++ [closing.token])
  | .lastItem item => item.tokens
  | .nextItem item comma rest => item.tokens ++ comma.token :: rest.tokens
  | .plain value | .someBound value => value.tokens
  | .starred star value => star.token :: value.tokens
  | .named name sign value => name.token :: sign.token :: value.tokens
  | .entry key colon value => key.tokens ++ colon.token :: value.tokens
  | .slice start colon stop step =>
    start.tokens ++ colon.token :: (stop.tokens ++ step.tokens)
  | .someStep colon step => colon.token :: step.tokens

/-- What a phrase mentions: its variables, its filters and its strings that look like links. The names
    of attributes, tests and arguments are nothing of that kind. -/
def mentions {category : Category} : Phrase category → Mentions
  | .reference name => { references := [name.token.name] }
  | .constant value => if value.token.kind = .string then ofString .value value.token else {}
  | .member object _ _ => object.mentions
  | .subscript object _ index _ => object.mentions ++ index.mentions
  | .call callee _ values _ => callee.mentions ++ values.mentions
  | .filter value _ name arguments =>
    value.mentions ++ ({ filters := [name.token.name] } ++ arguments.mentions)
  | .test value _ _ _ arguments => value.mentions ++ arguments.mentions
  | .testOf value _ _ _ argument => value.mentions ++ argument.mentions
  | .unary _ operand => operand.mentions
  | .binary left _ right => left.mentions ++ right.mentions
  | .notIn left _ _ right => left.mentions ++ right.mentions
  | .conditional value _ condition => value.mentions ++ condition.mentions
  | .alternative value _ condition _ otherwise =>
    value.mentions ++ (condition.mentions ++ otherwise.mentions)
  | .display _ _ values _ => values.mentions
  | .sequence first _ second => first.mentions ++ second.mentions
  | .noArguments | .noItems | .noBound | .noStep => {}
  | .someArguments _ values _ => values.mentions
  | .lastItem item => item.mentions
  | .nextItem item _ rest => item.mentions ++ rest.mentions
  | .plain value | .someBound value => value.mentions
  | .starred _ value => value.mentions
  | .named _ _ value => value.mentions
  | .entry key _ value => key.mentions ++ value.mentions
  | .slice start _ stop step => start.mentions ++ (stop.mentions ++ step.mentions)
  | .someStep _ step => step.mentions

end Phrase

/-- Tokens are scanned as a whole where an operand can stand, within so many brackets at least: the
    scan finds what they mention, comes back to the same number of brackets, and takes the next word
    for a variable again. An equals sign would turn the word before it into the name of an argument, so
    none may come first or follow. -/
structure Scanned (low : Nat) (tokens : List Token) (mentions : Mentions) : Prop where
  head : tokens.head?.map Token.kind ≠ some (.symbol .assign)
  scan : ∀ left rest, Neutral left → low ≤ left.depth →
    rest.head?.map Token.kind ≠ some (.symbol .assign) → ∃ after, Neutral after ∧
      after.depth = left.depth ∧ Mentions.scan [] .value left (tokens ++ rest) =
        (mentions ++ (Mentions.scan [] .value after rest).1, (Mentions.scan [] .value after rest).2)

section Steps

variable {left : Left} {token : Token} {rest : List Token}

/-- Only a bracket that closes can end a scan without words that stop it. -/
theorem scan_cons (hopen : closesBracket token.kind = false ∨ 0 < left.depth) :
    Mentions.scan [] .value left (token :: rest) =
      (ofToken .value left token rest ++ (Mentions.scan [] .value (left.push token.kind) rest).1,
        (Mentions.scan [] .value (left.push token.kind) rest).2) := by
  have hends : endsAt [] left token = false := by
    rw [endsAt, List.contains_nil, Bool.false_or]
    rcases hopen with hopen | hdepth
    · rw [hopen, Bool.and_false]
    · rw [beq_eq_false_iff_ne.mpr (Nat.ne_of_gt hdepth), Bool.false_and]
  rw [Mentions.scan, hends]
  rfl

/-- A token that mentions nothing only changes what lies to the left. -/
theorem scan_silent (hcloses : closesBracket token.kind = false)
    (hnothing : ofToken .value left token rest = {}) :
    Mentions.scan [] .value left (token :: rest) =
      Mentions.scan [] .value (left.push token.kind) rest := by
  rw [scan_cons (.inl hcloses), hnothing, empty_append]

theorem ofToken_symbol {mark : Symbol} (hkind : token.kind = .symbol mark) :
    ofToken .value left token rest = {} := by
  rw [ofToken, hkind]

theorem ofToken_operator {word : Keyword} (hkind : token.kind = .keyword word)
    (hword : word.isOperator = true) (hneutral : left.last ≠ some (.symbol .pipe)) :
    ofToken .value left token rest = {} := by
  rw [ofToken, hkind]
  simp only [ofWord, hkind, TokenKind.isOperatorKeyword, hword, hneutral, if_true, if_false]
  split
  next => rfl
  next => split <;> rfl

theorem ofToken_word (hname : token.kind.isName = true) :
    ofToken .value left token rest = ofWord left token rest := by
  rw [ofToken]
  cases hkind : token.kind <;> first | rfl | (rw [hkind] at hname; cases hname)

theorem closesBracket_of_isName {kind : TokenKind} (hname : kind.isName = true) :
    closesBracket kind = false := by
  cases kind <;> first | rfl | cases hname

theorem isOperatorKeyword_of_isName {kind : TokenKind} (hname : kind.isName = true) :
    kind.isOperatorKeyword = false := by
  rw [TokenKind.isName, Bool.and_eq_true, Bool.not_eq_true'] at hname
  exact hname.2

theorem head_of_leaf {allows : TokenKind → Bool} (leaf : Leaf allows)
    (hassign : allows (.symbol .assign) = false) :
    (leaf.token :: rest).head?.map Token.kind ≠ some (.symbol .assign) := by
  intro hhead
  have hallowed := leaf.allowed
  rw [Option.some.inj hhead, hassign] at hallowed
  cases hallowed

variable (left) in
/-- A name opens and closes nothing, so the next word is a variable. -/
theorem push_of_isName {kind : TokenKind} (hname : kind.isName = true) :
    Neutral (left.push kind) ∧ (left.push kind).depth = left.depth := by
  cases kind with
  | identifier =>
    exact ⟨neutral_push (by rintro ⟨⟩) (by rintro ⟨⟩) (by rintro ⟨⟩) (by rintro ⟨⟩), rfl⟩
  | keyword word =>
    refine ⟨neutral_push (by rintro ⟨⟩) (by rintro ⟨⟩) ?_ ?_, rfl⟩ <;> rintro ⟨⟩ <;> cases hname
  | _ => cases hname

/-- A name is scanned for what it is where it stands, and the next word is a variable again. -/
theorem scan_name (name : Word) {mentions : Mentions}
    (hreads : ofWord left name.token rest = mentions) : ∃ after, Neutral after ∧
      after.depth = left.depth ∧ Mentions.scan [] .value left (name.token :: rest) =
        (mentions ++ (Mentions.scan [] .value after rest).1, (Mentions.scan [] .value after rest).2) := by
  obtain ⟨hpush, hdepth⟩ := push_of_isName left name.allowed
  refine ⟨_, hpush, hdepth, ?_⟩
  rw [scan_cons (.inl (closesBracket_of_isName name.allowed)), ofToken_word name.allowed, hreads]

variable (left) in
theorem push_of_isSeparator {kind : TokenKind} (hkind : isSeparator kind = true) :
    closesBracket kind = false ∧ Neutral (left.push kind) ∧ (left.push kind).depth = left.depth := by
  cases kind with
  | symbol mark =>
    have hmark := separates_mark hkind
    exact ⟨hmark.closes, hmark.neutral left, hmark.depth left⟩
  | keyword word =>
    have hword := separates_word hkind
    exact ⟨hword.closes, hword.neutral left, hword.depth left⟩
  | _ => cases hkind

end Steps

namespace Scanned

variable {low : Nat} {first second tokens : List Token} {mentions later : Mentions} {token : Token}

theorem mono {high : Nat} (hscanned : Scanned low tokens mentions) (hle : low ≤ high) :
    Scanned high tokens mentions where
  head := hscanned.head
  scan left rest hneutral hdepth := hscanned.scan left rest hneutral (Nat.le_trans hle hdepth)

theorem nil : Scanned low [] {} where
  head := by rintro ⟨⟩
  scan left rest hneutral _ _ := ⟨left, hneutral, rfl, by rw [empty_append]; rfl⟩

theorem append (hfirst : Scanned low first mentions) (hsecond : Scanned low second later) :
    Scanned low (first ++ second) (mentions ++ later) where
  head := by
    cases first with
    | nil => exact hsecond.head
    | cons token rest => exact hfirst.head
  scan left rest hneutral hdepth hrest := by
    have hnext : (second ++ rest).head?.map Token.kind ≠ some (.symbol .assign) := by
      cases second with
      | nil => exact hrest
      | cons token second => exact hsecond.head
    obtain ⟨middle, hmiddle, hsame, hscan⟩ := hfirst.scan left (second ++ rest) hneutral hdepth hnext
    obtain ⟨after, hafter, hback, hlater⟩ :=
      hsecond.scan middle rest hmiddle (hsame.symm ▸ hdepth) hrest
    refine ⟨after, hafter, hback.trans hsame, ?_⟩
    rw [List.append_assoc, hscan, hlater, append_assoc]

/-- A token that mentions nothing can stand before a phrase, and behind one. -/
theorem cons (htoken : Scanned low [token] {}) (hrest : Scanned low tokens mentions) :
    Scanned low (token :: tokens) mentions :=
  empty_append mentions ▸ htoken.append hrest

theorem separator (hkind : isSeparator token.kind = true) (hassign : token.kind ≠ .symbol .assign) :
    Scanned low [token] {} where
  head := fun hhead => hassign (Option.some.inj hhead)
  scan left rest hneutral _ _ := by
    obtain ⟨hcloses, hpush, hdepth⟩ := push_of_isSeparator left hkind
    have hnothing : ofToken .value left token rest = {} := by
      cases hsame : token.kind with
      | symbol mark => exact ofToken_symbol hsame
      | keyword word =>
        refine ofToken_operator hsame ?_ hneutral.pipe
        rw [hsame] at hkind
        cases word <;> first | rfl | cases hkind
      | _ =>
        rw [hsame] at hkind
        cases hkind
    refine ⟨_, hpush, hdepth, ?_⟩
    rw [List.singleton_append, scan_cons (.inl hcloses), hnothing]

/-- A token whose place allows only what separates mentions nothing. -/
theorem leaf {allows : TokenKind → Bool} (leaf : Leaf allows)
    (hallows : ∀ kind, allows kind = true → isSeparator kind = true ∧ kind ≠ .symbol .assign) :
    Scanned low [leaf.token] {} :=
  separator (hallows leaf.token.kind leaf.allowed).1 (hallows leaf.token.kind leaf.allowed).2

theorem mark {mark : Symbol} (leaf : Mark mark)
    (hmark : (isSeparator (.symbol mark) && mark != .assign) = true) : Scanned low [leaf.token] {} := by
  rw [Bool.and_eq_true, bne_iff_ne] at hmark
  refine Scanned.leaf leaf fun kind hkind => ?_
  rw [eq_of_beq hkind]
  exact ⟨hmark.1, fun hassign => hmark.2 (TokenKind.symbol.inj hassign)⟩

theorem reserved {word : Keyword} (leaf : Reserved word) (hword : isSeparator (.keyword word) = true) :
    Scanned low [leaf.token] {} := by
  refine Scanned.leaf leaf fun kind hkind => ?_
  rw [eq_of_beq hkind]
  exact ⟨hword, by rintro ⟨⟩⟩

theorem star (star : Leaf isStar) : Scanned low [star.token] {} := by
  refine Scanned.leaf star fun kind hkind => ?_
  unfold isStar at hkind
  split at hkind
  · exact ⟨rfl, by rintro ⟨⟩⟩
  · exact ⟨rfl, by rintro ⟨⟩⟩
  · cases hkind

theorem binary (operator : Leaf isInfixOperator) : Scanned low [operator.token] {} := by
  refine Scanned.leaf operator fun kind hkind => ?_
  unfold isInfixOperator at hkind
  split at hkind
  · rw [isSeparator, hkind]
    refine ⟨rfl, ?_⟩
    rintro ⟨⟩
    cases hkind
  · exact ⟨rfl, by rintro ⟨⟩⟩
  · exact ⟨rfl, by rintro ⟨⟩⟩
  · exact ⟨rfl, by rintro ⟨⟩⟩
  · cases hkind

theorem negation (word : Reserved .notKw) : Scanned low [word.token] {} where
  head := head_of_leaf word rfl
  scan left rest hneutral _ _ := by
    have hkind : word.token.kind = .keyword .notKw := eq_of_beq word.allowed
    have hlast : left.last ≠ some (.keyword .isKw) := by
      intro hlast
      have htest := hneutral.test
      rw [Left.expectsTest, hlast] at htest
      cases htest
    have hpush : Neutral (left.push word.token.kind) := by
      rw [hkind]
      exact neutral_push (by rintro ⟨⟩) (by rintro ⟨⟩) (by rintro ⟨⟩) fun _ => hlast
    refine ⟨_, hpush, by rw [hkind]; rfl, ?_⟩
    rw [List.singleton_append, scan_cons (.inl (by rw [hkind]; rfl)),
      ofToken_operator hkind rfl hneutral.pipe]

theorem unary (operator : Leaf isPrefixOperator) : Scanned low [operator.token] {} := by
  obtain ⟨token, hallowed⟩ := operator
  have hcases : token.kind = .keyword .notKw ∨ token.kind = .symbol .minus ∨
      token.kind = .symbol .plus := by
    unfold isPrefixOperator at hallowed
    split at hallowed
    next hkind => exact .inl hkind
    next hkind => exact .inr (.inl hkind)
    next hkind => exact .inr (.inr hkind)
    next => cases hallowed
  rcases hcases with hkind | hkind | hkind
  · exact negation ⟨token, beq_iff_eq.mpr hkind⟩
  · exact mark ⟨token, beq_iff_eq.mpr hkind⟩ rfl
  · exact mark ⟨token, beq_iff_eq.mpr hkind⟩ rfl

theorem reference (name : Word) : Scanned low [name.token] { references := [name.token.name] } where
  head := head_of_leaf name rfl
  scan left rest hneutral _ hrest := by
    refine scan_name name ?_
    simp [ofWord, hneutral.dot, hneutral.pipe, hneutral.test,
      isOperatorKeyword_of_isName name.allowed, hrest]

/-- A word within brackets before an equals sign names an argument. -/
theorem named (name : Word) (sign : Mark .assign) (hvalue : Scanned 1 tokens mentions) :
    Scanned 1 (name.token :: sign.token :: tokens) mentions where
  head := head_of_leaf name rfl
  scan left rest hneutral hdepth hrest := by
    have hsign : sign.token.kind = .symbol .assign := eq_of_beq sign.allowed
    have hnothing : ofWord left name.token (sign.token :: (tokens ++ rest)) = {} := by
      simp [ofWord, hneutral.dot, hneutral.pipe, hneutral.test, hsign, Nat.ne_of_gt hdepth]
    obtain ⟨middle, _, hsame, hname⟩ := scan_name name hnothing
    have hseparates : isSeparator sign.token.kind = true := by rw [hsign]; rfl
    obtain ⟨hcloses, hpush, hpushDepth⟩ := push_of_isSeparator middle hseparates
    have hback := hpushDepth.trans hsame
    obtain ⟨after, hafter, hafterDepth, hscan⟩ :=
      hvalue.scan (middle.push sign.token.kind) rest hpush (hback.symm ▸ hdepth) hrest
    refine ⟨after, hafter, hafterDepth.trans hback, ?_⟩
    rw [List.cons_append, List.cons_append, hname, empty_append,
      scan_silent hcloses (ofToken_symbol hsign), hscan]

theorem member (dot : Mark .dot) (field : Word) : Scanned low [dot.token, field.token] {} where
  head := head_of_leaf dot rfl
  scan left rest _ _ _ := by
    have hkind : dot.token.kind = .symbol .dot := eq_of_beq dot.allowed
    have hnothing : ofWord (left.push dot.token.kind) field.token rest = {} := by
      rw [ofWord, hkind]
      exact if_pos rfl
    obtain ⟨after, hafter, hdepth, hscan⟩ := scan_name field hnothing
    refine ⟨after, hafter, hdepth.trans (by rw [hkind]; rfl), ?_⟩
    rw [List.cons_append, List.singleton_append,
      scan_silent (by rw [hkind]; rfl) (ofToken_symbol hkind), hscan]

theorem filter (pipe : Mark .pipe) (name : Word) :
    Scanned low [pipe.token, name.token] { filters := [name.token.name] } where
  head := head_of_leaf pipe rfl
  scan left rest _ _ _ := by
    have hkind : pipe.token.kind = .symbol .pipe := eq_of_beq pipe.allowed
    have hfilter : ofWord (left.push pipe.token.kind) name.token rest =
        { filters := [name.token.name] } := by
      rw [ofWord, hkind]
      exact (if_neg (by rintro ⟨⟩)).trans (if_pos rfl)
    obtain ⟨after, hafter, hdepth, hscan⟩ := scan_name name hfilter
    refine ⟨after, hafter, hdepth.trans (by rw [hkind]; rfl), ?_⟩
    rw [List.cons_append, List.singleton_append,
      scan_silent (by rw [hkind]; rfl) (ofToken_symbol hkind), hscan]

/-- A word behind `is`, or behind `is not`, names a test. -/
theorem test (is : Reserved .isKw) (negation : Option (Reserved .notKw)) (name : Word) :
    Scanned low (is.token :: (negation.toList.map (·.token) ++ [name.token])) {} where
  head := head_of_leaf is rfl
  scan left rest hneutral _ _ := by
    have his : is.token.kind = .keyword .isKw := eq_of_beq is.allowed
    have hword : name.token.kind ≠ .keyword .notKw := by
      intro hkind
      have hname := name.allowed
      rw [hkind] at hname
      cases hname
    have hsilent : ∀ rest, Mentions.scan [] .value left (is.token :: rest) =
        Mentions.scan [] .value (left.push is.token.kind) rest := fun rest =>
      scan_silent (by rw [his]; rfl) (ofToken_operator his rfl hneutral.pipe)
    cases negation with
    | none =>
      have hnothing : ofWord (left.push is.token.kind) name.token rest = {} := by
        simp [ofWord, his, Left.push, Left.expectsTest, hword]
      obtain ⟨after, hafter, hdepth, hscan⟩ := scan_name name hnothing
      refine ⟨after, hafter, hdepth.trans (by rw [his]; rfl), ?_⟩
      rw [Option.toList_none, List.map_nil, List.nil_append, List.cons_append,
        List.singleton_append, hsilent, hscan]
    | some word =>
      have hnot : word.token.kind = .keyword .notKw := eq_of_beq word.allowed
      have hnothing : ofWord ((left.push is.token.kind).push word.token.kind) name.token rest = {} := by
        simp [ofWord, his, hnot, Left.push, Left.expectsTest, hword]
      obtain ⟨after, hafter, hdepth, hscan⟩ := scan_name name hnothing
      refine ⟨after, hafter, hdepth.trans (by rw [his, hnot]; rfl), ?_⟩
      have hquiet : ofToken .value (left.push is.token.kind) word.token (name.token :: rest) = {} := by
        refine ofToken_operator hnot rfl ?_
        rw [his]
        rintro ⟨⟩
      simp only [Option.toList_some, List.map_cons, List.map_nil, List.cons_append, List.nil_append]
      rw [hsilent, scan_silent (by rw [hnot]; rfl) hquiet, hscan]

/-- What stands between brackets is scanned within one bracket more. -/
theorem brackets (bracket : Bracket) (opening : Mark bracket.opening) (closing : Mark bracket.closing)
    (hinner : Scanned 1 tokens mentions) :
    Scanned low (opening.token :: (tokens ++ [closing.token])) mentions where
  head := head_of_leaf opening (by cases bracket <;> rfl)
  scan left rest _ _ _ := by
    have hopening : opening.token.kind = .symbol bracket.opening := eq_of_beq opening.allowed
    have hclosing : closing.token.kind = .symbol bracket.closing := eq_of_beq closing.allowed
    have hneutral : ∀ (left : Left) (mark : Symbol), mark = bracket.opening ∨ mark = bracket.closing →
        Neutral (left.push (.symbol mark)) := by
      intro left mark hmark
      refine neutral_push ?_ ?_ (by rintro ⟨⟩) (by rintro ⟨⟩) <;>
        rintro ⟨⟩ <;> cases bracket <;> rcases hmark with hmark | hmark <;> cases hmark
    have hdeeper : (left.push opening.token.kind).depth = left.depth + 1 := by
      rw [hopening]
      cases bracket <;> rfl
    have hnext : (closing.token :: rest).head?.map Token.kind ≠ some (.symbol .assign) :=
      head_of_leaf closing (by cases bracket <;> rfl)
    obtain ⟨inside, _, hsame, hscan⟩ := hinner.scan (left.push opening.token.kind)
      (closing.token :: rest) (by rw [hopening]; exact hneutral left _ (.inl rfl))
      (hdeeper.symm ▸ Nat.le_add_left 1 left.depth) hnext
    have hback : (inside.push closing.token.kind).depth = left.depth := by
      have hpush : (inside.push closing.token.kind).depth = inside.depth - 1 := by
        rw [hclosing]
        cases bracket <;> rfl
      rw [hpush, hsame, hdeeper, Nat.add_sub_cancel]
    have hopen : 0 < inside.depth := by
      rw [hsame, hdeeper]
      exact Nat.succ_pos _
    have hpush : Neutral (inside.push closing.token.kind) := by
      rw [hclosing]
      exact hneutral inside _ (.inr rfl)
    refine ⟨inside.push closing.token.kind, hpush, hback, ?_⟩
    rw [List.cons_append, List.append_assoc, List.singleton_append,
      scan_silent (by rw [hopening]; cases bracket <;> rfl) (ofToken_symbol hopening), hscan,
      scan_cons (.inr hopen), ofToken_symbol hclosing, empty_append]

theorem constant (value : Leaf isConstant) : Scanned low [value.token]
    (if value.token.kind = .string then ofString .value value.token else {}) where
  head := head_of_leaf value rfl
  scan left rest _ _ _ := by
    obtain ⟨token, hallowed⟩ := value
    have hpush : Neutral (left.push token.kind) := by
      refine neutral_push ?_ ?_ ?_ ?_ <;> intro hkind <;> rw [hkind] at hallowed <;> cases hallowed
    refine ⟨_, hpush, ?_, ?_⟩
    · cases hkind : token.kind <;> first | rfl | (rw [hkind] at hallowed; cases hallowed)
    · have hcloses : closesBracket token.kind = false := by
        cases hkind : token.kind <;> first | rfl | (rw [hkind] at hallowed; cases hallowed)
      have hmentions : ofToken .value left token rest =
          if token.kind = .string then ofString .value token else {} := by
        rw [ofToken]
        cases hkind : token.kind <;> first | rfl | (rw [hkind] at hallowed; cases hallowed)
      rw [List.singleton_append, scan_cons (.inl hcloses), hmentions]

end Scanned

namespace Phrase

/-- The items between brackets can name arguments; the other phrases can stand outside of brackets. -/
def low : Category → Nat
  | .items | .item => 1
  | .expression | .arguments | .bound | .step => 0

/-- A phrase is scanned for what it mentions. The induction is on the phrase: its tokens are those of
    its parts and what stands between them. -/
theorem scanned {category : Category} (phrase : Phrase category) :
    Scanned (low category) phrase.tokens phrase.mentions := by
  induction phrase with
  | reference name => exact .reference name
  | constant value => exact .constant value
  | member object dot field ihObject =>
    exact append_empty object.mentions ▸ ihObject.append (.member dot field)
  | subscript object opening index closing ihObject ihIndex =>
    exact ihObject.append (.brackets .square opening closing ihIndex)
  | call callee opening values closing ihCallee ihValues =>
    exact ihCallee.append (.brackets .round opening closing ihValues)
  | filter value pipe name arguments ihValue ihArguments =>
    exact ihValue.append ((Scanned.filter pipe name).append ihArguments)
  | test value is negation name arguments ihValue ihArguments =>
    have htest := (Scanned.test is negation name).append ihArguments
    rw [empty_append, List.cons_append, List.append_assoc, List.singleton_append] at htest
    exact ihValue.append htest
  | testOf value is negation name argument ihValue ihArgument =>
    have htest := (Scanned.test is negation name).append ihArgument
    rw [empty_append, List.cons_append, List.append_assoc, List.singleton_append] at htest
    exact ihValue.append htest
  | unary operator operand ihOperand => exact (Scanned.unary operator).cons ihOperand
  | binary left operator right ihLeft ihRight =>
    exact ihLeft.append ((Scanned.binary operator).cons ihRight)
  | notIn left negation operator right ihLeft ihRight =>
    exact ihLeft.append ((Scanned.negation negation).cons ((Scanned.reserved operator rfl).cons ihRight))
  | conditional value head condition ihValue ihCondition =>
    exact ihValue.append ((Scanned.reserved head rfl).cons ihCondition)
  | alternative value head condition middle otherwise ihValue ihCondition ihOtherwise =>
    exact ihValue.append ((Scanned.reserved head rfl).cons
      (ihCondition.append ((Scanned.reserved middle rfl).cons ihOtherwise)))
  | display bracket opening values closing ihValues =>
    exact .brackets bracket opening closing ihValues
  | sequence first comma second ihFirst ihSecond =>
    exact ihFirst.append ((Scanned.mark comma rfl).cons ihSecond)
  | noArguments | noItems | noBound | noStep => exact .nil
  | someArguments opening values closing ihValues => exact .brackets .round opening closing ihValues
  | lastItem item ihItem => exact ihItem
  | nextItem item comma rest ihItem ihRest =>
    exact ihItem.append ((Scanned.mark comma rfl).cons ihRest)
  | plain value ihValue => exact ihValue.mono (Nat.zero_le 1)
  | someBound value ihValue => exact ihValue
  | starred star value ihValue => exact (Scanned.star star).cons (ihValue.mono (Nat.zero_le 1))
  | named name sign value ihValue => exact .named name sign (ihValue.mono (Nat.zero_le 1))
  | entry key colon value ihKey ihValue =>
    exact (ihKey.append ((Scanned.mark colon rfl).cons ihValue)).mono (Nat.zero_le 1)
  | slice start colon stop step ihStart ihStop ihStep =>
    exact (ihStart.append ((Scanned.mark colon rfl).cons (ihStop.append ihStep))).mono (Nat.zero_le 1)
  | someStep colon step ihStep => exact (Scanned.mark colon rfl).cons ihStep

/-- The tokens of a phrase stand inside a tag. -/
theorem all_isInsideTag {category : Category} (phrase : Phrase category) :
    phrase.tokens.all (·.kind.isInsideTag) = true := by
  induction phrase with
  | constant value => simp [tokens, value.isInsideTag rfl fun _ => rfl]
  | unary operator _ ihOperand =>
    simpa [tokens, operator.isInsideTag rfl fun _ => rfl] using ihOperand
  | binary _ operator _ ihLeft ihRight =>
    simp_all [tokens, operator.isInsideTag rfl fun _ => rfl]
  | starred star _ ihValue => simpa [tokens, star.isInsideTag rfl fun _ => rfl] using ihValue
  | _ => simp_all [tokens]

/-- An expression is read up to the end of its tag, and what is recorded is what its tree mentions: its
    variables are the references and its filters the filters, each in the order of the text. -/
theorem mentions_exact (expression : Phrase .expression) :
    Mentions.expression [] expression.tokens = (expression.mentions, []) ∧
      ∀ (stop : Position) (opening : Leaf (· == .tagBegin .expression))
        (closing : Leaf (! ·.isInsideTag)) (rest : List Token), ∃ tag later,
        Tag.ofTokens stop (opening.token :: (expression.tokens ++ closing.token :: rest)) =
          tag :: later ∧
        tag.body = expression.tokens ∧ Statement.ofTag tag = .evaluate expression.mentions := by
  have hscan : Mentions.expression [] expression.tokens = (expression.mentions, []) := by
    obtain ⟨after, _, _, hscan⟩ := expression.scanned.scan {} []
      ⟨by rintro ⟨⟩, by rintro ⟨⟩, rfl⟩ (Nat.zero_le _) (by rintro ⟨⟩)
    rw [List.append_nil] at hscan
    rw [Mentions.expression, hscan, Mentions.scan, append_empty]
  refine ⟨hscan, fun stop opening closing rest => ?_⟩
  have hopening : opening.token.kind = .tagBegin .expression := eq_of_beq opening.allowed
  have hclosing : closing.token.kind.isInsideTag = false := Bool.not_eq_true' _ ▸ closing.allowed
  have hbody : (expression.tokens ++ closing.token :: rest).takeWhile (·.kind.isInsideTag) =
      expression.tokens := by
    rw [List.takeWhile_append_of_pos (List.all_eq_true.mp expression.all_isInsideTag),
      List.takeWhile_cons_of_neg (by rw [hclosing]; exact Bool.false_ne_true), List.append_nil]
  refine ⟨_, _, by rw [Tag.ofTokens, hopening], hbody, ?_⟩
  rw [Statement.ofTag]
  simp only [hbody, hscan]

end Phrase

end TemplateAnalysis.Syntax
