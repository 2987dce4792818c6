import TemplateAnalysis.Proofs.Syntax.Expression
import TemplateAnalysis.Proofs.Template.Reading

namespace TemplateAnalysis.Syntax

open Template (Mentions Name StringMeaning Symbol Token TokenKind)
open Template.Mentions

/-- Whether an operand can end with a kind of token. -/
def endsOperand : TokenKind → Bool
  | .identifier | .integer | .float | .string
  | .symbol .rightParen | .symbol .rightBracket | .symbol .rightBrace => true
  | _ => false

/-- What lies to the left where an operand is expected: nothing that makes the next word anything but a
    variable. -/
structure Neutral (left : Left) : Prop where
  dot : left.last ≠ some (.symbol .dot)
  pipe : left.last ≠ some (.symbol .pipe)
  test : left.expectsTest = false

/-- What lies to the left where an operand has ended, within so many brackets. -/
def Settled (depth : Nat) (left : Left) : Prop :=
  left.depth = depth ∧ ∃ kind, left.last = some kind ∧ endsOperand kind = true

/-- A part is read as its role says where it stands: as a variable or not. -/
def Fits (left : Left) (next : Option TokenKind) (part : Part) : Prop :=
  ∀ (meaning : StringMeaning) (token : Token) (rest : List Token), token.kind = part.kind →
    rest.head?.map Token.kind = next →
    (ofToken meaning left token rest).references = if part.role.isRead then [token.name] else []

/-- Parts are read as their roles say, all brackets that close among them open above a depth, and
    something holds afterwards. The kind of what follows is given. -/
def Scans (base : Nat) (left : Left) (next : Option TokenKind) :
    List Part → (Left → Prop) → Prop
  | [], after => after left
  | part :: rest, after =>
    Fits left ((rest.head?.map Part.kind).or next) part ∧
      (closesBracket part.kind = true → base < left.depth) ∧
      Scans base (left.push part.kind) next rest after

section Parts

variable {left : Left} {next : Option TokenKind}

theorem fits_symbol (mark : Symbol) : Fits left next (.mark mark) := by
  intro meaning token rest hkind _
  rw [ofToken, hkind]
  rfl

theorem fits_number (value : Numeral) : Fits left next { lexeme := .number value } := by
  intro meaning token rest hkind _
  rw [ofToken, hkind]
  simp only [Part.kind, Lexeme.kind]
  rcases value.kind_cases with hinteger | hfloat
  · rw [hinteger]
    rfl
  · rw [hfloat]
    rfl

theorem fits_string (value : Literal) : Fits left next { lexeme := .string value } := by
  intro meaning token rest hkind _
  rw [ofToken, hkind]
  simp only [Part.kind, Lexeme.kind, ofString]
  cases meaning with
  | template => rfl
  | value => simp only; split <;> rfl

theorem fits_operator {word : Template.Keyword} (hword : word.isOperator = true) :
    Fits left next (.word word) := by
  intro meaning token rest hkind _
  rw [ofToken, hkind]
  simp only [Part.kind, Part.word, Lexeme.kind, ofWord, hkind, TokenKind.isOperatorKeyword, hword]
  split
  next => rfl
  next =>
    split
    next => rfl
    next => split <;> rfl

theorem fits_variable (hneutral : Neutral left) (hnext : next ≠ some (.symbol .assign)) (name : Ident) :
    Fits left next (.name .read name) := by
  intro meaning token rest hkind hrest
  rw [← hrest] at hnext
  rw [ofToken, hkind]
  simp [Part.kind, Part.name, Lexeme.kind, ofWord, hkind, TokenKind.isOperatorKeyword, hneutral.dot,
    hneutral.pipe, hneutral.test, hnext, Role.isRead]

/-- A word after a point or in a test is no variable. -/
theorem fits_member (hdot : left.last = some (.symbol .dot)) (name : Ident) :
    Fits left next (.name .plain name) := by
  intro meaning token rest hkind _
  rw [ofToken, hkind]
  simp [Part.kind, Part.name, Lexeme.kind, ofWord, hdot, Role.isRead]

theorem fits_filter (hpipe : left.last = some (.symbol .pipe)) (name : Ident) :
    Fits left next (.name .filter name) := by
  intro meaning token rest hkind _
  rw [ofToken, hkind]
  simp [Part.kind, Part.name, Lexeme.kind, ofWord, hpipe, Role.isRead]

theorem fits_test (hdot : left.last ≠ some (.symbol .dot)) (hpipe : left.last ≠ some (.symbol .pipe))
    (htest : left.expectsTest = true) (name : Ident) : Fits left next (.name .plain name) := by
  intro meaning token rest hkind _
  rw [ofToken, hkind]
  simp [Part.kind, Part.name, Lexeme.kind, ofWord, hdot, hpipe, htest, hkind, Role.isRead]

/-- The name of an argument is no variable. -/
theorem fits_argument (hneutral : Neutral left) (hdepth : 0 < left.depth) (name : Ident) :
    Fits left (some (.symbol .assign)) (.name .plain name) := by
  intro meaning token rest hkind hrest
  rw [ofToken, hkind]
  simp [Part.kind, Part.name, Lexeme.kind, ofWord, hneutral.dot, hneutral.pipe, hneutral.test, hdepth,
    hrest, hkind, TokenKind.isOperatorKeyword, Role.isRead]

end Parts

/-- Whether an operand is expected after a kind of token, wherever it stands. -/
def isSeparator : TokenKind → Bool
  | .symbol mark => isOperator mark || mark == .comma || mark == .colon || mark == .assign
  | .keyword word =>
    word == .andKw || word == .orKw || word == .inKw || word == .ifKw || word == .elseKw
  | _ => false

/-- A part after which an operand is expected, wherever it stands. -/
structure Separates (part : Part) : Prop where
  fits : ∀ left next, Fits left next part
  closes : closesBracket part.kind = false
  neutral : ∀ left : Left, Neutral (left.push part.kind)
  depth : ∀ left : Left, (left.push part.kind).depth = left.depth

theorem neutral_push {left : Left} {kind : TokenKind} (hdot : kind ≠ .symbol .dot)
    (hpipe : kind ≠ .symbol .pipe) (his : kind ≠ .keyword .isKw)
    (hnot : kind = .keyword .notKw → left.last ≠ some (.keyword .isKw)) : Neutral (left.push kind) where
  dot := fun hlast => hdot (Option.some.inj hlast)
  pipe := fun hlast => hpipe (Option.some.inj hlast)
  test := by
    simp only [Left.push, Left.expectsTest, Bool.or_eq_false_iff, beq_eq_false_iff_ne, ne_eq,
      Option.some.injEq, his, not_false_eq_true, Bool.and_eq_false_imp, beq_iff_eq, true_and]
    exact hnot

theorem separates_mark {mark : Symbol} (hmark : isSeparator (.symbol mark) = true) :
    Separates (.mark mark) where
  fits _ _ := fits_symbol mark
  closes := by cases mark <;> first | rfl | cases hmark
  neutral left := by
    refine neutral_push ?_ ?_ (by rintro ⟨⟩) (by rintro ⟨⟩) <;> rintro ⟨⟩ <;> cases hmark
  depth left := by cases mark <;> first | rfl | cases hmark

theorem separates_word {word : Template.Keyword} (hword : isSeparator (.keyword word) = true) :
    Separates (.word word) where
  fits _ _ := fits_operator (by cases word <;> first | rfl | cases hword)
  closes := rfl
  neutral left := by
    refine neutral_push (by rintro ⟨⟩) (by rintro ⟨⟩) ?_ ?_ <;> rintro ⟨⟩ <;> cases hword
  depth left := rfl

section Operands

variable {base depth : Nat} {left : Left} {next : Option TokenKind} {rest : List Part}
  {P : Left → Prop}

/-- What comes before something else is no name of an argument. -/
def NoArgument (next : Option TokenKind) (rest : List Part) : Prop :=
  (rest.head?.map Part.kind).or next ≠ some (.symbol .assign)

theorem Separates.scans {part : Part} (hpart : Separates part)
    (hrest : ∀ after : Left, Neutral after → after.depth = left.depth → Scans base after next rest P) :
    Scans base left next (part :: rest) P := by
  refine ⟨hpart.fits _ _, ?_, hrest _ (hpart.neutral left) (hpart.depth left)⟩
  rw [hpart.closes]
  rintro ⟨⟩

/-- What can come before an operand: nothing where one is expected, or a part that separates. -/
def Leads (left : Left) (lead : List Part) : Prop :=
  lead = [] ∧ Neutral left ∨ ∃ part, lead = [part] ∧ Separates part

theorem Leads.scans {lead : List Part} (hlead : Leads left lead)
    (hrest : ∀ after : Left, Neutral after → after.depth = left.depth → Scans base after next rest P) :
    Scans base left next (lead ++ rest) P := by
  rcases hlead with ⟨rfl, hneutral⟩ | ⟨part, rfl, hpart⟩
  · exact hrest left hneutral rfl
  · exact hpart.scans hrest

theorem scans_opening (bracket : Bracket)
    (hrest : ∀ after : Left, Neutral after → after.depth = left.depth + 1 →
      Scans base after next rest P) :
    Scans base left next (.mark bracket.opening :: rest) P := by
  refine ⟨fits_symbol _, by cases bracket <;> rintro ⟨⟩, hrest _ ?_ (by cases bracket <;> rfl)⟩
  cases bracket <;> exact neutral_push (by rintro ⟨⟩) (by rintro ⟨⟩) (by rintro ⟨⟩) (by rintro ⟨⟩)

theorem scans_closing (bracket : Bracket) (hbase : base ≤ depth) (hdepth : left.depth = depth + 1)
    (hrest : ∀ after, Settled depth after → Scans base after next rest P) :
    Scans base left next (.mark bracket.closing :: rest) P := by
  refine ⟨fits_symbol _, fun _ => ?_, hrest _ ⟨?_, _, rfl, by cases bracket <;> rfl⟩⟩
  · rw [hdepth]
    exact Nat.lt_succ_of_le hbase
  · have hpush : (left.push (Part.mark bracket.closing).kind).depth = left.depth - 1 := by
      cases bracket <;> rfl
    rw [hpush, hdepth, Nat.add_sub_cancel]

theorem depth_of_settled {after : Left} (hafter : after = left ∨ Settled left.depth after) :
    after.depth = left.depth := by
  rcases hafter with rfl | hsettled
  · rfl
  · exact hsettled.1

theorem UnaryOperator.scans (operator : UnaryOperator) (hneutral : Neutral left)
    (hrest : ∀ after : Left, Neutral after → after.depth = left.depth → Scans base after next rest P) :
    Scans base left next (operator.part :: rest) P := by
  cases operator with
  | not =>
    refine ⟨fits_operator rfl, by rintro ⟨⟩, hrest _ (neutral_push ?_ ?_ ?_ fun _ hlast => ?_) rfl⟩
    · rintro ⟨⟩
    · rintro ⟨⟩
    · rintro ⟨⟩
    · have htest := hneutral.test
      rw [Left.expectsTest, hlast] at htest
      cases htest
  | minus => exact (separates_mark rfl).scans hrest
  | plus => exact (separates_mark rfl).scans hrest

theorem BinaryOperator.scans (operator : BinaryOperator) (hsettled : Settled depth left)
    (hrest : ∀ after : Left, Neutral after → after.depth = depth → Scans base after next rest P) :
    Scans base left next (operator.parts ++ rest) P := by
  obtain ⟨rfl, _⟩ := hsettled
  cases operator with
  | and => exact (separates_word rfl).scans hrest
  | or => exact (separates_word rfl).scans hrest
  | isIn => exact (separates_word rfl).scans hrest
  | isNotIn => exact ⟨fits_operator rfl, by rintro ⟨⟩, (separates_word rfl).scans hrest⟩
  | symbol mark hmark =>
    refine (separates_mark ?_).scans hrest
    rw [isSeparator, hmark]
    rfl

theorem BinaryOperator.noArgument (operator : BinaryOperator) :
    NoArgument next (operator.parts ++ rest) := by
  cases operator with
  | symbol mark hmark =>
    rintro ⟨⟩
    cases hmark
  | _ => rintro ⟨⟩

theorem Items.noArgument {items : Items} (hnext : NoArgument next rest) :
    NoArgument next (items.parts [.mark .comma] ++ rest) := by
  cases items with
  | none => exact hnext
  | _ => rintro ⟨⟩

theorem Bound.noArgument {bound : Bound} {part : Part} (hpart : part.kind ≠ .symbol .assign)
    (hnext : NoArgument next rest) : NoArgument next (bound.parts [part] ++ rest) := by
  cases bound with
  | none => exact hnext
  | some value => exact fun hassign => hpart (Option.some.inj hassign)

end Operands

mutual

/-- An expression is scanned where an operand is expected, and then an operand has ended. -/
theorem Expr.scans (expr : Expr) {base : Nat} {left : Left} {next : Option TokenKind} {rest : List Part}
    {P : Left → Prop} (hneutral : Neutral left) (hbase : base ≤ left.depth) (hnext : NoArgument next rest)
    (hrest : ∀ after, Settled left.depth after → Scans base after next rest P) :
    Scans base left next (expr.parts ++ rest) P := by
  cases expr with
  | reference name =>
    exact ⟨fits_variable hneutral hnext name, by rintro ⟨⟩, hrest _ ⟨rfl, _, rfl, rfl⟩⟩
  | number value =>
    refine ⟨fits_number value, ?_, hrest _ ⟨?_, _, rfl, ?_⟩⟩ <;>
      rcases value.kind_cases with hkind | hkind <;> simp [Part.kind, Lexeme.kind, hkind, closesBracket, Left.push, opensBracket, endsOperand]
  | string value => exact ⟨fits_string value, by rintro ⟨⟩, hrest _ ⟨rfl, _, rfl, rfl⟩⟩
  | member object field =>
    rw [Expr.parts, List.append_assoc]
    refine object.scans hneutral hbase (by rintro ⟨⟩) fun after hafter => ?_
    exact ⟨fits_symbol .dot, by rintro ⟨⟩, fits_member rfl field, by rintro ⟨⟩,
      hrest _ ⟨hafter.1, _, rfl, rfl⟩⟩
  | item object index =>
    simp only [Expr.parts, List.append_assoc, List.cons_append, List.nil_append]
    refine object.scans hneutral hbase (by rintro ⟨⟩) fun after hafter => ?_
    refine scans_opening .square fun inner hinner hdepth => ?_
    rw [hafter.1] at hdepth
    -- Within the brackets no closing bracket can end the scan, because the depth is above the base.
    refine index.scans hinner (by omega) (by rintro ⟨⟩) fun last hlast => ?_
    exact scans_closing .square hbase (hlast.1.trans hdepth) hrest
  | slice object start stop step =>
    simp only [Expr.parts, List.append_assoc, List.cons_append, List.nil_append]
    refine object.scans hneutral hbase (by rintro ⟨⟩) fun after hafter => ?_
    refine scans_opening .square fun inner hinner hdepth => ?_
    rw [hafter.1] at hdepth
    refine start.scans (.inl ⟨rfl, hinner⟩) (by omega) (by rintro ⟨⟩) fun first hfirst => ?_
    rw [← depth_of_settled hfirst] at hdepth
    refine (separates_mark rfl).scans fun between hbetween hsame => ?_
    refine stop.scans (.inl ⟨rfl, hbetween⟩) (by omega)
      (Bound.noArgument (by rintro ⟨⟩) (by rintro ⟨⟩)) fun second hsecond => ?_
    rw [← hsame, ← depth_of_settled hsecond] at hdepth
    refine step.scans (.inr ⟨_, rfl, separates_mark rfl⟩) (by omega) (by rintro ⟨⟩)
      fun last hlast => ?_
    rw [← depth_of_settled hlast] at hdepth
    exact scans_closing .square hbase hdepth hrest
  | call callee arguments =>
    simp only [Expr.parts, List.append_assoc, List.cons_append, List.nil_append]
    refine callee.scans hneutral hbase (by rintro ⟨⟩) fun after hafter => ?_
    refine scans_opening .round fun inner hinner hdepth => ?_
    rw [hafter.1] at hdepth
    refine arguments.scans (.inl ⟨rfl, hinner⟩) (by omega) (by rintro ⟨⟩) fun last hlast => ?_
    exact scans_closing .round hbase (hlast.trans hdepth) hrest
  | filter value name arguments =>
    simp only [Expr.parts, List.append_assoc, List.cons_append]
    refine value.scans hneutral hbase (by rintro ⟨⟩) fun after hafter => ?_
    refine ⟨fits_symbol .pipe, by rintro ⟨⟩, fits_filter rfl name, by rintro ⟨⟩, ?_⟩
    exact arguments.scans ⟨hafter.1, _, rfl, rfl⟩ hbase hrest
  | test value negated name arguments =>
    simp only [Expr.parts, List.append_assoc, List.cons_append]
    refine value.scans hneutral hbase (by rintro ⟨⟩) fun after hafter => ?_
    refine ⟨fits_operator rfl, by rintro ⟨⟩, ?_⟩
    cases negated with
    | false =>
      refine ⟨fits_test (by rintro ⟨⟩) (by rintro ⟨⟩) rfl name, by rintro ⟨⟩, ?_⟩
      exact arguments.scans ⟨hafter.1, _, rfl, rfl⟩ hbase hrest
    | true =>
      refine ⟨fits_operator rfl, by rintro ⟨⟩, ?_⟩
      refine ⟨fits_test (by rintro ⟨⟩) (by rintro ⟨⟩) rfl name, by rintro ⟨⟩, ?_⟩
      exact arguments.scans ⟨hafter.1, _, rfl, rfl⟩ hbase hrest
  | unary operator operand =>
    refine operator.scans hneutral fun after hafter hdepth => ?_
    refine operand.scans hafter (by omega) hnext fun last hlast => hrest last ?_
    rwa [hdepth] at hlast
  | binary operator first second =>
    simp only [Expr.parts, List.append_assoc]
    refine first.scans hneutral hbase operator.noArgument fun after hafter => ?_
    refine operator.scans hafter fun between hbetween hdepth => ?_
    refine second.scans hbetween (by omega) hnext fun last hlast => hrest last ?_
    rwa [hdepth] at hlast
  | conditional value condition otherwise =>
    simp only [Expr.parts, List.append_assoc, List.cons_append]
    refine value.scans hneutral hbase (by rintro ⟨⟩) fun after hafter => ?_
    refine (separates_word rfl).scans fun between hbetween hdepth => ?_
    refine condition.scans hbetween (by rw [hdepth, hafter.1]; exact hbase)
      (Bound.noArgument (by rintro ⟨⟩) hnext) fun middle hmiddle => ?_
    have hsettled : Settled left.depth middle := by rwa [hdepth, hafter.1] at hmiddle
    refine otherwise.scans (.inr ⟨_, rfl, separates_word rfl⟩) (by rw [hsettled.1]; exact hbase) hnext
      fun last hlast => hrest last ?_
    -- Without an alternative nothing is scanned behind the condition.
    rcases hlast with rfl | hlast
    · exact hsettled
    · rwa [hsettled.1] at hlast
  | display bracket items =>
    simp only [Expr.parts, List.append_assoc, List.cons_append, List.nil_append]
    refine scans_opening bracket fun inner hinner hdepth => ?_
    refine items.scans (.inl ⟨rfl, hinner⟩) (by omega) (by cases bracket <;> rintro ⟨⟩)
      fun last hlast => ?_
    exact scans_closing bracket hbase (hlast.trans hdepth) hrest

theorem Items.scans (items : Items) {base : Nat} {left : Left} {next : Option TokenKind} {rest lead : List Part}
    {P : Left → Prop} (hlead : Leads left lead) (hbase : base < left.depth) (hnext : NoArgument next rest)
    (hrest : ∀ after : Left, after.depth = left.depth → Scans base after next rest P) :
    Scans base left next (items.parts lead ++ rest) P := by
  have hcomma : ∀ after : Left, Leads after [.mark .comma] := fun _ => .inr ⟨_, rfl, separates_mark rfl⟩
  cases items with
  | none => exact hrest left rfl
  | value item later =>
    simp only [Items.parts, List.append_assoc]
    refine hlead.scans fun after hafter hdepth => ?_
    refine item.scans hafter (by omega) (Items.noArgument hnext) fun between hbetween => ?_
    refine later.scans (hcomma _) (by rw [hbetween.1]; omega) hnext fun last hlast => hrest last ?_
    rw [hlast, hbetween.1, hdepth]
  | starred double item later =>
    simp only [Items.parts, List.append_assoc, List.cons_append]
    refine hlead.scans fun after hafter hdepth => ?_
    refine (separates_mark (by cases double <;> rfl)).scans fun inner hinner hsame => ?_
    refine item.scans hinner (by omega) (Items.noArgument hnext) fun between hbetween => ?_
    refine later.scans (hcomma _) (by rw [hbetween.1]; omega) hnext fun last hlast => hrest last ?_
    rw [hlast, hbetween.1, hsame, hdepth]
  | named name item later =>
    simp only [Items.parts, List.append_assoc, List.cons_append]
    refine hlead.scans fun after hafter hdepth => ?_
    refine ⟨fits_argument hafter (by omega) name, by rintro ⟨⟩, ?_⟩
    refine (separates_mark rfl).scans fun inner hinner hsame => ?_
    have hinnerDepth : inner.depth = left.depth := hsame.trans hdepth
    refine item.scans hinner (by omega) (Items.noArgument hnext) fun between hbetween => ?_
    refine later.scans (hcomma _) (by rw [hbetween.1]; omega) hnext fun last hlast => hrest last ?_
    rw [hlast, hbetween.1, hinnerDepth]
  | entry key item later =>
    simp only [Items.parts, List.append_assoc, List.cons_append]
    refine hlead.scans fun after hafter hdepth => ?_
    refine key.scans hafter (by omega) (by rintro ⟨⟩) fun middle hmiddle => ?_
    refine (separates_mark rfl).scans fun inner hinner hsame => ?_
    rw [hmiddle.1] at hsame
    refine item.scans hinner (by omega) (Items.noArgument hnext) fun between hbetween => ?_
    refine later.scans (hcomma _) (by rw [hbetween.1]; omega) hnext fun last hlast => hrest last ?_
    rw [hlast, hbetween.1, hsame, hdepth]

theorem Bound.scans (bound : Bound) {base : Nat} {left : Left} {next : Option TokenKind} {rest lead : List Part}
    {P : Left → Prop} (hlead : Leads left lead) (hbase : base ≤ left.depth) (hnext : NoArgument next rest)
    (hrest : ∀ after : Left, after = left ∨ Settled left.depth after → Scans base after next rest P) :
    Scans base left next (bound.parts lead ++ rest) P := by
  cases bound with
  | none => exact hrest left (.inl rfl)
  | some value =>
    rw [Bound.parts, List.append_assoc]
    refine hlead.scans fun after hafter hdepth => ?_
    refine value.scans hafter (by omega) hnext fun last hlast => hrest last (.inr ?_)
    rwa [hdepth] at hlast

theorem Arguments.scans (arguments : Arguments) {base depth : Nat} {left : Left} {next : Option TokenKind}
    {rest : List Part} {P : Left → Prop} (hsettled : Settled depth left) (hbase : base ≤ depth)
    (hrest : ∀ after, Settled depth after → Scans base after next rest P) :
    Scans base left next (arguments.parts ++ rest) P := by
  cases arguments with
  | none => exact hrest left hsettled
  | some items =>
    simp only [Arguments.parts, List.append_assoc, List.cons_append, List.nil_append]
    refine scans_opening .round fun inner hinner hdepth => ?_
    rw [hsettled.1] at hdepth
    refine items.scans (.inl ⟨rfl, hinner⟩) (by omega) (by rintro ⟨⟩) fun last hlast => ?_
    exact scans_closing .round hbase (hlast.trans hdepth) hrest

end

section Spelled

variable {words : List String} {base : Nat} {left : Left} {next : Option TokenKind} {parts : List Part}
  {P : Left → Prop} {marked : List (Token × Role)} {rest : List Token}

/-- The variables that tokens in their roles read. -/
def readNames (marked : List (Token × Role)) : List Name :=
  (marked.filter (·.2.isRead)).map (·.1.name)

theorem head?_of_spells (hspells : Part.Spells marked parts) (rest : List Token) :
    (marked.map (·.1) ++ rest).head?.map Token.kind =
      (parts.head?.map Part.kind).or (rest.head?.map Token.kind) := by
  cases parts with
  | nil =>
    obtain rfl := List.map_eq_nil_iff.mp hspells
    rfl
  | cons part parts =>
    obtain ⟨⟨token, role⟩, later, rfl, hview, _⟩ := List.map_eq_cons_iff.mp hspells
    exact congrArg some (Prod.mk.inj hview).1

/-- Tokens that spell parts are scanned like them. The scan goes on after them. -/
theorem Scans.scan (hscans : Scans base left next parts P) (hspells : Part.Spells marked parts)
    (hexposes : exposes words left.depth parts = false) (hnext : rest.head?.map Token.kind = next)
    (meaning : StringMeaning) : ∃ after, P after ∧
      (scan words meaning left (marked.map (·.1) ++ rest)).1.references =
        readNames marked ++ (scan words meaning after rest).1.references ∧
      (scan words meaning left (marked.map (·.1) ++ rest)).2 = (scan words meaning after rest).2 := by
  induction parts generalizing left marked with
  | nil =>
    obtain rfl := List.map_eq_nil_iff.mp hspells
    exact ⟨left, hscans, rfl, rfl⟩
  | cons part parts ih =>
    obtain ⟨⟨token, role⟩, later, rfl, hview, hlater⟩ := List.map_eq_cons_iff.mp hspells
    obtain ⟨hkind, htext, hrole⟩ : token.kind = part.kind ∧ token.text = part.text ∧ role = part.role := by
      simpa using hview
    obtain ⟨hfits, hcloses, hscans⟩ := hscans
    rw [exposes, Bool.or_eq_false_iff] at hexposes
    have hstays : endsAt words left token = false := by
      rw [endsAt, Bool.and_or_distrib_left, htext, hexposes.1, Bool.false_or, hkind]
      cases hbracket : closesBracket part.kind with
      | false => exact Bool.and_false _
      | true => simp [Nat.ne_of_gt (Nat.zero_lt_of_lt (hcloses hbracket))]
    obtain ⟨after, hafter, hreferences, hrest⟩ := ih hscans hlater hexposes.2
    refine ⟨after, hafter, ?_⟩
    rw [List.map_cons, List.cons_append, Mentions.scan, hstays, hkind]
    have hhead : (later.map (·.1) ++ rest).head?.map Token.kind = (parts.head?.map Part.kind).or next := by
      rw [head?_of_spells hlater rest, hnext]
    have htoken := hfits meaning token _ hkind hhead
    simp only [Bool.false_eq_true, if_false, Mentions.references_append, htoken, hreferences, hrest,
      and_true, readNames, hrole]
    cases hread : part.role.isRead with
    | true => rw [List.filter_cons_of_pos (by exact hread), if_pos rfl]; rfl
    | false => rw [List.filter_cons_of_neg (by simp [hread])]; rfl

theorem neutral_start : Neutral {} :=
  ⟨by rintro ⟨⟩, by rintro ⟨⟩, rfl⟩

theorem scans_guarded (expr : Expr) (hnext : next ≠ some (.symbol .assign)) :
    Scans 0 {} next (expr.guarded words) (Settled 0) := by
  unfold Expr.guarded
  split
  · refine scans_opening .round fun inner hinner hdepth => ?_
    refine expr.scans hinner (by omega) (by rintro ⟨⟩) fun last hlast => ?_
    exact scans_closing .round (Nat.le_refl _) (hlast.1.trans hdepth) fun after hafter => hafter
  · have hscans : Scans 0 {} next (expr.parts ++ []) (Settled 0) :=
      expr.scans neutral_start (Nat.le_refl _) hnext fun after hafter => hafter
    rwa [List.append_nil] at hscans

/-- Within a bracket no word is exposed. -/
theorem Scans.exposes_eq {tail : List Part} (hscans : Scans base left next parts P) (hbase : 0 < base)
    (hle : base ≤ left.depth) (htail : ∀ after, P after → base ≤ after.depth →
      exposes words after.depth tail = false) : exposes words left.depth (parts ++ tail) = false := by
  induction parts generalizing left with
  | nil => exact htail left hscans hle
  | cons part parts ih =>
    obtain ⟨_, hcloses, hscans⟩ := hscans
    have hdepth : (left.depth == 0) = false := by
      rw [beq_eq_false_iff_ne]
      omega
    have hpush : base ≤ (left.push part.kind).depth := by
      rw [Left.push]
      split
      · exact Nat.le_succ_of_le hle
      · split
        · exact Nat.le_sub_one_of_lt (hcloses ‹_›)
        · exact hle
    rw [List.cons_append, exposes, hdepth, Bool.false_and, Bool.false_or]
    have hlater : exposes words (left.push part.kind).depth (parts ++ tail) = false := ih hscans hpush
    exact hlater

theorem exposes_guarded (expr : Expr) (hparen : words.contains "(" = false) :
    exposes words 0 (expr.guarded words) = false := by
  unfold Expr.guarded
  split
  next =>
    rw [exposes, Bool.or_eq_false_iff]
    refine ⟨by rw [beq_self_eq_true, Bool.true_and]; exact hparen, ?_⟩
    have hneutral : Neutral (Left.push {} (.symbol .leftParen)) :=
      neutral_push (by rintro ⟨⟩) (by rintro ⟨⟩) (by rintro ⟨⟩) (by rintro ⟨⟩)
    have hscans : Scans 1 (Left.push {} (.symbol .leftParen)) (some (.symbol .rightParen))
        (expr.parts ++ []) (Settled 1) :=
      expr.scans hneutral (Nat.le_refl _) (by rintro ⟨⟩) fun after hafter => hafter
    rw [List.append_nil] at hscans
    refine hscans.exposes_eq Nat.one_pos (Nat.le_refl _) fun after hafter _ => ?_
    rw [exposes, hafter.1]
    rfl
  next hexposes => exact Bool.not_eq_true _ ▸ hexposes

/-- An expression is scanned up to the end of the tag, or up to a word or a bracket that ends it, and the
    variables that it reads are recorded. -/
theorem scan_guarded (expr : Expr) (hparen : words.contains "(" = false)
    (hspells : Part.Spells marked (expr.guarded words))
    (hends : ∀ token ∈ rest.head?,
      (words.contains token.text || closesBracket token.kind) = true ∧ token.kind ≠ .symbol .assign)
    (meaning : StringMeaning) : ∃ mentions, scan words meaning {} (marked.map (·.1) ++ rest) = (mentions, rest) ∧
      mentions.references = readNames marked := by
  have hnext : rest.head?.map Token.kind ≠ some (.symbol .assign) := by
    rw [ne_eq, Option.map_eq_some_iff]
    rintro ⟨token, htoken, hkind⟩
    exact (hends token htoken).2 hkind
  obtain ⟨after, hafter, hreferences, hrest⟩ :=
    (scans_guarded expr hnext).scan hspells (exposes_guarded expr hparen) rfl meaning
  have hstop : scan words meaning after rest = ({}, rest) := by
    cases rest with
    | nil => rfl
    | cons token rest =>
      rw [scan, endsAt, hafter.1, (hends token rfl).1]
      rfl
  refine ⟨_, Prod.ext rfl ?_, ?_⟩
  · rw [hrest, hstop]
  · rw [hreferences, hstop]
    exact List.append_nil _

end Spelled

end TemplateAnalysis.Syntax
