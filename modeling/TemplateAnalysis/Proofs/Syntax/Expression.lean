import TemplateAnalysis.Proofs.Syntax.Lexeme
import TemplateAnalysis.Template.Mention

namespace TemplateAnalysis.Syntax

open Template (Symbol)

/-- The operators before an operand. -/
inductive UnaryOperator
  | not
  | minus
  | plus
  deriving DecidableEq

/-- Whether a symbol stands between two operands. -/
def isOperator : Symbol → Bool
  | .tilde | .equal | .notEqual | .lessThan | .lessEqual | .greaterThan | .greaterEqual | .plus | .minus
  | .star | .starStar | .slash | .slashSlash | .percent => true
  | _ => false

/-- The operators between two operands. -/
inductive BinaryOperator
  | and
  | or
  | isIn
  | isNotIn
  | symbol (mark : Symbol) (isOperator : isOperator mark = true)
  deriving DecidableEq

/-- The brackets around items: parentheses for a group or a tuple, brackets for a list, braces for a
    dictionary. -/
inductive Bracket
  | round
  | square
  | curly
  deriving DecidableEq

namespace Bracket

def opening : Bracket → Symbol
  | round => .leftParen
  | square => .leftBracket
  | curly => .leftBrace

def closing : Bracket → Symbol
  | round => .rightParen
  | square => .rightBracket
  | curly => .rightBrace

end Bracket

def UnaryOperator.part : UnaryOperator → Part
  | not => .word .notKw
  | minus => .mark .minus
  | plus => .mark .plus

def BinaryOperator.parts : BinaryOperator → List Part
  | and => [.word .andKw]
  | or => [.word .orKw]
  | isIn => [.word .inKw]
  | isNotIn => [.word .notKw, .word .inKw]
  | symbol mark _ => [.mark mark]

mutual

/-- The expressions of templates. Parentheses that group an expression are a display of one item. -/
inductive Expr
  | reference (name : Ident)
  | number (value : Numeral)
  | string (value : Literal)
  | member (object : Expr) (field : Ident)
  | item (object index : Expr)
  | slice (object : Expr) (start stop step : Bound)
  | call (callee : Expr) (arguments : Items)
  | filter (value : Expr) (name : Ident) (arguments : Arguments)
  | test (value : Expr) (negated : Bool) (name : Ident) (arguments : Arguments)
  | unary (operator : UnaryOperator) (operand : Expr)
  | binary (operator : BinaryOperator) (left right : Expr)
  | conditional (value condition : Expr) (otherwise : Bound)
  | display (bracket : Bracket) (items : Items)

/-- The items between brackets. -/
inductive Items
  | none
  | value (item : Expr) (rest : Items)
  | starred (double : Bool) (item : Expr) (rest : Items)
  | named (name : Ident) (item : Expr) (rest : Items)
  | entry (key item : Expr) (rest : Items)

/-- An expression that can be left out. -/
inductive Bound
  | none
  | some (value : Expr)

/-- Arguments that can be left out together with their parentheses. -/
inductive Arguments
  | none
  | some (items : Items)

end

mutual

/-- The lexemes of an expression. Its variables are read; the names of attributes, tests and arguments
    are no variables. -/
def Expr.parts : Expr → List Part
  | .reference name => [.name .read name]
  | .number value => [{ lexeme := .number value }]
  | .string value => [{ lexeme := .string value }]
  | .member object field => object.parts ++ [.mark .dot, .name .plain field]
  | .item object index => object.parts ++ .mark .leftBracket :: (index.parts ++ [.mark .rightBracket])
  | .slice object start stop step =>
    object.parts ++ .mark .leftBracket :: (start.parts [] ++ .mark .colon :: (stop.parts [] ++
      (step.parts [.mark .colon] ++ [.mark .rightBracket])))
  | .call callee arguments =>
    callee.parts ++ .mark .leftParen :: (arguments.parts [] ++ [.mark .rightParen])
  | .filter value name arguments =>
    value.parts ++ .mark .pipe :: .name .filter name :: arguments.parts
  | .test value negated name arguments =>
    value.parts ++ .word .isKw :: ((if negated then [.word .notKw] else []) ++
      .name .plain name :: arguments.parts)
  | .unary operator operand => operator.part :: operand.parts
  | .binary operator left right => left.parts ++ (operator.parts ++ right.parts)
  | .conditional value condition otherwise =>
    value.parts ++ .word .ifKw :: (condition.parts ++ otherwise.parts [.word .elseKw])
  | .display bracket items => .mark bracket.opening :: (items.parts [] ++ [.mark bracket.closing])

/-- The lexemes of items, with commas between them and something before the first one. -/
def Items.parts (lead : List Part) : Items → List Part
  | .none => []
  | .value item rest => lead ++ (item.parts ++ rest.parts [.mark .comma])
  | .starred double item rest =>
    lead ++ .mark (if double then .starStar else .star) :: (item.parts ++ rest.parts [.mark .comma])
  | .named name item rest =>
    lead ++ .name .plain name :: .mark .assign :: (item.parts ++ rest.parts [.mark .comma])
  | .entry key item rest =>
    lead ++ (key.parts ++ .mark .colon :: (item.parts ++ rest.parts [.mark .comma]))

/-- The lexemes of an expression that can be left out, with something before it. -/
def Bound.parts (lead : List Part) : Bound → List Part
  | .none => []
  | .some value => lead ++ value.parts

def Arguments.parts : Arguments → List Part
  | .none => []
  | .some items => .mark .leftParen :: (items.parts [] ++ [.mark .rightParen])

end

/-- Whether a part outside of all brackets is spelled like one of some words. -/
def exposes (words : List String) (depth : Nat) : List Part → Bool
  | [] => false
  | part :: rest =>
    (depth == 0 && words.contains part.text) ||
      exposes words (Template.Mentions.Left.push { depth } part.kind).depth rest

/-- An expression in a place where some words mean the end of it. It is put in parentheses if one of
    them stands outside of all brackets. -/
def Expr.guarded (words : List String) (expr : Expr) : List Part :=
  if exposes words 0 expr.parts then .mark .leftParen :: (expr.parts ++ [.mark .rightParen])
  else expr.parts

/-- Whether a lexeme of an expression stands for itself, not for one half of a pair of brackets. -/
def Part.isFlat (part : Part) : Bool :=
  part.role.isCode && !Template.Mentions.opensBracket part.kind && !Template.Mentions.closesBracket part.kind

/-- A property of parts that comes from each lexeme to an expression. -/
structure Builds (C : List Part → Prop) : Prop where
  nil : C []
  append : ∀ {first second}, C first → C second → C (first ++ second)
  flat : ∀ {part : Part}, part.isFlat = true → C [part]
  brackets : ∀ (bracket : Bracket) {inner}, C inner →
    C (.mark bracket.opening :: (inner ++ [.mark bracket.closing]))

namespace Builds

variable {C : List Part → Prop} (hbuilds : Builds C)

include hbuilds

theorem cons {part : Part} {rest : List Part} (hpart : part.isFlat = true) (hrest : C rest) :
    C (part :: rest) :=
  hbuilds.append (hbuilds.flat hpart) hrest

theorem number (value : Numeral) : C [{ lexeme := .number value }] := by
  refine hbuilds.flat ?_
  rcases value.kind_cases with hkind | hkind <;> simp only [Part.isFlat, Part.kind, Lexeme.kind, hkind] <;> rfl

theorem unary (operator : UnaryOperator) {rest : List Part} (hrest : C rest) : C (operator.part :: rest) := by
  cases operator <;> exact hbuilds.cons rfl hrest

theorem binary (operator : BinaryOperator) : C operator.parts := by
  cases operator with
  | isNotIn => exact hbuilds.cons rfl (hbuilds.flat rfl)
  | symbol mark hmark => refine hbuilds.flat ?_; cases mark <;> first | rfl | cases hmark
  | _ => exact hbuilds.flat rfl

end Builds

mutual

theorem Expr.builds {C : List Part → Prop} (hbuilds : Builds C) (expr : Expr) : C expr.parts := by
  cases expr with
  | reference name => exact hbuilds.flat rfl
  | number value => exact hbuilds.number value
  | string value => exact hbuilds.flat rfl
  | member object field => exact hbuilds.append (object.builds hbuilds) (hbuilds.cons rfl (hbuilds.flat rfl))
  | item object index =>
    exact hbuilds.append (object.builds hbuilds) (hbuilds.brackets .square (index.builds hbuilds))
  | slice object start stop step =>
    have hcolon : C [.mark .colon] := hbuilds.flat rfl
    have hstop := hbuilds.append (stop.builds hbuilds hbuilds.nil) (step.builds hbuilds hcolon)
    have hinner := hbuilds.append (start.builds hbuilds hbuilds.nil) (hbuilds.append hcolon hstop)
    have hbrackets := hbuilds.brackets .square hinner
    simp only [List.append_assoc, List.cons_append] at hbrackets
    exact hbuilds.append (object.builds hbuilds) hbrackets
  | call callee arguments =>
    exact hbuilds.append (callee.builds hbuilds)
      (hbuilds.brackets .round (arguments.builds hbuilds hbuilds.nil))
  | filter value name arguments =>
    exact hbuilds.append (value.builds hbuilds)
      (hbuilds.cons rfl (hbuilds.cons rfl (arguments.builds hbuilds)))
  | test value negated name arguments =>
    refine hbuilds.append (value.builds hbuilds) (hbuilds.cons rfl (hbuilds.append ?_ ?_))
    · cases negated with
      | false => exact hbuilds.nil
      | true => exact hbuilds.flat rfl
    · exact hbuilds.cons rfl (arguments.builds hbuilds)
  | unary operator operand => exact hbuilds.unary operator (operand.builds hbuilds)
  | binary operator left right =>
    exact hbuilds.append (left.builds hbuilds)
      (hbuilds.append (hbuilds.binary operator) (right.builds hbuilds))
  | conditional value condition otherwise =>
    exact hbuilds.append (value.builds hbuilds) (hbuilds.cons rfl
      (hbuilds.append (condition.builds hbuilds) (otherwise.builds hbuilds (hbuilds.flat rfl))))
  | display bracket items => exact hbuilds.brackets bracket (items.builds hbuilds hbuilds.nil)

theorem Items.builds {C : List Part → Prop} (hbuilds : Builds C) (items : Items) {lead : List Part}
    (hlead : C lead) : C (items.parts lead) := by
  have hcomma : C [.mark .comma] := hbuilds.flat rfl
  cases items with
  | none => exact hbuilds.nil
  | value item rest =>
    exact hbuilds.append hlead (hbuilds.append (item.builds hbuilds) (rest.builds hbuilds hcomma))
  | starred double item rest =>
    refine hbuilds.append hlead (hbuilds.cons ?_
      (hbuilds.append (item.builds hbuilds) (rest.builds hbuilds hcomma)))
    cases double <;> rfl
  | named name item rest =>
    exact hbuilds.append hlead (hbuilds.cons rfl (hbuilds.cons rfl
      (hbuilds.append (item.builds hbuilds) (rest.builds hbuilds hcomma))))
  | entry key item rest =>
    exact hbuilds.append hlead (hbuilds.append (key.builds hbuilds) (hbuilds.cons rfl
      (hbuilds.append (item.builds hbuilds) (rest.builds hbuilds hcomma))))

theorem Bound.builds {C : List Part → Prop} (hbuilds : Builds C) (bound : Bound) {lead : List Part}
    (hlead : C lead) : C (bound.parts lead) := by
  cases bound with
  | none => exact hbuilds.nil
  | some value => exact hbuilds.append hlead (value.builds hbuilds)

theorem Arguments.builds {C : List Part → Prop} (hbuilds : Builds C) (arguments : Arguments) :
    C arguments.parts := by
  cases arguments with
  | none => exact hbuilds.nil
  | some items => exact hbuilds.brackets .round (items.builds hbuilds hbuilds.nil)

end

theorem Expr.builds_guarded {C : List Part → Prop} (hbuilds : Builds C) (words : List String) (expr : Expr) :
    C (expr.guarded words) := by
  unfold Expr.guarded
  split
  · exact hbuilds.brackets .round (expr.builds hbuilds)
  · exact expr.builds hbuilds

/-- The braces of an expression are closed within it. -/
theorem builds_depthAfter : Builds fun parts => ∀ depth, Part.depthAfter depth parts = depth where
  nil _ := rfl
  append hfirst hsecond depth := by
    rw [Part.depthAfter, List.foldl_append]
    exact (hsecond _).trans (hfirst depth)
  flat {part} hflat depth := by
    obtain ⟨lexeme, role⟩ := part
    cases lexeme with
    | symbol mark =>
      cases mark <;> first | rfl | (simp [Part.isFlat, Part.kind, Lexeme.kind, Template.Mentions.opensBracket, Template.Mentions.closesBracket] at hflat)
    | _ => rfl
  brackets bracket {inner} hinner depth := by
    rw [Part.depthAfter, List.foldl_cons, List.foldl_append]
    have hclose := hinner ((Part.mark bracket.opening).lexeme.depthAfter depth)
    rw [Part.depthAfter] at hclose
    rw [hclose]
    cases bracket <;> rfl

/-- The lexemes of an expression have no part in the statement around it. -/
theorem builds_isCode : Builds fun parts => ∀ part ∈ parts, part.role.isCode = true where
  nil := by simp
  append hfirst hsecond := List.forall_mem_append.mpr ⟨hfirst, hsecond⟩
  flat {part} hflat := by
    simp only [Part.isFlat, Bool.and_eq_true] at hflat
    simpa using hflat.1.1
  brackets bracket {inner} hinner := by
    simp only [List.forall_mem_cons, List.forall_mem_append]
    exact ⟨rfl, hinner, rfl, by simp⟩

end TemplateAnalysis.Syntax
