import TemplateAnalysis.Template.Outline

namespace TemplateAnalysis.Template

namespace BlockKind

/-- The word that opens a block. -/
def word : BlockKind → Keyword
  | forLoop => .forKw
  | ifBranch => .ifKw
  | setBlock => .setKw
  | withBlock => .withKw
  | macroBody => .macroKw
  | call => .callKw
  | block => .blockKw
  | filter => .filterKw

/-- The word that ends a block. -/
def endWord : BlockKind → Keyword
  | forLoop => .endforKw
  | ifBranch => .endifKw
  | setBlock => .endsetKw
  | withBlock => .endwithKw
  | macroBody => .endmacroKw
  | call => .endcallKw
  | block => .endblockKw
  | filter => .endfilterKw

/-- The kind of scope that a block has. -/
def scopeKind? : BlockKind → Option ScopeKind
  | forLoop => some .loop
  | withBlock => some .withBlock
  | macroBody => some .macroBody
  | call => some .call
  | block => some .block
  | ifBranch | setBlock | filter => none

end BlockKind

/-- Whether a keyword opens, divides or ends a part of a template. -/
def Keyword.isStructural : Keyword → Bool
  | .extendsKw | .includeKw | .importKw | .fromKw | .asKw | .inKw | .isKw | .andKw | .orKw | .notKw
  | .recursiveKw => false
  | _ => true

/-- A target of an assignment: a name, or an attribute of an object. -/
inductive IsTarget : List Token → Prop
  | name {token : Token} (hname : token.kind.isName = true) : IsTarget [token]
  | member {object dot field : Token} (hobject : object.kind.isName = true)
      (hdot : dot.kind = .symbol .dot) (hfield : field.kind.isName = true) :
      IsTarget [object, dot, field]

/-- Targets with commas between them. -/
inductive AreTargets : List Token → Prop
  | last {target : List Token} (htarget : IsTarget target) : AreTargets target
  | more {target later : List Token} {comma : Token} (htarget : IsTarget target)
      (hcomma : comma.kind = .symbol .comma) (hlater : AreTargets later) :
      AreTargets (target ++ comma :: later)

/-- The tokens between the word of an assignment and the end of its tag assign a value. -/
def Assigns (tokens : List Token) : Prop :=
  ∃ targets equals value, tokens = targets ++ equals :: value ∧ AreTargets targets ∧
    equals.kind = .symbol .assign

/-- The tokens between the word of an assignment and the end of its tag take the text that follows,
    perhaps through filters. -/
def Captures (tokens : List Token) : Prop :=
  ∃ targets filters, tokens = targets ++ filters ∧ AreTargets targets ∧
    ∀ token ∈ filters.head?, token.kind = .symbol .pipe

/-- A tag that is written in full: its opening mark, the tokens inside, and its closing mark. -/
structure WholeTag where
  form : TagForm
  first : Token
  body : List Token
  last : Token
  opens : first.kind = .tagBegin form
  inside : ∀ token ∈ body, token.kind.isInsideTag = true
  closes : last.kind = .tagEnd form

namespace WholeTag

def tokens (whole : WholeTag) : List Token :=
  whole.first :: (whole.body ++ [whole.last])

/-- The position before the opening mark. -/
def start (whole : WholeTag) : Position :=
  whole.first.start.position

/-- The position behind the closing mark. -/
def after (whole : WholeTag) : Position :=
  whole.last.stop.position

def tag (whole : WholeTag) : Tag where
  form := whole.form
  start := whole.start
  body := whole.body
  after := whole.after

end WholeTag

/-- A statement that begins with a keyword. -/
structure WordTag (word : Keyword) extends WholeTag where
  isStatement : form = .statement
  begins : body.head?.map (·.kind) = some (.keyword word)

/-- The statement that opens a block. An assignment opens one only if it takes the text up to its
    end. -/
structure OpeningTag (kind : BlockKind) extends WordTag kind.word where
  captures : kind = .setBlock → Captures body.tail

/-- A tag that stands alone: an expression, an assignment of a value, or a statement whose first token
    is no word that opens, divides or ends a part of the template. -/
structure PlainTag extends WholeTag where
  plain : form = .expression ∨
    (∃ word, body = word :: body.tail ∧ word.kind = .keyword .setKw ∧ Assigns body.tail) ∨
    ∀ token ∈ body.head?, ∀ word, token.kind = .keyword word → word.isStructural = false

/-- The tokens between the two ends of a raw part. Whatever tags they make, none of them begins with
    the word that ends the part. -/
structure RawContent where
  tokens : List Token
  endless : ∀ first second, first.kind = .tagBegin .statement → second.kind = .keyword .endrawKw →
    ¬ [first, second] <:+: tokens

/-- The tokens of a template, or of the part of it that stands in a block of some kind, as its blocks
    nest. If it is not closed, the file ends within it while some part is open. A loop may have a last
    branch, and a condition may have branches anywhere between its ends. -/
inductive BlockTree : (host : Option BlockKind) → (isClosed : Bool) → Type
  | done {host : Option BlockKind} : BlockTree host true
  | text {host : Option BlockKind} {isClosed : Bool} (content : Token) (isText : content.kind = .text)
      (next : BlockTree host isClosed) : BlockTree host isClosed
  | plain {host : Option BlockKind} {isClosed : Bool} (tag : PlainTag) (next : BlockTree host isClosed) :
      BlockTree host isClosed
  | elseIf {isClosed : Bool} (tag : WordTag .elifKw) (next : BlockTree (some .ifBranch) isClosed) :
      BlockTree (some .ifBranch) isClosed
  | otherwise {isClosed : Bool} (tag : WordTag .elseKw) (next : BlockTree (some .ifBranch) isClosed) :
      BlockTree (some .ifBranch) isClosed
  | raw {host : Option BlockKind} {isClosed : Bool} (opening : WordTag .rawKw) (content : RawContent)
      (ending : WordTag .endrawKw) (next : BlockTree host isClosed) : BlockTree host isClosed
  | openRaw {host : Option BlockKind} (opening : WordTag .rawKw) (content : RawContent) :
      BlockTree host false
  | block {host : Option BlockKind} {isClosed : Bool} (kind : BlockKind) (opening : OpeningTag kind)
      (body : BlockTree (some kind) true) (ending : WordTag kind.endWord) (next : BlockTree host isClosed) :
      BlockTree host isClosed
  | openBlock {host : Option BlockKind} {isClosed : Bool} (kind : BlockKind) (opening : OpeningTag kind)
      (body : BlockTree (some kind) isClosed) : BlockTree host false
  | loopElse {host : Option BlockKind} {isClosed : Bool} (opening : OpeningTag .forLoop)
      (body : BlockTree (some .forLoop) true) (divider : WordTag .elseKw)
      (branch : BlockTree (some .forLoop) true) (ending : WordTag .endforKw)
      (next : BlockTree host isClosed) : BlockTree host isClosed
  | openElse {host : Option BlockKind} {isClosed : Bool} (opening : OpeningTag .forLoop)
      (body : BlockTree (some .forLoop) true) (divider : WordTag .elseKw)
      (branch : BlockTree (some .forLoop) isClosed) : BlockTree host false

/-- The scope of a block, if the block has one. -/
def ownScope (scopeKind? : Option ScopeKind) (parent : ScopeId) (range : Range) (openEnded : Bool) :
    Option Scope :=
  scopeKind?.map fun kind => { kind, range, parent := some parent, openEnded }

/-- A scope with the scopes inside it. What stands in a block without a scope belongs to the scope
    around the block. -/
def withInner (own : Option Scope) (around next : ScopeId) (inner : ScopeId → ScopeId → List Scope) :
    List Scope :=
  match own with
  | some scope => scope :: inner next (next + 1)
  | none => inner around next

namespace BlockTree

variable {host : Option BlockKind} {isClosed : Bool}

def tokens {host : Option BlockKind} {isClosed : Bool} : BlockTree host isClosed → List Token
  | done => []
  | text content _ next => content :: next.tokens
  | plain tag next => tag.tokens ++ next.tokens
  | elseIf tag next => tag.tokens ++ next.tokens
  | otherwise tag next => tag.tokens ++ next.tokens
  | raw opening content ending next => opening.tokens ++ (content.tokens ++ (ending.tokens ++ next.tokens))
  | openRaw opening content => opening.tokens ++ content.tokens
  | block _ opening body ending next => opening.tokens ++ (body.tokens ++ (ending.tokens ++ next.tokens))
  | openBlock _ opening body => opening.tokens ++ body.tokens
  | loopElse opening body divider branch ending next =>
    opening.tokens ++ (body.tokens ++ (divider.tokens ++ (branch.tokens ++ (ending.tokens ++ next.tokens))))
  | openElse opening body divider branch =>
    opening.tokens ++ (body.tokens ++ (divider.tokens ++ branch.tokens))

/-- The scopes of a template in the order of its text, without what they declare: one for each block
    that has a scope of its own, inside the scope of the nearest block around it that has one. A scope
    reaches from the end of the opening tag to the start of the tag that ends the block, or the loop
    before its last branch; without such a tag it is open at the end of the file. The scope around all
    of them and the number of the next one are given, as is the end of the file. -/
def shapes {host : Option BlockKind} {isClosed : Bool} (stop : Position) (around next : ScopeId) :
    BlockTree host isClosed → List Scope
  | done | openRaw _ _ => []
  | text _ _ later | plain _ later | elseIf _ later | otherwise _ later | raw _ _ _ later =>
    later.shapes stop around next
  | block kind opening body ending later =>
    let own := ownScope kind.scopeKind? around { start := opening.after, stop := ending.start } false
    let whole := withInner own around next fun around next => body.shapes stop around next
    whole ++ later.shapes stop around (next + whole.length)
  | openBlock kind opening body =>
    let own := ownScope kind.scopeKind? around { start := opening.after, stop } true
    withInner own around next fun around next => body.shapes stop around next
  | loopElse opening body divider branch _ later =>
    let own := ownScope (some .loop) around { start := opening.after, stop := divider.start } false
    let loop := withInner own around next fun around next => body.shapes stop around next
    let whole := loop ++ branch.shapes stop around (next + loop.length)
    whole ++ later.shapes stop around (next + whole.length)
  | openElse opening body divider branch =>
    let own := ownScope (some .loop) around { start := opening.after, stop := divider.start } false
    let loop := withInner own around next fun around next => body.shapes stop around next
    loop ++ branch.shapes stop around (next + loop.length)

end BlockTree

end TemplateAnalysis.Template
