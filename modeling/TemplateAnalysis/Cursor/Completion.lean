import TemplateAnalysis.Cursor.Target

namespace TemplateAnalysis.Cursor

/-- What a completion completes. -/
inductive CompletionType
  | filter
  | identifier
  | snippet
  deriving DecidableEq, Inhabited

/-- A completion. It is inserted at a position or replaces what has been typed so far, never both.
    Without a text of its own, its label is what is put in. -/
structure Completion where
  type : CompletionType
  label : String
  kind : CompletionKind
  description : String
  newText : Option String := none
  insertRange : Option Range := none
  replaceRange : Option Range := none
  deriving DecidableEq, Inhabited

/-- Where a completion goes. -/
inductive Edit
  | insert (range : Range)
  | replace (range : Range)
  deriving DecidableEq, Inhabited

namespace Completion

/-- The completion with the place where it goes. -/
def withEdit (edit : Edit) (item : Completion) : Completion :=
  match edit with
  | .insert range => { item with insertRange := some range }
  | .replace range => { item with replaceRange := some range }

/-- The filters that every template can use. -/
def filters (edit : Edit) : List Completion :=
  Vocabulary.filters.map fun (label, description) =>
    withEdit edit { type := .filter, label, kind := .function, description }

/-- The snippets. Where white space already stands before the cursor, they begin without it. -/
def snippets (edit : Edit) (spaced : Bool) : List Completion :=
  Vocabulary.snippets.map fun snippet =>
    let text :=
      if spaced then String.ofList (Text.trimStart snippet.text.toList) else snippet.text
    withEdit edit
      { type := .snippet, label := snippet.label, kind := .text
        description := snippet.description, newText := some text }

/-- The variables that count at a position: those of the scopes around it, then those of programs,
    then those that need no declaration. Each name is offered once. -/
def identifiers (workspace : Workspace) (outline : Template.Outline) (position : Position)
    (edit : Edit) : List Completion :=
  let ofKind := fun (name : String) (kind : IdentifierKind) =>
    { type := .identifier, label := name, kind := kind.completionKind
      description := kind.detail : Completion }
  let inScope := (outline.scopes.visibleAt position).map fun binding =>
    ofKind binding.name binding.kind
  let declared := (workspace.corpus.index.names workspace.corpus.family).map fun (name, _) =>
    ofKind name .hostVariable
  let builtin := Vocabulary.builtins.map fun name =>
    { type := .identifier, label := name, kind := .constant, description := "Builtin" : Completion }
  (distinctBy Completion.label (inScope ++ declared ++ builtin)).map (withEdit edit)

/-- The text of a directory as it can stand inside a longer path, between slashes. -/
def directoryMarker (directory : String) : List Char :=
  let rec dropHere : List Char → List Char
    | '.' :: '/' :: rest => dropHere rest
    | text => text
  let isSlash := fun (c : Char) => c == '/'
  let inner := (dropHere directory.toList).dropWhile isSlash
  '/' :: (inner.reverse.dropWhile isSlash).reverse ++ ['/']

/-- The name under which other templates refer to a file: its path below the directory of templates,
    or else its own name. -/
def templateName (directory : Option String) (filename : String) : String :=
  let scheme := "file://".toList
  let path :=
    if scheme.isPrefixOf filename.toList then
      String.ofList (filename.toList.drop scheme.length)
    else filename
  let below := directory.bind fun directory =>
    (Path.relativeTo? directory path).or <|
      (Text.splitAt? (directoryMarker directory) path.toList).map fun (_, rest) =>
        String.ofList rest
  below.getD ((Path.fileName? path).getD path)

/-- The names in order, each of them once. -/
def sortNames (names : List String) : List String :=
  distinctBy id (names.mergeSort fun first second => decide (first ≤ second))

/-- The other templates of the workspace. -/
def templates (workspace : Workspace) (current : Document) (edit : Edit) : List Completion :=
  let others := workspace.corpus.listed.filter fun document =>
    document.isTemplate && document.id != current.id
  (sortNames (others.map fun document =>
      templateName workspace.settings.templates document.filename)).map fun label =>
    withEdit edit
      { type := .identifier, label, kind := .file
        description := IdentifierKind.templateRef.detail }

/-- The links that are known. -/
def links (workspace : Workspace) (edit : Edit) : List Completion :=
  workspace.hints.all.map fun hint =>
    withEdit edit
      { type := .identifier, label := hint.action.name, kind := .text
        description := hint.action.description }

/-- Whether an offset lies inside a string literal. The end counts as inside as long as the literal
    is not finished. -/
def isInside (token : Template.Token) (offset : Nat) : Bool :=
  let text := token.text.toList
  let isClosed := decide (2 ≤ Text.byteLength text) && text.head? == text.getLast?
  let stop := token.stop.offset
  decide (token.start.offset < offset) &&
    (decide (offset < stop) || !isClosed && decide (offset ≤ stop))

/-- The kind of the first token of the tag around a token, given the tokens before it with the
    nearest one first. -/
def tagHead? (token : Template.Token) : List Template.Token → Option Template.TokenKind
  | [] => none
  | previous :: earlier =>
    if previous.kind.isTagBegin then some token.kind else tagHead? previous earlier

/-- Whether the strings of a statement name templates. -/
def namesTemplates : Template.TokenKind → Bool
  | .keyword .extendsKw | .keyword .includeKw | .keyword .importKw | .keyword .fromKw => true
  | _ => false

/-- The completions inside a string literal: templates where the statement names one, links where
    the string begins like a path. -/
def inString (workspace : Workspace) (document : Document) (token : Template.Token)
    (earlier : List Template.Token) (offset : Nat) : Option (List Completion) :=
  let source := document.source
  let start := token.start.offset + 1
  let typed : Span := { start, stop := max offset start }
  let partialText := typed.text source
  let edit :=
    if partialText.isEmpty then .insert (.empty (source.positionAt offset))
    else .replace (source.rangeOf typed)
  if (tagHead? token earlier).any namesTemplates then some (templates workspace document edit)
  else if partialText.toList.head? = some '/' then some (links workspace edit)
  else none

/-- The completions of a word, given the kind of the token before it: statements at the front of a
    tag, filters after a bar, nothing for attributes, and else variables. -/
def atWord (workspace : Workspace) (outline : Template.Outline) (position : Position)
    (edit : Edit) : Option Template.TokenKind → Option (List Completion)
  | some (.tagBegin .statement) => some (snippets edit true)
  | some (.symbol .pipe) => some (filters edit)
  | some (.symbol .dot) => none
  | _ => some (identifiers workspace outline position edit)

/-- The completions in a template, given the tokens that begin before the cursor with the nearest
    one first. -/
def inTemplate (workspace : Workspace) (document : Document) (outline : Template.Outline)
    (offset : Nat) (position : Position) : List Template.Token → Option (List Completion)
  | [] => none
  | token :: earlier =>
    let insert := Edit.insert (.empty position)
    let replace := Edit.replace token.range
    let isTouching := decide (offset ≤ token.stop.offset)
    match token.kind with
    | .text | .tagEnd _ => none
    | .tagBegin .statement => some (snippets insert (!isTouching))
    | .symbol .pipe => some (filters insert)
    | .symbol .dot => none
    | kind =>
      if kind = .string ∧ isInside token offset then
        inString workspace document token earlier offset
      else if kind.isWord ∧ isTouching then
        atWord workspace outline position replace (earlier.head?.map (·.kind))
      else some (identifiers workspace outline position insert)

/-- The completions in a program: the names of templates, where one is named. -/
def inProgram (workspace : Workspace) (document : Document) (identifiers : List Identifier)
    (position : Position) : Option (List Completion) :=
  (identifiers.find? fun identifier =>
      identifier.kind == .templateRef && identifier.range.touches position).map fun identifier =>
    let typed : Range := { start := identifier.range.start, stop := position }
    let edit := if typed.isEmpty then Edit.insert (.empty position) else .replace typed
    templates workspace document edit

/-- The completions at a position. There are none where nothing can be completed. -/
def at? (workspace : Workspace) (document : Document) (position : Position) :
    Option (List Completion) :=
  (document.source.offsetAt position).bind fun offset =>
    match document.content with
    | .template outline =>
      let before := outline.tokens.filter fun token =>
        token.kind != .endOfFile && decide (token.start.offset < offset)
      inTemplate workspace document outline offset position before.reverse
    | .program _ identifiers => inProgram workspace document identifiers position

end Completion

end TemplateAnalysis.Cursor
