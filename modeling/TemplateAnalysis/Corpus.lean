import TemplateAnalysis.Document
import TemplateAnalysis.Table

namespace TemplateAnalysis

open Host (DocumentId)

/-- The order in which a table gives its documents when all of them are gone through. Nothing is
    promised of this order: the documents do not settle it, and when one is written or removed, all
    the others can come in another order. It stays as long as the table is only read. -/
structure Arrangement where
  /-- The numbers of the documents in the order in which they come after so many writes, made from the
      numbers in the order of the last writes. -/
  arrange : Nat → List DocumentId → List DocumentId := fun _ ids => ids
  perm : ∀ revision ids, (arrange revision ids).Perm ids := by exact fun _ _ => .refl _
  deriving Inhabited

/-- The documents of a workspace by their numbers, the numbers by the names of the documents, the
    variables that programs declare, the number of writes so far, the number of changes of the
    variables so far, the language whose variables templates can use, and the order in which the
    table of the documents gives them. -/
structure Corpus where
  documents : Table DocumentId Document := {}
  byName : Table String DocumentId := {}
  index : Host.Index := {}
  revision : Nat := 0
  generation : Nat := 0
  family : Option HostLanguage := none
  arrangement : Arrangement := {}
  deriving Inhabited

namespace Corpus

/-- The document with a number. -/
def document? (corpus : Corpus) (id : DocumentId) : Option Document :=
  corpus.documents.get? id

/-- The document with a name. -/
def documentNamed? (corpus : Corpus) (filename : String) : Option Document :=
  (corpus.byName.get? filename).bind corpus.document?

/-- The document with a number, or else the one with a name. -/
def find? (corpus : Corpus) (id : DocumentId) (filename : String) : Option Document :=
  (corpus.document? id).or (corpus.documentNamed? filename)

/-- The document that a key names: by its number if the key is one, else by its name. -/
def documentForKey? (corpus : Corpus) (key : String) : Option Document :=
  match DocumentId.ofText? key with
  | some id => corpus.document? id
  | none => corpus.documentNamed? key

/-- All documents, in the order in which they come at present. -/
def listed (corpus : Corpus) : List Document :=
  (corpus.arrangement.arrange corpus.revision (corpus.documents.entries.map (·.1))).filterMap
    corpus.document?

/-- What the variables of the workspace make of a document. -/
def resolve (corpus : Corpus) (document : Document) : Analysis :=
  match document.content with
  | .template outline => .ofOutline outline corpus.index corpus.family
  | .program _ identifiers => { identifiers }

/-- The workspace in which a document keeps an analysis of the present generation. -/
def remember (corpus : Corpus) (document : Document) (analysis : Analysis) : Corpus :=
  { corpus with
    documents := corpus.documents.modify document.id fun stored =>
      { stored with cache := some (corpus.generation, analysis) } }

/-- The analysis of a document, made anew only if the document keeps none of the present generation.
    A new one is kept. -/
def analyse (corpus : Corpus) (document : Document) : Analysis × Corpus :=
  match document.cache with
  | some (generation, analysis) =>
    if generation = corpus.generation then (analysis, corpus)
    else (corpus.resolve document, corpus.remember document (corpus.resolve document))
  | none => (corpus.resolve document, corpus.remember document (corpus.resolve document))

/-- Removes the document with a number, together with its name and its variables. -/
def remove (corpus : Corpus) (id : DocumentId) : Corpus :=
  match corpus.document? id with
  | none => corpus
  | some document =>
    { corpus with
      documents := corpus.documents.erase id
      byName :=
        if corpus.byName.get? document.filename = some id then
          corpus.byName.erase document.filename
        else corpus.byName
      index := corpus.index.erase id
      generation := if corpus.index.mentions id then corpus.generation + 1 else corpus.generation }

/-- Removes the document with a name, if there is one. -/
def erase (corpus : Corpus) (filename : String) : Corpus :=
  match corpus.byName.get? filename with
  | some id => corpus.remove id
  | none => corpus

/-- Makes room for a document: the one with its number goes, and so does the one that has its name
    under another number. -/
def vacate (corpus : Corpus) (id : DocumentId) (filename : String) : Corpus :=
  match corpus.byName.get? filename with
  | some other => ((if other = id then corpus else corpus.remove other)).remove id
  | none => corpus.remove id

/-- Takes in the variables that a document declares, if it is a program. -/
def declare (corpus : Corpus) (document : Document) : Corpus :=
  match document.content with
  | .template _ => corpus
  | .program language identifiers =>
    { corpus with
      index := corpus.index.insert document.id document.filename language document.revision
        identifiers
      generation := corpus.generation + 1 }

/-- Puts a document in its place. -/
def store (corpus : Corpus) (document : Document) : Corpus :=
  { corpus with
    documents := corpus.documents.insert document.id document
    byName := corpus.byName.insert document.filename document.id }

/-- Reads a document that is written now. -/
def read (corpus : Corpus) (id : DocumentId) (filename text extension : String) : Document :=
  let source : Source := { name := filename, text }
  { id, source, extension, revision := corpus.revision + 1
    content := .ofSource (.ofExtension extension) source }

/-- Writes a document. It takes the place of the documents that had its number or its name. The
    result has its identifiers, and the document keeps the analysis that has found them. -/
def add (corpus : Corpus) (id : DocumentId) (filename text extension : String) :
    List Identifier × Corpus :=
  let document := corpus.read id filename text extension
  let vacant := { corpus with revision := corpus.revision + 1 }.vacate id filename
  let (analysis, corpus) := ((vacant.declare document).store document).analyse document
  (analysis.identifiers, corpus)

/-- The identifiers on one line of the document that a key names. -/
def identifiersOnLine? (corpus : Corpus) (key : String) (line : Nat) :
    Option (List Identifier) × Corpus :=
  match corpus.documentForKey? key with
  | none => (none, corpus)
  | some document =>
    let (analysis, corpus) := corpus.analyse document
    (some (analysis.identifiers.filter (·.range.intersectsLine line)), corpus)

end Corpus

end TemplateAnalysis
