import TemplateAnalysis.Distinct
import TemplateAnalysis.Host.Language
import TemplateAnalysis.Identifier

namespace TemplateAnalysis.Host

/-- A document is known by a number that its client chose. -/
abbrev DocumentId := Nat

/-- The declaration of a variable in a program. A greater revision was written later. -/
structure Entry where
  document : DocumentId
  filename : String
  language : HostLanguage
  range : Range
  revision : Nat
  deriving DecidableEq, Inhabited

/-- The variables that programs declare, with their names, in the order in which they were added.
    References of templates are looked up here, so no document knows another one. -/
structure Index where
  entries : List (String × Entry) := []
  deriving DecidableEq, Inhabited

namespace Index

/-- The index without the declarations of a document. -/
def erase (index : Index) (document : DocumentId) : Index :=
  { entries := index.entries.filter (·.2.document != document) }

/-- Whether a document declares something. -/
def mentions (index : Index) (document : DocumentId) : Bool :=
  index.entries.any (·.2.document == document)

/-- The entries of the identifiers that are variables. -/
def entriesOf (document : DocumentId) (filename : String) (language : HostLanguage)
    (revision : Nat) (identifiers : List Identifier) : List (String × Entry) :=
  (identifiers.filter (·.kind == .hostVariable)).map fun identifier =>
    (identifier.name, { document, filename, language, range := identifier.range, revision })

/-- The index in which the declarations of a document are replaced. -/
def insert (index : Index) (document : DocumentId) (filename : String) (language : HostLanguage)
    (revision : Nat) (identifiers : List Identifier) : Index :=
  { entries := (index.erase document).entries ++
      entriesOf document filename language revision identifiers }

/-- Whether an entry belongs to the languages that count; without a choice all of them do. -/
def inFamily (family : Option HostLanguage) (entry : Entry) : Bool :=
  family.all (entry.language == ·)

/-- The order of candidates: what was written last comes first, and within a document what stands
    first. -/
def precedes (first second : Entry) : Bool :=
  if first.revision = second.revision then decide (first.range.start ≤ second.range.start)
  else decide (second.revision < first.revision)

/-- The entries of a name in the languages that count. -/
def candidates (name : String) (family : Option HostLanguage) (entries : List (String × Entry)) :
    List Entry :=
  (entries.filter fun entry => entry.1 == name && inFamily family entry.2).map (·.2)

/-- The declarations of a name, the best candidate first. -/
def lookup (index : Index) (name : String) (family : Option HostLanguage) : List Entry :=
  (candidates name family index.entries).mergeSort precedes

/-- The declaration of a name that counts. -/
def latest? (index : Index) (name : String) (family : Option HostLanguage) : Option Entry :=
  (index.lookup name family).head?

/-- The declared names in order, each with the declaration that counts. -/
def names (index : Index) (family : Option HostLanguage) : List (String × Entry) :=
  let names := distinctBy id (index.entries.map (·.1))
  (names.mergeSort fun first second => decide (first ≤ second)).filterMap fun name =>
    (index.latest? name family).map fun entry => (name, entry)

/-- Whether nothing is declared. -/
def isEmpty (index : Index) : Bool :=
  index.entries.isEmpty

end Index

end TemplateAnalysis.Host
