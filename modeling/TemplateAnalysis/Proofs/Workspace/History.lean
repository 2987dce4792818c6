import TemplateAnalysis.Cursor
import TemplateAnalysis.Proofs.Corpus.Arrangement

namespace TemplateAnalysis

open Host (DocumentId)
open Cursor (Completion Hover Location)

/-- What can be asked of a workspace. -/
inductive Query
  | identifiersOnLine (key : String) (line : Nat)
  | hover (id : DocumentId) (filename : String) (position : Position)
  | completions (id : DocumentId) (filename : String) (position : Position)
  | declarations (id : DocumentId) (filename : String) (position : Position)
  | missingTemplate (id : DocumentId) (filename : String) (position : Position)
  | symbols (id : DocumentId) (filename : String)
  | undefined (filename : String)
  | templateFiles
  deriving DecidableEq, Inhabited

/-- What a workspace answers to a query. -/
inductive Answer
  | identifiers (found : Option (List Identifier))
  | hover (found : Option Hover)
  | completions (found : Option (List Completion))
  | declarations (found : Option (List Location))
  | missingTemplate (found : Option String)
  | templateFiles (found : List String)
  deriving DecidableEq, Inhabited

/-- What can happen to a workspace. -/
inductive Operation
  | add (upload : Upload)
  | erase (filename : String)
  | ask (query : Query)
  deriving DecidableEq, Inhabited

/-- Whether an operation writes or erases documents. -/
def Operation.isWrite : Operation → Bool
  | .ask _ => false
  | _ => true

/-- Whether an operation writes a document. -/
def Operation.isAdd : Operation → Bool
  | .add _ => true
  | _ => false

namespace Workspace

/-- The answer to a query, and the workspace afterwards, which may have kept another analysis. -/
def answer (workspace : Workspace) : Query → Answer × Workspace
  | .identifiersOnLine key line =>
    let (found, workspace) := workspace.identifiersOnLine? key line
    (.identifiers found, workspace)
  | .hover id filename position =>
    let (found, workspace) := workspace.hover? id filename position
    (.hover found, workspace)
  | .completions id filename position =>
    (.completions (workspace.complete? id filename position), workspace)
  | .declarations id filename position =>
    let (found, workspace) := workspace.declarations? id filename position
    (.declarations found, workspace)
  | .missingTemplate id filename position =>
    let (found, workspace) := workspace.missingTemplate? id filename position
    (.missingTemplate found, workspace)
  | .symbols id filename =>
    let (found, workspace) := workspace.symbols? id filename
    (.identifiers found, workspace)
  | .undefined filename =>
    let (found, workspace) := workspace.undefined? filename
    (.identifiers found, workspace)
  | .templateFiles => (.templateFiles workspace.templateFiles, workspace)

/-- The workspace after an operation. -/
def perform (workspace : Workspace) : Operation → Workspace
  | .add upload =>
    (workspace.add upload.id upload.filename upload.text upload.extension).2
  | .erase filename => workspace.erase filename
  | .ask query => (workspace.answer query).2

/-- The workspace without documents that has these settings and hints. -/
def initial (settings : Settings) (hints : LinkHints) (arrangement : Arrangement := {}) : Workspace :=
  { ofSettings settings arrangement with hints }

/-- The workspace after several operations, from the one without documents on. -/
def after (settings : Settings) (hints : LinkHints) (operations : List Operation)
    (arrangement : Arrangement := {}) : Workspace :=
  operations.foldl perform (initial settings hints arrangement)

end Workspace

/-- The documents that are there after one more operation, in the order in which they were written
    last. A document takes the place of those with its number or its name. -/
def survive (uploads : List Upload) : Operation → List Upload
  | .add upload => uploads.filter (fun other => !upload.replaces other) ++ [upload]
  | .erase filename => uploads.filter (·.filename != filename)
  | .ask _ => uploads

/-- The documents that survive a history: those that are not erased afterwards and whose number and
    name no later document has. -/
def survivors (operations : List Operation) : List Upload :=
  operations.foldl survive []

namespace Workspace

/-- A workspace with these settings and hints that holds these documents. -/
structure Holds (settings : Settings) (hints : LinkHints) (uploads : List Upload)
    (workspace : Workspace) : Prop where
  coherent : workspace.corpus.Coherent settings.language uploads
  hints : workspace.hints = hints
  settings : workspace.settings = settings

namespace Holds

variable {settings : Settings} {hints : LinkHints} {uploads : List Upload} {workspace : Workspace}

theorem initial (settings : Settings) (hints : LinkHints) (arrangement : Arrangement) :
    Holds settings hints [] (Workspace.initial settings hints arrangement) :=
  ⟨.initial settings.language arrangement, rfl, rfl⟩

/-- The present analysis of a document is what the present variables make of it. -/
theorem ask {α : Type} (hholds : Holds settings hints uploads workspace) {document? : Option Document}
    (hstored : ∀ document, document? = some document → document ∈ workspace.corpus.stored)
    (answer? : Document → Analysis → Option α) :
    (workspace.ask document? answer?).1 =
        document?.bind (fun document => answer? document (workspace.corpus.resolve document)) ∧
      Holds settings hints uploads (workspace.ask document? answer?).2 := by
  cases document? with
  | none => exact ⟨rfl, hholds⟩
  | some document =>
    obtain ⟨hanalysis, hcoherent⟩ := hholds.coherent.analyse (hstored document rfl)
    refine ⟨?_, hcoherent, hholds.hints, hholds.settings⟩
    rw [Option.bind_some, ← hanalysis]
    rfl

/-- Every document that can be found is stored. -/
theorem mem_stored_of_find? (hholds : Holds settings hints uploads workspace) {id : DocumentId}
    {filename : String} {document : Document}
    (hfind : workspace.corpus.find? id filename = some document) :
    document ∈ workspace.corpus.stored := by
  rw [Corpus.find?, Option.or_eq_some_iff] at hfind
  rcases hfind with hid | ⟨_, hname⟩
  · exact (hholds.coherent.document?_eq_some_iff.mp hid).1
  · exact (hholds.coherent.documentNamed?_eq_some_iff.mp hname).1

theorem mem_stored_of_documentNamed? (hholds : Holds settings hints uploads workspace)
    {filename : String} {document : Document}
    (hname : workspace.corpus.documentNamed? filename = some document) :
    document ∈ workspace.corpus.stored :=
  (hholds.coherent.documentNamed?_eq_some_iff.mp hname).1

theorem mem_stored_of_documentForKey? (hholds : Holds settings hints uploads workspace) {key : String}
    {document : Document} (hkey : workspace.corpus.documentForKey? key = some document) :
    document ∈ workspace.corpus.stored := by
  unfold Corpus.documentForKey? at hkey
  split at hkey
  · exact (hholds.coherent.document?_eq_some_iff.mp hkey).1
  · exact hholds.mem_stored_of_documentNamed? hkey

/-- The identifiers on a line are asked for like anything else. -/
theorem identifiersOnLine?_eq_ask (workspace : Workspace) (key : String) (line : Nat) :
    workspace.identifiersOnLine? key line =
      workspace.ask (workspace.corpus.documentForKey? key) fun _ analysis =>
        some (analysis.identifiers.filter (·.range.intersectsLine line)) := by
  unfold Workspace.identifiersOnLine? Corpus.identifiersOnLine? Workspace.ask
  cases workspace.corpus.documentForKey? key <;> rfl

/-- A query changes nothing but the analyses that are kept. -/
theorem answer (hholds : Holds settings hints uploads workspace) (query : Query) :
    Holds settings hints uploads (workspace.answer query).2 := by
  cases query with
  | identifiersOnLine key line =>
    simp only [Workspace.answer, identifiersOnLine?_eq_ask]
    exact (hholds.ask (fun _ => hholds.mem_stored_of_documentForKey?) _).2
  | hover id filename position =>
    exact (hholds.ask (fun _ => hholds.mem_stored_of_find?) (Hover.at? workspace · · position)).2
  | completions id filename position => exact hholds
  | declarations id filename position =>
    exact (hholds.ask (fun _ => hholds.mem_stored_of_find?) (Location.at? workspace · · position)).2
  | missingTemplate id filename position =>
    exact (hholds.ask (fun _ => hholds.mem_stored_of_find?)
      (Cursor.missingTemplate? workspace · · position)).2
  | symbols id filename =>
    exact (hholds.ask (fun _ => hholds.mem_stored_of_find?) fun _ analysis =>
      some (analysis.identifiers.filter (·.kind != .link))).2
  | undefined filename =>
    exact (hholds.ask (fun _ => hholds.mem_stored_of_documentNamed?) fun _ analysis =>
      some (analysis.identifiers.filter (·.kind == .undefinedVariable))).2
  | templateFiles => exact hholds

theorem perform (hholds : Holds settings hints uploads workspace) (operation : Operation) :
    Holds settings hints (survive uploads operation) (workspace.perform operation) := by
  cases operation with
  | add upload => exact ⟨hholds.coherent.add upload, hholds.hints, hholds.settings⟩
  | erase filename => exact ⟨hholds.coherent.erase filename, hholds.hints, hholds.settings⟩
  | ask query => exact hholds.answer query

theorem foldl (hholds : Holds settings hints uploads workspace) (operations : List Operation) :
    Holds settings hints (operations.foldl survive uploads)
      (operations.foldl Workspace.perform workspace) := by
  induction operations generalizing uploads workspace with
  | nil => exact hholds
  | cons operation rest ih => exact ih (hholds.perform operation)

/-- Whatever has happened to a workspace, it holds the documents that survive. -/
theorem after (settings : Settings) (hints : LinkHints) (operations : List Operation)
    (arrangement : Arrangement) : Holds settings hints (survivors operations)
      (Workspace.after settings hints operations arrangement) :=
  (initial settings hints arrangement).foldl operations

end Holds

theorem moment_ask {α : Type} (workspace : Workspace) (document? : Option Document)
    (answer? : Document → Analysis → Option α) :
    (workspace.ask document? answer?).2.corpus.moment = workspace.corpus.moment := by
  cases document? with
  | none => rfl
  | some document => exact workspace.corpus.moment_analyse document

/-- A query is no write. -/
theorem moment_answer (workspace : Workspace) (query : Query) :
    (workspace.answer query).2.corpus.moment = workspace.corpus.moment := by
  cases query <;>
    simp only [answer, Holds.identifiersOnLine?_eq_ask, hover?, declarations?, missingTemplate?,
      symbols?, undefined?, moment_ask]

/-- The present arrangement is settled by the number of documents that have been written. -/
theorem moment_after (settings : Settings) (hints : LinkHints) (operations : List Operation)
    (arrangement : Arrangement) : (after settings hints operations arrangement).corpus.moment =
      (arrangement, operations.countP Operation.isAdd) := by
  have hfoldl : ∀ workspace : Workspace, (operations.foldl perform workspace).corpus.moment =
      (workspace.corpus.arrangement, workspace.corpus.revision + operations.countP Operation.isAdd) := by
    induction operations with
    | nil => exact fun _ => rfl
    | cons operation rest ih =>
      intro workspace
      have hnext := ih (workspace.perform operation)
      have hmoment : (workspace.perform operation).corpus.moment = (workspace.corpus.arrangement,
          workspace.corpus.revision + if operation.isAdd then 1 else 0) := by
        cases operation with
        | add upload => exact Corpus.moment_add ..
        | erase filename => exact Corpus.moment_erase ..
        | ask query => exact workspace.moment_answer query
      obtain ⟨harrangement, hrevision⟩ := Prod.mk.inj hmoment
      rw [List.foldl_cons, hnext, harrangement, hrevision, List.countP_cons]
      congr 1
      omega
  rw [after, hfoldl]
  exact congrArg (Prod.mk arrangement) (Nat.zero_add _)

end Workspace

end TemplateAnalysis
