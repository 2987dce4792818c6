import TemplateAnalysis.Proofs.Server.Shelf

namespace TemplateAnalysis.Server

open Host (DocumentId)
open Cursor (Location)

namespace Request

/-- The address of the document that a request is about. -/
def uri : Request → String
  | .hover uri _ | .completion uri _ | .declarations uri _ | .symbols uri | .actions uri _ => uri

/-- What a request asks of the workspace. -/
def query (id : DocumentId) : Request → Query
  | .hover uri position => .hover id uri position
  | .completion uri position => .completions id uri position
  | .declarations uri position => .declarations id uri position
  | .symbols uri => .symbols id uri
  | .actions uri range => .missingTemplate id uri range.start

end Request

namespace State

/-- How the server tells what its workspace answers. -/
def present (state : State) : TemplateAnalysis.Answer → Answer
  | .hover found => (found.map .hover).getD .nothing
  | .completions found => (found.map .completions).getD .nothing
  | .declarations found => (found.map fun places => .places (state.places places)).getD .nothing
  | .identifiers found => (found.map .symbols).getD .nothing
  | .missingTemplate found => ((found.bind (uriOf? state.files)).map .creation).getD .nothing
  | .templateFiles _ => .nothing

/-- A request is passed on to the workspace if its document has ever been there. -/
theorem answer_eq (state : State) (request : Request) :
    state.answer request =
      match state.documentId? request.uri with
      | none => (.nothing, state)
      | some id =>
        (state.present (state.workspace.answer (request.query id)).1,
          { state with workspace := (state.workspace.answer (request.query id)).2 }) := by
  cases request <;> rfl

/-- A state that knows of the documents what it has to know. -/
structure Follows (files : FileTree) (settings : Settings) (arrangement : Arrangement) (shelf : Shelf)
    (state : State) : Prop where
  files : state.files = files
  uris : state.uris = shelf.uris
  holds : Workspace.Holds settings {} shelf.uploads state.workspace
  moment : state.workspace.corpus.moment = (arrangement, shelf.writes)

namespace Follows

variable {files : FileTree} {settings : Settings} {arrangement : Arrangement} {shelf : Shelf}
  {state first second : State}

theorem documentId?_of_mem (hfollows : Follows files settings arrangement shelf state) {uri : String}
    (hmem : uri ∈ shelf.uris) : state.documentId? uri = some (shelf.uris.idxOf uri) := by
  rw [documentId?, hfollows.uris]
  exact List.findIdx?_eq_some_of_exists ⟨uri, hmem, beq_self_eq_true uri⟩

theorem documentId?_of_not_mem (hfollows : Follows files settings arrangement shelf state) {uri : String}
    (hnew : uri ∉ shelf.uris) : state.documentId? uri = none := by
  rw [documentId?, hfollows.uris, List.findIdx?_eq_none_iff]
  intro other hother
  exact beq_false_of_ne fun hsame => hnew (hsame ▸ hother)

/-- The workspace may keep more analyses. -/
theorem ask (hfollows : Follows files settings arrangement shelf state) (query : Query) :
    Follows files settings arrangement shelf
      { state with workspace := (state.workspace.answer query).2 } where
  files := hfollows.files
  uris := hfollows.uris
  holds := hfollows.holds.answer query
  moment := (state.workspace.moment_answer query).trans hfollows.moment

theorem register_eq (hfollows : Follows files settings arrangement shelf state) (uri : String) :
    state.register uri = ((Server.register shelf.uris uri).idxOf uri,
      { state with uris := Server.register shelf.uris uri }) := by
  have huris := hfollows.uris
  unfold State.register Server.register
  by_cases hmem : uri ∈ shelf.uris
  · rw [hfollows.documentId?_of_mem hmem, if_pos hmem, ← huris]
  · rw [hfollows.documentId?_of_not_mem hmem, if_neg hmem, List.idxOf_append_of_notMem hmem, huris,
      List.idxOf_cons_self, Nat.add_zero]

/-- Only files of a known kind are read. -/
theorem load?_eq_none (hfollows : Follows files settings arrangement shelf state) {uri : String}
    (text : String) (hunknown : ¬(settings.languageOf? uri).isSome) : state.load? uri text = none := by
  rw [State.load?, hfollows.holds.settings, Option.not_isSome_iff_eq_none.mp hunknown]
  rfl

/-- A file that is read takes the place of the one with its address. -/
theorem load? (hfollows : Follows files settings arrangement shelf state) {uri : String} (text : String)
    (hknown : (settings.languageOf? uri).isSome) : ∃ loaded, state.load? uri text = some loaded ∧
      Follows files settings arrangement (shelf.write uri text) loaded := by
  obtain ⟨language, hlanguage⟩ := Option.isSome_iff_exists.mp hknown
  refine ⟨_, by rw [State.load?, hfollows.holds.settings, hlanguage]; rfl, ?_⟩
  rw [hfollows.register_eq]
  obtain ⟨harrangement, hrevision⟩ := Prod.mk.inj hfollows.moment
  refine ⟨hfollows.files, rfl, ?_, ?_⟩
  · rw [shelf.uploads_write]
    exact hfollows.holds.perform (.add ((shelf.write uri text).upload (uri, text)))
  · exact (Corpus.moment_add ..).trans (Prod.ext harrangement (congrArg Nat.succ hrevision))

theorem erase (hfollows : Follows files settings arrangement shelf state) (uris : List String) :
    Follows files settings arrangement (uris.foldl Shelf.erase shelf)
      { state with workspace := uris.foldl Workspace.erase state.workspace } := by
  induction uris generalizing shelf state with
  | nil => exact hfollows
  | cons uri rest ih =>
    have hnext : Follows files settings arrangement (shelf.erase uri)
        { state with workspace := state.workspace.erase uri } := by
      refine ⟨hfollows.files, hfollows.uris, ?_, ?_⟩
      · rw [shelf.uploads_erase]
        exact hfollows.holds.perform (.erase uri)
      · exact (state.workspace.corpus.moment_erase uri).trans hfollows.moment
    exact ih hnext

theorem answer_congr (hfirst : Follows files settings arrangement shelf first)
    (hsecond : Follows files settings arrangement shelf second) (query : Query) :
    (first.workspace.answer query).1 = (second.workspace.answer query).1 :=
  hfirst.holds.answer_congr hsecond.holds (.inl ((Corpus.current_eq_frozen hfirst.moment).trans
    (Corpus.current_eq_frozen hsecond.moment).symm))

theorem undefined?_congr (hfirst : Follows files settings arrangement shelf first)
    (hsecond : Follows files settings arrangement shelf second) (filename : String) :
    (first.workspace.undefined? filename).1 = (second.workspace.undefined? filename).1 :=
  Answer.identifiers.inj (hfirst.answer_congr hsecond (.undefined filename))

theorem templateFiles_congr (hfirst : Follows files settings arrangement shelf first)
    (hsecond : Follows files settings arrangement shelf second) :
    first.workspace.templateFiles = second.workspace.templateFiles :=
  Answer.templateFiles.inj (hfirst.answer_congr hsecond .templateFiles)

/-- To look for undefined variables changes nothing but the analyses that are kept. -/
theorem diagnosticsOf (hfollows : Follows files settings arrangement shelf state)
    (filenames : List String) :
    Follows files settings arrangement shelf (state.diagnosticsOf filenames).1 := by
  induction filenames generalizing state with
  | nil => exact hfollows
  | cons filename rest ih =>
    rw [State.diagnosticsOf]
    split
    next => exact ih hfollows
    next => exact ih (hfollows.ask (.undefined filename))

theorem diagnostics (hfollows : Follows files settings arrangement shelf state) :
    Follows files settings arrangement shelf state.diagnostics.1 := by
  unfold State.diagnostics
  split
  next => exact hfollows
  next => exact hfollows.diagnosticsOf _

/-- What a server knows after a notice is what it has to know. -/
theorem receive (hfollows : Follows files settings arrangement shelf state) (notice : Notice) :
    Follows files settings arrangement (shelf.receive settings notice) (state.receive notice).1 := by
  cases notice with
  | written uri text =>
    rw [State.receive, Shelf.receive]
    by_cases hknown : (settings.languageOf? uri).isSome
    · obtain ⟨loaded, hload, hloaded⟩ := hfollows.load? text hknown
      rw [hload, if_pos hknown]
      exact hloaded.diagnostics
    · rw [hfollows.load?_eq_none text hknown, if_neg hknown]
      exact hfollows
  | removed uris =>
    cases uris with
    | nil => exact hfollows
    | cons uri rest => exact (hfollows.erase (uri :: rest)).diagnostics
  | ignored => exact hfollows

/-- A request changes nothing but the analyses that are kept. -/
theorem reply (hfollows : Follows files settings arrangement shelf state) (id : MessageId) (method : String)
    (params : Json) : Follows files settings arrangement shelf (state.reply id method params).1 := by
  unfold State.reply
  split
  next request _ =>
    rw [answer_eq]
    cases state.documentId? request.uri with
    | none => exact hfollows
    | some number => exact hfollows.ask (request.query number)
  next => exact hfollows

end Follows

end State

end TemplateAnalysis.Server
