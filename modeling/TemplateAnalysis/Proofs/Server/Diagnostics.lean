import Mathlib.Data.List.Infix
import TemplateAnalysis.Proofs.Server.Session

namespace TemplateAnalysis.Server

open Params

/-- The undefined variables that were sent last for an address. -/
def shown? (uri : String) (replies : List Reply) : Option (List Identifier) :=
  (replies.filterMap fun reply =>
    match reply with
    | .diagnostics other identifiers => if other = uri then some identifiers else none
    | _ => none).getLast?

theorem shown?_append (uri : String) (earlier later : List Reply) :
    shown? uri (earlier ++ later) = (shown? uri later).or (shown? uri earlier) := by
  rw [shown?, shown?, shown?, List.filterMap_append, List.getLast?_append]

/-- What is sent for several addresses shows each of them what is sent for it. -/
theorem shown?_map (uri : String) (uris : List String) (found : String → List Identifier) :
    shown? uri (uris.map fun other => .diagnostics other (found other)) =
      if uri ∈ uris then some (found uri) else none := by
  induction uris with
  | nil => rfl
  | cons other rest ih =>
    rw [List.map_cons, ← List.singleton_append, shown?_append, ih]
    by_cases hrest : uri ∈ rest
    · simp [hrest]
    · by_cases hsame : other = uri
      · simp [shown?, hrest, hsame]
      · simp [shown?, hrest, hsame, Ne.symm hsame]

namespace Notice

/-- Whether a notice writes a text only under an address that names its scheme. -/
def IsAbsolute : Notice → Prop
  | .written uri _ => Text.includes [':', '/', '/'] uri.toList = true
  | _ => True

instance : DecidablePred IsAbsolute := fun notice =>
  match notice with
  | .written uri _ => inferInstanceAs (Decidable (Text.includes [':', '/', '/'] uri.toList = true))
  | .removed _ | .ignored => inferInstanceAs (Decidable True)

/-- Whether a notice writes a text only under an address that diagnostics are sent to as it is. -/
def IsAddressed (files : FileTree) : Notice → Prop
  | .written uri _ => uriOf? files uri = some uri
  | _ => True

theorem isReference_of_field? {name : String} {params : Json} {uri : String}
    (hread : field? uri? name params = some uri) : Uri.isReference uri = true := by
  obtain ⟨value, _, huri⟩ := Option.bind_eq_some_iff.mp hread
  exact (Option.filter_eq_some_iff.mp huri).2

theorem isReference_of_openedDocument? {value : Json} {uri text : String}
    (hread : openedDocument? value = some (uri, text)) : Uri.isReference uri = true := by
  simp only [openedDocument?, Option.bind_eq_bind, Option.bind_eq_some_iff, Option.pure_def,
    Option.some.injEq] at hread
  obtain ⟨_, _, _, huri, _, _, _, _, _, _, hpair⟩ := hread
  cases hpair
  exact isReference_of_field? huri

theorem isReference_of_versionedDocument? {value : Json} {uri : String}
    (hread : versionedDocument? value = some uri) : Uri.isReference uri = true := by
  simp only [versionedDocument?, Option.bind_eq_bind, Option.bind_eq_some_iff] at hread
  obtain ⟨_, _, _, _, huri⟩ := hread
  exact isReference_of_field? huri

/-- The address of a document that a client writes is valid. -/
theorem isReference_of_written {method : String} {params : Json} {uri text : String}
    (hread : ofParams? method params = some (.written uri text)) : Uri.isReference uri = true := by
  unfold ofParams? at hread
  split at hread
  · simp only [opened?, Option.bind_eq_bind, Option.bind_eq_some_iff, Option.pure_def,
      Option.some.injEq] at hread
    obtain ⟨_, _, ⟨_, _⟩, hfield, hwritten⟩ := hread
    cases hwritten
    obtain ⟨_, _, hdocument⟩ := Option.bind_eq_some_iff.mp hfield
    exact isReference_of_openedDocument? hdocument
  · simp only [changed?, Option.bind_eq_bind, Option.bind_eq_some_iff, Option.pure_def,
      Option.some.injEq] at hread
    obtain ⟨_, _, _, hfield, texts, _, hwritten⟩ := hread
    obtain ⟨_, _, hdocument⟩ := Option.bind_eq_some_iff.mp hfield
    cases hlast : texts.getLast? with
    | none =>
      rw [hlast] at hwritten
      cases hwritten
    | some last =>
      rw [hlast] at hwritten
      cases hwritten
      exact isReference_of_versionedDocument? hdocument
  · simp only [filesChanged?, Option.bind_eq_bind, Option.bind_eq_some_iff, Option.pure_def,
      Option.some.injEq] at hread
    obtain ⟨_, _, _, _, hremoved⟩ := hread
    cases hremoved
  · cases hread

theorem uriOf?_of_includes (files : FileTree) {uri : String}
    (habsolute : Text.includes [':', '/', '/'] uri.toList = true)
    (hreference : Uri.isReference uri = true) : uriOf? files uri = some uri := by
  rw [uriOf?, if_pos habsolute, if_pos hreference]

/-- The address of a file that is read at the beginning is one that diagnostics are sent to as it
    is. -/
theorem uriOf?_uriOf? {files : FileTree} {location uri : String}
    (huri : uriOf? files location = some uri) : uriOf? files uri = some uri := by
  unfold uriOf? at huri
  split at huri
  next habsolute =>
    split at huri
    next hreference =>
      cases huri
      exact uriOf?_of_includes files habsolute hreference
    next => cases huri
  next =>
    obtain ⟨hmap, hreference⟩ := Option.filter_eq_some_iff.mp huri
    obtain ⟨path, _, rfl⟩ := Option.map_eq_some_iff.mp hmap
    refine uriOf?_of_includes files ?_ hreference
    rw [String.toList_append]
    rfl

theorem isAddressed_of_noticeOf? {files : FileTree} {file : Discovery.Found} {notice : Notice}
    (hnotice : noticeOf? files file = some notice) : notice.IsAddressed files := by
  obtain ⟨text, _, hmap⟩ := Option.bind_eq_some_iff.mp hnotice
  obtain ⟨uri, huri, rfl⟩ := Option.map_eq_some_iff.mp hmap
  exact uriOf?_uriOf? huri

theorem isAddressed_of_notice? (files : FileTree) {message : Message} {notice : Notice}
    (hnotice : message.notice? = some notice) (habsolute : notice.IsAbsolute) :
    notice.IsAddressed files := by
  cases message with
  | notification method params =>
    cases notice with
    | written uri text =>
      exact uriOf?_of_includes files habsolute (isReference_of_written hnotice)
    | removed uris => trivial
    | ignored => trivial
  | request id method params => cases hnotice
  | response => cases hnotice

end Notice

/-- All addresses of the documents that a server has to know are such that diagnostics are sent to them
    as they are. -/
def Shelf.IsAddressed (files : FileTree) (shelf : Shelf) : Prop :=
  ∀ uri ∈ shelf.uris, uriOf? files uri = some uri

theorem Shelf.IsAddressed.receive {files : FileTree} {shelf : Shelf}
    (haddressed : shelf.IsAddressed files) (settings : Settings) {notice : Notice}
    (hnotice : notice.IsAddressed files) : (shelf.receive settings notice).IsAddressed files := by
  cases notice with
  | written uri text =>
    rw [Shelf.receive]
    split
    next =>
      intro other hother
      rcases mem_register.mp hother with hold | rfl
      · exact haddressed other hold
      · exact hnotice
    next => exact haddressed
  | removed uris =>
    rw [Shelf.receive, Shelf.IsAddressed, Shelf.uris_removed]
    exact haddressed
  | ignored => exact haddressed

theorem Shelf.IsAddressed.ofNotices {files : FileTree} (settings : Settings) {notices : List Notice}
    (hnotices : ∀ notice ∈ notices, notice.IsAddressed files) :
    (Shelf.ofNotices settings notices).IsAddressed files :=
  List.foldlRecOn notices (Shelf.receive settings) (fun _ hmem => nomatch hmem)
    fun _ haddressed notice hmem => haddressed.receive settings (hnotices notice hmem)

namespace State

/-- The undefined variables that the workspace of a server finds now. -/
def undefined (state : State) (uri : String) : List Identifier :=
  (state.workspace.undefined? uri).1.getD []

/-- The present undefined variables of all templates. -/
def announcements (state : State) : List Reply :=
  state.workspace.templateFiles.map fun uri => .diagnostics uri (state.undefined uri)

theorem shown?_announcements (state : State) (uri : String) :
    shown? uri state.announcements =
      if uri ∈ state.workspace.templateFiles then some (state.undefined uri) else none :=
  shown?_map uri _ state.undefined

namespace Follows

variable {files : FileTree} {settings : Settings} {arrangement : Arrangement} {shelf : Shelf}
  {state first second : State}

theorem undefined_congr (hfirst : Follows files settings arrangement shelf first)
    (hsecond : Follows files settings arrangement shelf second) : first.undefined = second.undefined := by
  funext uri
  rw [State.undefined, State.undefined, hfirst.undefined?_congr hsecond]

theorem announcements_congr (hfirst : Follows files settings arrangement shelf first)
    (hsecond : Follows files settings arrangement shelf second) :
    first.announcements = second.announcements := by
  rw [announcements, announcements, hfirst.templateFiles_congr hsecond, hfirst.undefined_congr hsecond]

theorem mem_uris_of_mem_templateFiles (hfollows : Follows files settings arrangement shelf state)
    {uri : String} (hmem : uri ∈ state.workspace.templateFiles) : uri ∈ shelf.uris := by
  rw [Workspace.templateFiles, List.mem_mergeSort] at hmem
  obtain ⟨document, hdocument, rfl⟩ := List.mem_map.mp hmem
  exact (Shelf.id_of_mem_stored hfollows.holds
    (Corpus.mem_listed.mp (List.mem_filter.mp hdocument).1)).1

theorem diagnosticsOf_eq (hfollows : Follows files settings arrangement shelf state) {uris : List String}
    (huris : ∀ uri ∈ uris, uriOf? files uri = some uri) :
    (state.diagnosticsOf uris).2 = uris.map fun uri => .diagnostics uri (state.undefined uri) := by
  induction uris generalizing state with
  | nil => rfl
  | cons uri rest ih =>
    obtain ⟨huri, hrest⟩ := List.forall_mem_cons.mp huris
    have hnext := hfollows.ask (.undefined uri)
    have hlater := ih hnext hrest
    rw [hnext.undefined_congr hfollows] at hlater
    rw [← hfollows.files] at huri
    rw [State.diagnosticsOf, huri]
    exact congrArg (.diagnostics uri (state.undefined uri) :: ·) hlater

/-- If undefined variables are not hidden, those of all templates are sent. -/
theorem diagnostics_eq (hfollows : Follows files settings arrangement shelf state)
    (hshown : settings.hideUndefined = false) (haddressed : shelf.IsAddressed files) :
    state.diagnostics.2 = state.diagnostics.1.announcements := by
  rw [hfollows.diagnostics.announcements_congr hfollows, State.diagnostics, hfollows.holds.settings,
    hshown, if_neg Bool.false_ne_true]
  exact hfollows.diagnosticsOf_eq fun uri hmem =>
    haddressed uri (hfollows.mem_uris_of_mem_templateFiles hmem)

/-- After a notice either nothing is sent, and the documents are the same, or the present undefined
    variables of all templates are sent. -/
theorem receive_cases (hfollows : Follows files settings arrangement shelf state)
    (hshown : settings.hideUndefined = false) {notice : Notice}
    (haddressed : (shelf.receive settings notice).IsAddressed files) :
    (state.receive notice).2 = [] ∧ Follows files settings arrangement shelf (state.receive notice).1 ∨
      (state.receive notice).2 = (state.receive notice).1.announcements := by
  cases notice with
  | written uri text =>
    rw [Shelf.receive] at haddressed
    rw [State.receive]
    by_cases hknown : (settings.languageOf? uri).isSome
    · obtain ⟨loaded, hload, hloaded⟩ := hfollows.load? text hknown
      rw [if_pos hknown] at haddressed
      rw [hload]
      exact .inr (hloaded.diagnostics_eq hshown haddressed)
    · rw [hfollows.load?_eq_none text hknown]
      exact .inl ⟨rfl, hfollows⟩
  | removed uris =>
    cases uris with
    | nil => exact .inl ⟨rfl, hfollows⟩
    | cons uri rest => exact .inr ((hfollows.erase (uri :: rest)).diagnostics_eq hshown haddressed)
  | ignored => exact .inl ⟨rfl, hfollows⟩

/-- After a message either no undefined variables are sent, and the documents are the same, or the
    present ones of all templates are sent. -/
theorem exchange_cases (hfollows : Follows files settings arrangement shelf state)
    (hshown : settings.hideUndefined = false) {message : Message}
    (haddressed : (message.notice?.toList.foldl (Shelf.receive settings) shelf).IsAddressed files) :
    (∀ uri, shown? uri (state.exchange message).2 = none) ∧
        Follows files settings arrangement shelf (state.exchange message).1 ∨
      (state.exchange message).2 = (state.exchange message).1.announcements := by
  cases message with
  | request id method params =>
    refine .inl ⟨fun uri => ?_, hfollows.reply id method params⟩
    simp only [State.exchange, State.handle?, State.reply]
    cases Request.ofParams method params <;> rfl
  | notification method params =>
    simp only [State.exchange, State.handle?, Message.notice?] at haddressed ⊢
    cases hnotice : Notice.ofParams? method params with
    | none => exact .inl ⟨fun _ => rfl, hfollows⟩
    | some notice =>
      rw [hnotice] at haddressed
      refine (hfollows.receive_cases hshown haddressed).imp_left fun hquiet => ?_
      exact ⟨fun uri => congrArg (shown? uri) hquiet.1, hquiet.2⟩
  | response => exact .inl ⟨fun _ => rfl, hfollows⟩

end Follows

theorem listening_append_singleton (files : FileTree) (settings : Settings) (messages : List Message)
    (message : Message) (arrangement : Arrangement) :
    listening files settings (messages ++ [message]) arrangement =
      ((listening files settings messages arrangement).exchange message).1 := by
  rw [listening, reached, List.foldl_append]
  rfl

theorem sent_append_singleton (files : FileTree) (settings : Settings) (messages : List Message)
    (message : Message) (arrangement : Arrangement) :
    sent files settings (messages ++ [message]) arrangement =
      sent files settings messages arrangement ++
        ((listening files settings messages arrangement).exchange message).2 := by
  rw [sent, replies_append, List.flatten_append, ← List.append_assoc]
  simp only [replies, List.flatten_cons, List.flatten_nil, List.append_nil]
  rfl

end State

variable {files : FileTree} {settings : Settings} {arrangement : Arrangement}

theorem isAddressed_noticesOf {messages : List Message}
    (habsolute : ∀ notice ∈ messages.filterMap Message.notice?, notice.IsAbsolute) :
    ∀ notice ∈ noticesOf files settings messages, notice.IsAddressed files := by
  refine List.forall_mem_append.mpr ⟨fun notice hmem => ?_, fun notice hmem => ?_⟩
  · obtain ⟨file, _, hnotice⟩ := List.mem_filterMap.mp hmem
    exact Notice.isAddressed_of_noticeOf? hnotice
  · obtain ⟨message, _, hnotice⟩ := List.mem_filterMap.mp hmem
    exact Notice.isAddressed_of_notice? files hnotice (habsolute notice hmem)

/-- What the workspace of a server finds for an address now, if the address is a template. -/
def State.found? (state : State) (uri : String) : Option (List Identifier) :=
  if uri ∈ state.workspace.templateFiles then some (state.undefined uri) else none

/-- What the workspace of a server found for an address at the last moment at which the address was a
    template. -/
def lastFound? (files : FileTree) (settings : Settings) (uri : String) (messages : List Message)
    (arrangement : Arrangement := {}) : Option (List Identifier) :=
  (messages.inits.filterMap fun before =>
    (State.listening files settings before arrangement).found? uri).getLast?

theorem lastFound?_nil (uri : String) :
    lastFound? files settings uri [] arrangement =
      (State.listening files settings [] arrangement).found? uri := by
  rw [lastFound?, List.inits, List.filterMap_cons, List.filterMap_nil]
  cases (State.listening files settings [] arrangement).found? uri <;> rfl

theorem lastFound?_append_singleton (uri : String) (messages : List Message) (message : Message) :
    lastFound? files settings uri (messages ++ [message]) arrangement =
      ((State.listening files settings (messages ++ [message]) arrangement).found? uri).or
        (lastFound? files settings uri messages arrangement) := by
  rw [lastFound?, lastFound?, List.inits_append, List.filterMap_append, List.getLast?_append]
  simp only [List.inits, List.map_cons, List.map_nil, List.tail_cons, List.filterMap_cons,
    List.filterMap_nil]
  cases (State.listening files settings (messages ++ [message]) arrangement).found? uri <;> rfl

/-- What was found for a template at the last moment is what is found now. -/
theorem lastFound?_of_mem {uri : String} {messages : List Message}
    (hmem : uri ∈ (State.listening files settings messages arrangement).workspace.templateFiles) :
    lastFound? files settings uri messages arrangement =
      some ((State.listening files settings messages arrangement).undefined uri) := by
  have hfound : (State.listening files settings messages arrangement).found? uri =
      some ((State.listening files settings messages arrangement).undefined uri) := if_pos hmem
  cases messages using List.reverseRecOn with
  | nil => rw [lastFound?_nil, hfound]
  | append_singleton messages message => rw [lastFound?_append_singleton, hfound, Option.some_or]

/-- One more message shows what is found after it, if what is shown before it for the templates is
    up to date. -/
theorem shown?_append_singleton (hshown : settings.hideUndefined = false) {messages : List Message}
    {message : Message} (habsolute :
      ∀ notice ∈ (messages ++ [message]).filterMap Message.notice?, notice.IsAbsolute) {uri : String}
    (hcurrent : uri ∈ (State.listening files settings messages arrangement).workspace.templateFiles →
      shown? uri (State.sent files settings messages arrangement) =
        some ((State.listening files settings messages arrangement).undefined uri)) :
    shown? uri (State.sent files settings (messages ++ [message]) arrangement) =
      ((State.listening files settings (messages ++ [message]) arrangement).found? uri).or
        (shown? uri (State.sent files settings messages arrangement)) := by
  have hfollows := State.Follows.listening files settings messages arrangement
  have haddressed : (Shelf.ofNotices settings
      (noticesOf files settings (messages ++ [message]))).IsAddressed files :=
    .ofNotices settings (isAddressed_noticesOf habsolute)
  rw [noticesOf_append, Shelf.ofNotices, List.foldl_append] at haddressed
  rw [State.sent_append_singleton, State.listening_append_singleton, shown?_append]
  rcases hfollows.exchange_cases hshown haddressed with ⟨hquiet, hsame⟩ | hsent
  · rw [hquiet, Option.none_or, State.found?, hsame.templateFiles_congr hfollows,
      hsame.undefined_congr hfollows]
    split
    next hmem => rw [hcurrent hmem, Option.some_or]
    next => rw [Option.none_or]
  · rw [hsent, State.shown?_announcements, State.found?]

/-- What a client is shown for an address is what was found at the last moment at which the address was
    a template, if undefined variables are not hidden and every address names its scheme. So it is up to
    date for the templates, nothing is shown for what has never been one, and what is shown for a
    template is not taken back when the template is removed. -/
theorem shown_lastFound (files : FileTree) {settings : Settings} (arrangement : Arrangement)
    (hshown : settings.hideUndefined = false) {messages : List Message}
    (habsolute : ∀ notice ∈ messages.filterMap Message.notice?, notice.IsAbsolute) :
    (∀ uri ∈ (State.listening files settings messages arrangement).workspace.templateFiles,
      shown? uri (State.sent files settings messages arrangement) =
        some ((State.listening files settings messages arrangement).undefined uri)) ∧
    ∀ uri, shown? uri (State.sent files settings messages arrangement) =
      lastFound? files settings uri messages arrangement := by
  have hlast : ∀ uri, shown? uri (State.sent files settings messages arrangement) =
      lastFound? files settings uri messages arrangement := by
    intro uri
    induction messages using List.reverseRecOn with
    | nil =>
      have hstart := State.Follows.start files settings arrangement
      have haddressed : (Shelf.ofNotices settings (preloaded files settings)).IsAddressed files :=
        .ofNotices settings fun notice hmem =>
          isAddressed_noticesOf habsolute notice (List.mem_append_left _ hmem)
      have hsent : State.sent files settings [] arrangement =
          (State.listening files settings [] arrangement).announcements :=
        (List.append_nil _).trans (hstart.diagnostics_eq hshown haddressed)
      rw [hsent, State.shown?_announcements, lastFound?_nil, State.found?]
    | append_singleton messages message ih =>
      have hbefore := ih fun notice hmem =>
        habsolute notice (List.filterMap_append ▸ List.mem_append_left _ hmem)
      rw [lastFound?_append_singleton, ← hbefore]
      exact shown?_append_singleton hshown habsolute fun hmem =>
        hbefore.trans (lastFound?_of_mem hmem)
  exact ⟨fun uri hmem => (hlast uri).trans (lastFound?_of_mem hmem), hlast⟩

section Removed

/-- The address of a page. -/
def pageUri : String := "file:///srv/page.html"

/-- A page that reads an undefined variable is opened and then removed. -/
def removal : List Message :=
  let page : Json := .object [("uri", .string pageUri), ("languageId", .string "html"),
    ("version", .integer 1), ("text", .string "\x7b\x7b user \x7d\x7d")]
  let change : Json := .object [("uri", .string pageUri), ("type", .integer 3)]
  [.notification "textDocument/didOpen" (.object [("textDocument", page)]),
    .notification "workspace/didChangeWatchedFiles" (.object [("changes", .array [change])])]

theorem shown_lastFound_removal :
    (∀ notice ∈ removal.filterMap Message.notice?, notice.IsAbsolute) ∧
      shown? pageUri (State.sent {} {} removal) = lastFound? {} {} pageUri removal := by
  have habsolute : ∀ notice ∈ removal.filterMap Message.notice?, notice.IsAbsolute := by decide
  exact ⟨habsolute, (shown_lastFound {} {} rfl habsolute).2 pageUri⟩

/-- The undefined variable of a page that has been removed is still shown. -/
theorem shown_after_removal :
    let session := Session.run {} (.object [("capabilities", .object [])]) removal
    session.ending = .finished ∧
      pageUri ∉ (State.listening {} {} removal).workspace.templateFiles ∧
      (shown? pageUri session.replies).any (·.map (·.name) == ["user"]) = true := by
  decide +kernel

end Removed

end TemplateAnalysis.Server
