import TemplateAnalysis.Proofs.Discovery
import TemplateAnalysis.Proofs.Server.Address
import TemplateAnalysis.Proofs.Server.Diagnostics
import TemplateAnalysis.Proofs.Workspace.Agreement

namespace TemplateAnalysis

namespace Discovery

variable {tree : FileTree} {settings : Settings} {roots : List String}

/-- No file is found under a path that is taken for an address, if none of the roots is. -/
theorem not_namesScheme_of_visits {root path : String} {route : Route} {depth : Nat}
    (hvisits : Visits tree root depth route path) (hnames : ∀ name ∈ route, Path.IsName name)
    (hroot : ¬Path.NamesScheme root) : ¬Path.NamesScheme path := by
  induction hvisits with
  | root => exact hroot
  | entry _ _ _ _ ih =>
    obtain ⟨hbefore, hname⟩ := List.forall_mem_append.mp hnames
    exact Path.not_namesScheme_join (ih hbefore) (List.forall_mem_singleton.mp hname)

theorem isName_of_mem_files (htree : tree.WellFormed) {file : Found}
    (hmem : file ∈ files settings tree roots) : ∀ name ∈ file.route, Path.IsName name := by
  obtain ⟨listed, hlisted, hroute⟩ := List.mem_map.mp ((mem_files_iff htree).mp hmem).1
  exact hroute ▸ htree.names listed hlisted

theorem not_namesScheme_of_mem_files (htree : tree.WellFormed)
    (hroots : ∀ root ∈ roots, ¬Path.NamesScheme root) {file : Found}
    (hmem : file ∈ files settings tree roots) : ¬Path.NamesScheme file.path := by
  obtain ⟨_, _, before, root, after, rfl, ⟨depth, hvisits⟩, _⟩ := (mem_files_iff htree).mp hmem
  exact not_namesScheme_of_visits hvisits (isName_of_mem_files htree hmem) (hroots root (by simp))

/-- Every file that is found can be read. -/
theorem exists_text_of_mem_files (htree : tree.WellFormed) {file : Found}
    (hmem : file ∈ files settings tree roots) : ∃ text, tree.file? file.route = some text :=
  Option.isSome_iff_exists.mp (FileTree.isSome_file?_iff.mpr ((mem_files_iff htree).mp hmem).1)

end Discovery

namespace Server

/-- Whether a notice writes or removes the document of an address. -/
def Notice.Concerns (uri : String) : Notice → Prop
  | .written other _ => other = uri
  | .removed uris => uri ∈ uris
  | .ignored => False

/-- Whether a server has a document with this address and this text. -/
def State.Stores (state : State) (uri text : String) : Prop :=
  ∃ document ∈ state.workspace.corpus.stored, document.filename = uri ∧ document.source.text = text

section Latest

variable {settings : Settings} {uri text : String} {notices later : List Notice}

theorem textAfter_of_not_concerns {notice : Notice} (hother : ¬notice.Concerns uri)
    (text? : Option String) : textAfter settings uri text? notice = text? := by
  cases notice with
  | written other text => exact if_neg fun hwritten => hother hwritten.1
  | removed uris => exact if_neg hother
  | ignored => rfl

/-- Notices that concern other addresses leave the text of an address as it is. -/
theorem latestText?_append_of_not_concerns (hother : ∀ notice ∈ later, ¬notice.Concerns uri) :
    latestText? settings uri (notices ++ later) = latestText? settings uri notices := by
  rw [latestText?, latestText?, List.foldl_append]
  generalize notices.foldl (textAfter settings uri) none = text?
  induction later with
  | nil => rfl
  | cons notice rest ih =>
    obtain ⟨hnotice, hrest⟩ := List.forall_mem_cons.mp hother
    rw [List.foldl_cons, textAfter_of_not_concerns hnotice, ih hrest]

/-- If every address of a known kind is written with one text only, its latest text is the one that is
    written. -/
theorem latestText?_eq_some_iff
    (hwritten : ∀ notice ∈ notices, ∃ uri text, notice = .written uri text ∧
      (settings.languageOf? uri).isSome = true)
    (honce : ∀ uri text other, Notice.written uri text ∈ notices → Notice.written uri other ∈ notices →
      text = other) :
    latestText? settings uri notices = some text ↔ .written uri text ∈ notices := by
  induction notices using List.reverseRecOn with
  | nil => simp [latestText?]
  | append_singleton notices notice ih =>
    obtain ⟨hbefore, hlast⟩ := List.forall_mem_append.mp hwritten
    obtain ⟨other, content, rfl, hknown⟩ := List.forall_mem_singleton.mp hlast
    have hearlier := ih hbefore fun uri text other hfirst hsecond =>
      honce uri text other (List.mem_append_left _ hfirst) (List.mem_append_left _ hsecond)
    rw [latestText?, List.foldl_append, List.foldl_cons, List.foldl_nil, textAfter, List.mem_append,
      List.mem_singleton, Notice.written.injEq]
    by_cases hsame : other = uri
    · subst hsame
      rw [if_pos ⟨rfl, hknown⟩, Option.some.injEq]
      constructor
      · exact fun htext => .inr ⟨rfl, htext.symm⟩
      · rintro (hmem | ⟨-, htext⟩)
        · exact honce other content text (by simp) (List.mem_append_left _ hmem)
        · exact htext.symm
    · rw [if_neg fun hwrites => hsame hwrites.1, or_iff_left fun hwrites => hsame hwrites.1.symm]
      exact hearlier

end Latest

section Preloaded

variable {files : FileTree} {settings : Settings} {uri text : String}

/-- What is told by a file that is read at the beginning. -/
theorem noticeOf?_eq (htree : files.WellFormed)
    (hroots : ∀ root ∈ settings.templates.toList ++ settings.programs, ¬Path.NamesScheme root)
    {file : Discovery.Found} (hmem : file ∈ Discovery.workspaceFiles settings files) :
    noticeOf? files file = (files.file? file.route).bind fun text =>
      if Uri.isReference (fileUri file.route) then some (.written (fileUri file.route) text) else none := by
  rw [noticeOf?, uriOf?_of_locate (Discovery.not_namesScheme_of_mem_files htree hroots hmem)
    (Discovery.locate_of_mem_files htree hmem)]
  congr 1
  funext text
  split <;> rfl

theorem mem_preloaded_iff (htree : files.WellFormed)
    (hroots : ∀ root ∈ settings.templates.toList ++ settings.programs, ¬Path.NamesScheme root)
    {notice : Notice} : notice ∈ preloaded files settings ↔
      ∃ file ∈ Discovery.workspaceFiles settings files, ∃ text, files.file? file.route = some text ∧
        Uri.isReference (fileUri file.route) = true ∧ notice = .written (fileUri file.route) text := by
  rw [preloaded, List.mem_filterMap]
  refine exists_congr fun file => and_congr_right fun hmem => ?_
  rw [noticeOf?_eq htree hroots hmem, Option.bind_eq_some_iff]
  refine exists_congr fun text => and_congr_right fun _ => ?_
  rw [Option.ite_none_right_eq_some, Option.some.injEq]
  exact and_congr_right fun _ => eq_comm

theorem languageOf?_of_mem_files (htree : files.WellFormed) {file : Discovery.Found}
    (hmem : file ∈ Discovery.workspaceFiles settings files) :
    settings.languageOf? (fileUri file.route) = some file.language :=
  languageOf?_fileUri ((Discovery.mem_files_iff htree).mp hmem).2.1

/-- The documents after the files have been read are those files that have valid addresses. -/
theorem latestText?_preloaded_iff (htree : files.WellFormed)
    (hroots : ∀ root ∈ settings.templates.toList ++ settings.programs, ¬Path.NamesScheme root) :
    latestText? settings uri (preloaded files settings) = some text ↔
      ∃ file ∈ Discovery.workspaceFiles settings files, uri = fileUri file.route ∧
        files.file? file.route = some text ∧ Uri.isReference uri = true := by
  rw [latestText?_eq_some_iff, mem_preloaded_iff htree hroots]
  · refine exists_congr fun file => and_congr_right fun _ => ?_
    constructor
    · rintro ⟨other, htext, hreference, hnotice⟩
      obtain ⟨rfl, rfl⟩ := Notice.written.inj hnotice
      exact ⟨rfl, htext, hreference⟩
    · rintro ⟨rfl, htext, hreference⟩
      exact ⟨text, htext, hreference, rfl⟩
  · intro notice hnotice
    obtain ⟨file, hmem, text, _, _, rfl⟩ := (mem_preloaded_iff htree hroots).mp hnotice
    exact ⟨_, _, rfl, Option.isSome_iff_exists.mpr ⟨_, languageOf?_of_mem_files htree hmem⟩⟩
  · -- An address leads back to its route, so it is written with the text of one file only.
    intro uri text other hfirst hsecond
    obtain ⟨file, hmem, _, htext, _, hnotice⟩ := (mem_preloaded_iff htree hroots).mp hfirst
    obtain ⟨file', hmem', _, htext', _, hnotice'⟩ := (mem_preloaded_iff htree hroots).mp hsecond
    obtain ⟨rfl, rfl⟩ := Notice.written.inj hnotice
    obtain ⟨hsame, rfl⟩ := Notice.written.inj hnotice'
    rw [eq_of_fileUri (Route.proper_of_isName (Discovery.isName_of_mem_files htree hmem))
      (Route.proper_of_isName (Discovery.isName_of_mem_files htree hmem')) hsame, htext'] at htext
    exact (Option.some.inj htext).symm

/-- A server that follows its notices stores the latest texts. -/
theorem State.Follows.stores_iff {arrangement : Arrangement} {notices : List Notice} {state : State}
    (hfollows : Follows files settings arrangement (.ofNotices settings notices) state) :
    state.Stores uri text ↔ latestText? settings uri notices = some text := by
  rw [State.Stores, Shelf.mem_stored_iff hfollows.holds, Shelf.get?_ofNotices]

/-- A text that is stored is read as what its address says that it is. -/
theorem content_of_stores {messages : List Message} {arrangement : Arrangement} {language : Language}
    (hlanguage : settings.languageOf? uri = some language) {document : Document}
    (hmem : document ∈ (State.listening files settings messages arrangement).workspace.corpus.stored)
    (huri : document.filename = uri) (htext : document.source.text = text) :
    document.content = .ofSource language { name := uri, text } := by
  have hfollows := State.Follows.listening files settings messages arrangement
  have hupload : document.upload ∈ (Shelf.ofNotices settings (noticesOf files settings messages)).uploads :=
    hfollows.holds.coherent.uploads ▸ List.mem_map_of_mem hmem
  obtain ⟨entry, _, hsame⟩ := List.mem_map.mp hupload
  obtain ⟨_, hname, _, hextension⟩ := Upload.mk.inj hsame
  have hdocument : document.extension = (Path.extension? uri).getD "" := by
    rw [← huri, ← show entry.1 = document.filename from hname]
    exact hextension.symm
  rw [hfollows.holds.coherent.content document hmem, hdocument,
    Settings.ofExtension_of_languageOf? hlanguage, ← huri, ← htext]
  rfl

/-- A stored program is one that templates can use the variables of. -/
theorem not_reports_of_declares {messages : List Message} {arrangement : Arrangement}
    {program : Document}
    (hprogram : program ∈ (State.listening files settings messages arrangement).workspace.corpus.stored)
    {template : Document}
    (htemplate : template ∈ (State.listening files settings messages arrangement).workspace.corpus.stored)
    {outline : Template.Outline} (hcontent : template.content = .template outline)
    {reference : Template.Reference} (hreference : reference ∈ outline.references)
    (hdeclares : program.content.Declares reference.text settings.language) :
    ¬Workspace.Reports ((State.listening files settings messages arrangement).undefined template.filename)
      reference := by
  have hfollows := State.Follows.listening files settings messages arrangement
  have hnamed : (State.listening files settings messages arrangement).workspace.corpus.documentNamed?
      template.filename = some template :=
    hfollows.holds.coherent.documentNamed?_eq_some_iff.mpr ⟨htemplate, rfl⟩
  obtain ⟨identifiers, hidentifiers, hreports, _⟩ :=
    hfollows.holds.agrees.undefined _ template outline hnamed hcontent
  rw [State.undefined, hidentifiers, Option.getD_some, hreports reference hreference]
  rintro ⟨_, hnone, _⟩
  exact Document.declarations_eq_nil_iff.mp (hnone program hprogram) hdeclares

end Preloaded

/-- What a server makes of the files of its workspace before a client has written anything. -/
structure Preloads (files : FileTree) (settings : Settings) (arrangement : Arrangement) : Prop where
  /-- Each file that is found can be read, and it becomes a document under its address if that is a
      valid one. -/
  complete : ∀ file ∈ Discovery.workspaceFiles settings files, ∃ text,
    files.file? file.route = some text ∧
      ((State.start files settings arrangement).Stores (fileUri file.route) text ↔
        Uri.isReference (fileUri file.route) = true)
  /-- There are no other documents. -/
  only : ∀ uri text, (State.start files settings arrangement).Stores uri text →
    ∃ file ∈ Discovery.workspaceFiles settings files, uri = fileUri file.route ∧
      files.file? file.route = some text
  /-- An address is valid if all characters of the path can stand in a path of an address as they
      are. -/
  plain : ∀ file ∈ Discovery.workspaceFiles settings files,
    (∀ name ∈ file.route, ∀ c ∈ name.toList, Uri.isPathCharacter c = true) →
      Uri.isReference (fileUri file.route) = true
  /-- It is not if one of them cannot stand in an address at all. -/
  foreign : ∀ file ∈ Discovery.workspaceFiles settings files, ∀ name ∈ file.route, ∀ c ∈ name.toList,
    Uri.isFileCharacter c = false → Uri.isReference (fileUri file.route) = false
  /-- The document stays as long as no notice concerns its address. -/
  lasting : ∀ file ∈ Discovery.workspaceFiles settings files, ∀ text,
    (State.start files settings arrangement).Stores (fileUri file.route) text →
      ∀ messages : List Message,
        (∀ notice ∈ messages.filterMap Message.notice?, ¬notice.Concerns (fileUri file.route)) →
          (State.listening files settings messages arrangement).Stores (fileUri file.route) text
  /-- As long as it is there, no template reports a variable that it declares as undefined. -/
  declared : ∀ file ∈ Discovery.workspaceFiles settings files, ∀ text messages,
    (State.listening files settings messages arrangement).Stores (fileUri file.route) text →
      ∀ template ∈ (State.listening files settings messages arrangement).workspace.corpus.stored,
        ∀ outline, template.content = .template outline → ∀ reference ∈ outline.references,
          (Content.ofSource file.language { name := fileUri file.route, text }).Declares reference.text
              settings.language →
            ¬Workspace.Reports
              ((State.listening files settings messages arrangement).undefined template.filename) reference
  /-- As long as it is there, a name that its address ends in means a template, if it is one. -/
  named : ∀ file ∈ Discovery.workspaceFiles settings files, file.language = .template →
    ∀ text messages,
      (State.listening files settings messages arrangement).Stores (fileUri file.route) text →
        ∀ name, Cursor.matchesTemplate name (fileUri file.route) = true →
          (Cursor.findTemplate? (State.listening files settings messages arrangement).workspace.corpus
            name).isSome = true

/-- At the beginning a server reads all files of its workspace whose addresses are valid, and templates
    use them from then on. -/
theorem start_preloads {files : FileTree} {settings : Settings} (arrangement : Arrangement)
    (htree : files.WellFormed)
    (hroots : ∀ root ∈ settings.templates.toList ++ settings.programs, ¬Path.NamesScheme root) :
    Preloads files settings arrangement := by
  have hstart := State.Follows.start files settings arrangement
  have hlistening := fun messages => State.Follows.listening files settings messages arrangement
  refine
    { complete := fun file hmem => ?_
      only := fun uri text hstores => ?_
      plain := fun file _ hplain => isReference_fileUri hplain
      foreign := fun file _ name hname c hc hforeign => ?_
      lasting := fun file hmem text hstores messages hother => ?_
      declared := fun file hmem text messages hstores template htemplate outline hcontent reference
        hreference hdeclares => ?_
      named := fun file hmem hlanguage text messages hstores name hname => ?_ }
  · obtain ⟨text, htext⟩ := Discovery.exists_text_of_mem_files htree hmem
    refine ⟨text, htext, ?_⟩
    rw [hstart.stores_iff, latestText?_preloaded_iff htree hroots]
    refine ⟨?_, fun hreference => ⟨file, hmem, rfl, htext, hreference⟩⟩
    rintro ⟨_, _, _, _, hreference⟩
    exact hreference
  · rw [hstart.stores_iff, latestText?_preloaded_iff htree hroots] at hstores
    obtain ⟨file, hmem, huri, htext, _⟩ := hstores
    exact ⟨file, hmem, huri, htext⟩
  · rw [← Bool.not_eq_true]
    intro hreference
    rw [isFileCharacter_of_isReference hreference name hname c hc] at hforeign
    cases hforeign
  · rw [hstart.stores_iff] at hstores
    rw [(hlistening messages).stores_iff, noticesOf, latestText?_append_of_not_concerns hother, hstores]
  · obtain ⟨program, hprogram, huri, htext⟩ := hstores
    rw [← content_of_stores (languageOf?_of_mem_files htree hmem) hprogram huri htext] at hdeclares
    exact not_reports_of_declares hprogram htemplate hcontent hreference hdeclares
  · obtain ⟨document, hdocument, huri, htext⟩ := hstores
    have hcontent := content_of_stores (languageOf?_of_mem_files htree hmem) hdocument huri htext
    rw [hlanguage] at hcontent
    refine Cursor.isSome_findTemplate? hdocument ?_ (huri ▸ hname)
    rw [Document.isTemplate, Document.outline?, hcontent]
    rfl

section Shop

/-- A program that declares a variable. -/
def shopProgram : String := "t.render(user=1)"

/-- A shop with the program in a directory of this name and with a page that reads the variable. -/
def shop (directory : String) : FileTree where
  files := [(["srv", directory, "views.py"], shopProgram),
    (["srv", "pages", "home.html"], "\x7b\x7b user \x7d\x7d")]

/-- The settings for the shop. -/
def shopSettings (directory : String) : Settings :=
  { templates := some "/srv/pages", programs := ["/srv/" ++ directory] }

theorem start_preloads_shop :
    Preloads (shop "app") (shopSettings "app") {} ∧
      (State.start (shop "app") (shopSettings "app")).Stores "file:///srv/app/views.py" shopProgram := by
  have htree : (shop "app").WellFormed := by decide +kernel
  have hroots : ∀ root ∈ (shopSettings "app").templates.toList ++ (shopSettings "app").programs,
      ¬Path.NamesScheme root := by decide +kernel
  have hpreloads := start_preloads {} htree hroots
  refine ⟨hpreloads, ?_⟩
  have hmem : ⟨["srv", "app", "views.py"], "/srv/app/views.py", .host .python⟩ ∈
      Discovery.workspaceFiles (shopSettings "app") (shop "app") := by
    rw [Discovery.workspaceFiles, Discovery.files, List.mem_mergeSort]
    decide +kernel
  obtain ⟨text, htext, hstores⟩ := hpreloads.complete _ hmem
  obtain rfl : shopProgram = text := by
    rw [← Option.some.injEq, ← htext]
    decide +kernel
  exact hstores.mpr (by decide +kernel)

/-- A blank in the name of a directory keeps the program out, and the page is said to read an undefined
    variable. -/
theorem preload_leaves_out :
    let files := shop "my app"
    let settings := shopSettings "my app"
    (∃ file ∈ Discovery.workspaceFiles settings files, files.file? file.route = some shopProgram ∧
        ∀ uri, ¬(State.start files settings).Stores uri shopProgram) ∧
      ((State.start files settings).undefined "file:///srv/pages/home.html").map (·.name) = ["user"] := by
  intro files settings
  let program : Discovery.Found :=
    ⟨["srv", "my app", "views.py"], "/srv/my app/views.py", .host .python⟩
  let page : Discovery.Found := ⟨["srv", "pages", "home.html"], "/srv/pages/home.html", .template⟩
  have hfound : distinctBy Discovery.Found.route
      ((settings.templates.toList ++ settings.programs).flatMap (Discovery.findIn settings files)) =
        [page] ++ [program] := by
    decide +kernel
  have hfiles : Discovery.workspaceFiles settings files = [program, page] := by
    rw [Discovery.workspaceFiles, Discovery.files, hfound,
      mergeSort_append_swap Discovery.precedes_trans Discovery.precedes_total (by decide +kernel),
      List.mergeSort_singleton, List.mergeSort_singleton]
    rfl
  have hstart : State.start files settings =
      [program, page].foldl State.preloadFile { files, workspace := .ofSettings settings } := by
    rw [State.start, hfiles]
  refine ⟨⟨program, by rw [hfiles]; exact List.mem_cons_self, by decide +kernel, ?_⟩, ?_⟩
  · have htexts : ∀ document ∈ (State.start files settings).workspace.corpus.stored,
        document.source.text ≠ shopProgram := by
      rw [hstart]
      decide +kernel
    rintro uri ⟨document, hmem, _, htext⟩
    exact htexts document hmem htext
  · rw [hstart]
    decide +kernel

end Shop

end Server

end TemplateAnalysis
