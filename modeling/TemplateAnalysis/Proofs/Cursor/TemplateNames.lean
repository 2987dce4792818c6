import TemplateAnalysis.Proofs.Cursor.Completion
import TemplateAnalysis.Proofs.Path
import TemplateAnalysis.Proofs.Sorting
import TemplateAnalysis.Proofs.Workspace.Agreement
import TemplateAnalysis.Proofs.Workspace.Answers

namespace TemplateAnalysis

open Host (DocumentId)

/-- Whether a file name names the file at a path: as an address, or as the path itself. A path that
    looks like an address is one. -/
def IsAt (path filename : String) : Prop :=
  filename = "file://" ++ path ∨ filename = path ∧ ¬ "file://".toList <+: path.toList

/-- Whether a file name is the name of a template, or ends in it behind a slash. -/
def EndsInName (name filename : String) : Prop :=
  filename = name ∨ ("/" ++ name).toList <:+ filename.toList

namespace Cursor

section Names

variable {root filename : String} {names : List String}

/-- The name under which a file below the directory of templates is offered leads down to it. -/
theorem Completion.templateName_eq (hne : names ≠ []) (hnames : ∀ name ∈ names, Path.IsName name)
    (hfilename : IsAt (Path.join root (Path.ofNames names)) filename) :
    Completion.templateName (some root) filename = Path.ofNames names := by
  have hpath : (if "file://".toList.isPrefixOf filename.toList then
      String.ofList (filename.toList.drop "file://".toList.length) else filename) =
        Path.join root (Path.ofNames names) := by
    rcases hfilename with rfl | ⟨rfl, hscheme⟩
    · rw [String.toList_append, if_pos (List.isPrefixOf_iff_prefix.mpr (List.prefix_append _ _)),
        List.drop_left, String.ofList_toList]
    · rw [if_neg (mt List.isPrefixOf_iff_prefix.mp hscheme)]
  simp only [Completion.templateName, hpath, Option.bind_some, Path.relativeTo?_join root hne hnames,
    Option.some_or, Option.getD_some]

/-- The name of a file below a directory ends in the names that lead to it. -/
theorem endsInName_of_isAt (hne : names ≠ []) (hnames : ∀ name ∈ names, Path.IsName name)
    (hfilename : IsAt (Path.join root (Path.ofNames names)) filename) :
    EndsInName (Path.ofNames names) filename := by
  have hscheme : ("/" ++ Path.ofNames names).toList <:+ ("file://" ++ Path.ofNames names).toList := by
    rw [String.toList_append, String.toList_append]
    exact ⟨"file:/".toList, rfl⟩
  by_cases hroot : root = ""
  · rw [hroot, Path.join_empty hne hnames] at hfilename
    rcases hfilename with rfl | ⟨rfl, _⟩
    · exact .inr hscheme
    · exact .inl rfl
  · obtain ⟨directory, hjoin, _⟩ := Path.exists_join hroot hne hnames
    have hbelow : ("/" ++ Path.ofNames names).toList <:+ (Path.join root (Path.ofNames names)).toList := by
      rw [hjoin, String.toList_append]
      exact List.suffix_append _ _
    rcases hfilename with rfl | ⟨rfl, _⟩
    · refine .inr (hbelow.trans ?_)
      rw [String.toList_append]
      exact List.suffix_append _ _
    · exact .inr hbelow

theorem matchesTemplate_iff (hne : names ≠ []) (hnames : ∀ name ∈ names, Path.IsName name) :
    matchesTemplate (Path.ofNames names) filename = true ↔ EndsInName (Path.ofNames names) filename := by
  obtain ⟨c, rest, hchars, hslash⟩ := Path.exists_first hne hnames
  have htrimmed : (Path.ofNames names).toList.dropWhile (· == '/') = (Path.ofNames names).toList := by
    rw [hchars, List.dropWhile_cons_of_neg (by simpa using hslash)]
  rw [matchesTemplate, htrimmed, EndsInName, Bool.or_eq_true, beq_iff_eq, List.isSuffixOf_iff_suffix,
    String.toList_append]
  rfl

end Names

section Completion

/-- The place of a string in which a template is named: the tag around it begins with a word whose strings
    are names of templates, and the offset lies in the string. -/
def NamesTemplateAt (tokens : List Template.Token) (offset : Nat) : Prop :=
  ∃ before opening word between string after,
    tokens = before ++ opening :: word :: (between ++ string :: after) ∧
      opening.kind.isTagBegin = true ∧ Completion.namesTemplates word.kind = true ∧
      (∀ token ∈ between, token.kind.isTagBegin = false) ∧
      string.kind = .string ∧ Completion.isInside string offset = true

/-- Whether the name of a template is completed at a position of a document: within a string of a tag that
    names templates, or at the name of a template in a program. -/
def CompletesTemplate (document : Document) (position : Position) : Prop :=
  ∃ offset, document.source.offsetAt position = some offset ∧
    match document.content with
    | .template outline => NamesTemplateAt outline.tokens offset
    | .program _ identifiers => ∃ identifier ∈ identifiers,
        identifier.kind = .templateRef ∧ identifier.range.touches position = true

namespace Completion

theorem tagHead?_between {opening word string : Template.Token} {between earlier : List Template.Token}
    (hopening : opening.kind.isTagBegin = true) (hword : word.kind.isTagBegin = false)
    (hbetween : ∀ token ∈ between, token.kind.isTagBegin = false) :
    tagHead? string (between ++ word :: opening :: earlier) = some word.kind := by
  induction between generalizing string with
  | nil => simp [tagHead?, hopening, hword]
  | cons token rest ih =>
    obtain ⟨htoken, hrest⟩ := List.forall_mem_cons.mp hbetween
    rw [List.cons_append, tagHead?, htoken, if_neg Bool.false_ne_true, ih hrest]

/-- In a string that names a template, all other templates are offered. -/
theorem inTemplate_name (workspace : Workspace) {document : Document} {outline : Template.Outline}
    {text : List Char} {offset : Nat} (position : Position) (htokens : outline.tokens = Template.tokenize text)
    (hnames : NamesTemplateAt outline.tokens offset) :
    ∃ edit, inTemplate workspace document outline offset position
      (outline.tokens.filter fun token =>
        token.kind != .endOfFile && decide (token.start.offset < offset)).reverse =
      some (templates workspace document edit) := by
  obtain ⟨before, opening, word, between, string, after, hsplit, hopening, hword, hbetween, hstring,
    hinside⟩ := hnames
  have hstart : string.start.offset < offset := by
    simp only [isInside, Bool.and_eq_true, decide_eq_true_eq] at hinside
    exact hinside.1
  have hstop : offset ≤ string.stop.offset := by
    simp only [isInside, Bool.and_eq_true, Bool.or_eq_true, decide_eq_true_eq] at hinside
    rcases hinside.2 with hlt | ⟨_, hle⟩
    · exact hlt.le
    · exact hle
  have hread : Template.tokenize text = (before ++ opening :: word :: between) ++ string :: after := by
    rw [← htokens, hsplit]
    simp
  have hkind : word.kind.isTagBegin = false := by
    cases hkind : word.kind <;> simp_all [namesTemplates, Template.TokenKind.isTagBegin]
  have hhead : tagHead? string (between.reverse ++ word :: opening :: before.reverse) = some word.kind :=
    tagHead?_between hopening hkind fun token hmem => hbetween token (List.mem_reverse.mp hmem)
  have hearlier : (before ++ opening :: word :: between).reverse =
      between.reverse ++ word :: opening :: before.reverse := by simp
  rw [htokens, Template.filter_before hread (by simp [hstring]) hstart hstop, List.reverse_append,
    List.reverse_singleton, List.singleton_append, hearlier]
  simp only [inTemplate, hstring, hinside, and_self, if_pos, inString, hhead, Option.any_some, hword]
  exact ⟨_, rfl⟩

/-- Wherever the name of a template is completed, all other templates are offered. -/
theorem at?_completesTemplate (workspace : Workspace) {document : Document} {position : Position}
    (hread : ∀ outline, document.content = .template outline → outline = .ofSource document.source)
    (hcompletes : CompletesTemplate document position) :
    ∃ edit, at? workspace document position = some (templates workspace document edit) := by
  obtain ⟨offset, hoffset, hcontent⟩ := hcompletes
  rw [at?, hoffset, Option.bind_some]
  cases hdocument : document.content with
  | template outline =>
    rw [hdocument] at hcontent
    have htokens : outline.tokens = Template.tokenize document.source.chars := by
      rw [hread outline hdocument]
      rfl
    exact inTemplate_name workspace position htokens hcontent
  | program language identifiers =>
    rw [hdocument] at hcontent
    obtain ⟨identifier, hmem, hkind, htouches⟩ := hcontent
    have hfound : (identifiers.find? fun identifier =>
        identifier.kind == .templateRef && identifier.range.touches position).isSome = true := by
      rw [List.find?_isSome]
      exact ⟨identifier, hmem, by simp [hkind, htouches]⟩
    obtain ⟨found, hfound⟩ := Option.isSome_iff_exists.mp hfound
    simp only [inProgram, hfound, Option.map_some]
    exact ⟨_, rfl⟩

theorem mem_labels_templates {workspace : Workspace} {current template : Document} (edit : Edit)
    (hmem : template ∈ workspace.corpus.stored) (htemplate : template.isTemplate = true)
    (hother : template.id ≠ current.id) :
    templateName workspace.settings.templates template.filename ∈
      (templates workspace current edit).map (·.label) := by
  have hlabels : (templates workspace current edit).map (·.label) = sortNames
      ((workspace.corpus.listed.filter fun document =>
        document.isTemplate && document.id != current.id).map fun document =>
          templateName workspace.settings.templates document.filename) := by
    rw [templates, List.map_map]
    exact (List.map_congr_left fun label _ => label_withEdit _).trans (List.map_id _)
  rw [hlabels, sortNames, mem_distinctBy_id, List.mem_mergeSort]
  exact List.mem_map_of_mem (List.mem_filter.mpr
    ⟨Corpus.mem_listed.mpr hmem, by simp [htemplate, hother]⟩)

end Completion

end Completion

/-- The template that a name refers to is one whose name ends in it, and none of these has a shorter
    name. -/
theorem exists_findTemplate? {workspace : Workspace} {names : List String} {template : Document}
    (hne : names ≠ []) (hnames : ∀ name ∈ names, Path.IsName name)
    (hmem : template ∈ workspace.corpus.stored) (htemplate : template.isTemplate = true)
    (hends : EndsInName (Path.ofNames names) template.filename) :
    ∃ found ∈ workspace.corpus.stored, found.isTemplate = true ∧
      EndsInName (Path.ofNames names) found.filename ∧
      (∀ other ∈ workspace.corpus.stored, other.isTemplate = true →
        EndsInName (Path.ofNames names) other.filename → nameLength found.filename ≤ nameLength other.filename) ∧
      findTemplate? workspace.corpus (Path.ofNames names) = some found := by
  let named := workspace.corpus.listed.filter fun document =>
    document.isTemplate && matchesTemplate (Path.ofNames names) document.filename
  have hnamed : ∀ document, document ∈ named ↔ document ∈ workspace.corpus.stored ∧
      document.isTemplate = true ∧ EndsInName (Path.ofNames names) document.filename := by
    intro document
    rw [List.mem_filter, Corpus.mem_listed, Bool.and_eq_true, matchesTemplate_iff hne hnames]
  obtain ⟨found, hfound⟩ := Option.isSome_iff_exists.mp
    (isSome_findTemplate? hmem htemplate ((matchesTemplate_iff hne hnames).mpr hends))
  obtain ⟨hfoundMem, hshortest⟩ := shortestName_spec hfound
  obtain ⟨hstored, hisTemplate, hfoundEnds⟩ := (hnamed found).mp hfoundMem
  exact ⟨found, hstored, hisTemplate, hfoundEnds, fun other hother hotherTemplate hotherEnds =>
    hshortest other ((hnamed other).mpr ⟨hother, hotherTemplate, hotherEnds⟩), hfound⟩

end Cursor

namespace Workspace

open Cursor

/-- Completing the name of a template and jumping to it agree as far as names are unambiguous. The name under
    which a template below the directory of templates is offered finds, wherever else a template is named, the
    open template whose own name is the shortest one that ends in it. -/
theorem templateName_agrees (settings : Settings) (hints : LinkHints) (operations : List Operation)
    (arrangement : Arrangement) {root : String} {names : List String} {template : Document}
    (hroot : settings.templates = some root)
    (hmem : template ∈ (after settings hints operations arrangement).corpus.stored)
    (htemplate : template.isTemplate = true) (hne : names ≠ [])
    (hnames : ∀ name ∈ names, Path.IsName name)
    (hfilename : IsAt (Path.join root (Path.ofNames names)) template.filename) :
    let workspace := after settings hints operations arrangement
    let name := Path.ofNames names
    (∀ id filename document position, workspace.corpus.find? id filename = some document →
      document.id ≠ template.id → CompletesTemplate document position →
      ∃ items, workspace.complete? id filename position = some items ∧ name ∈ items.map (·.label)) ∧
    ∃ found ∈ workspace.corpus.stored, found.isTemplate = true ∧ EndsInName name found.filename ∧
      (∀ other ∈ workspace.corpus.stored, other.isTemplate = true → EndsInName name other.filename →
        nameLength found.filename ≤ nameLength other.filename) ∧
      ((∀ other ∈ workspace.corpus.stored, other ≠ template → other.isTemplate = true →
        EndsInName name other.filename → nameLength template.filename < nameLength other.filename) →
        found = template) ∧
      findTemplate? workspace.corpus name = some found ∧
      ∀ id filename document position identifier, workspace.corpus.find? id filename = some document →
        Target.at? document (workspace.corpus.resolve document) position = some (.identifier identifier) →
        identifier.kind = .templateRef → identifier.name = name →
        (workspace.hover? id filename position).1 = some
          { value := Hover.paragraph identifier.kind.detail name ("open as `" ++ found.filename ++ "`")
            range := identifier.range, label := identifier.kind.detail } ∧
        (workspace.declarations? id filename position).1 =
          some [{ uri := found.filename, range := {}, isHost := false, name }] := by
  intro workspace name
  have hholds : Holds settings hints (survivors operations) workspace :=
    .after settings hints operations arrangement
  have hends := endsInName_of_isAt hne hnames hfilename
  obtain ⟨found, hfoundMem, hfoundTemplate, hfoundEnds, hshortest, hfound⟩ :=
    exists_findTemplate? hne hnames hmem htemplate hends
  refine ⟨fun id filename document position hfind hother hcompletes => ?_, found, hfoundMem, hfoundTemplate,
    hfoundEnds, hshortest, fun hlonger => ?_, hfound, fun id filename document position identifier hfind htarget
    hkind hname => ?_⟩
  · have hread : ∀ outline, document.content = .template outline → outline = .ofSource document.source :=
      fun _ => hholds.outline_eq (hholds.mem_stored_of_find? hfind)
    obtain ⟨edit, hat⟩ := Completion.at?_completesTemplate workspace hread hcompletes
    refine ⟨_, by rw [complete?, hfind, Option.bind_some, hat], ?_⟩
    have hlabel := Completion.mem_labels_templates edit hmem htemplate hother.symm
    rwa [hholds.settings, hroot, Completion.templateName_eq hne hnames hfilename] at hlabel
  · by_contra hne
    exact absurd (hshortest template hmem htemplate hends)
      (Nat.not_le_of_lt (hlonger found hfoundMem hne hfoundTemplate hfoundEnds))
  · have hstored : ∀ document, workspace.corpus.find? id filename = some document →
        document ∈ workspace.corpus.stored := fun _ => hholds.mem_stored_of_find?
    have hhover := (hholds.ask hstored (Hover.at? workspace · · position)).1
    have hjump := (hholds.ask hstored (Location.at? workspace · · position)).1
    constructor
    · rw [hover?, hhover, hfind, Option.bind_some, Hover.at?, htarget, Option.map_some]
      simp only [Hover.ofIdentifier, hkind, hname, workspace, name, hfound]
    · rw [declarations?, hjump, hfind, Option.bind_some, Location.at?, htarget, Option.map_some]
      simp only [Location.ofIdentifier, Location.ofTemplate, hkind, hname, workspace, name, hfound,
        Option.toList_some, List.map_cons, List.map_nil]

/-- Settings with a directory of templates. -/
def templateSettings : Settings := { templates := some "/srv/templates" }

/-- A template below the directory of templates, and a page that extends it. -/
def layoutUploads : List Operation :=
  [.add { id := 1, filename := "file:///srv/templates/mail/base.html", text := "", extension := "html" },
    .add { id := 2, filename := "/srv/page.html", text := "\x7b% extends \"mail/base.html\" %\x7d"
           extension := "html" }]

/-- In the page, the layout is offered by the names that lead to it, and this name leads back to it. -/
theorem layout_agrees :
    let workspace := after templateSettings {} layoutUploads
    (∃ items, workspace.complete? 2 "/srv/page.html" { line := 0, character := 15 } = some items ∧
      "mail/base.html" ∈ items.map (·.label)) ∧
    (workspace.declarations? 2 "/srv/page.html" { line := 0, character := 15 }).1 =
      some [{ uri := "file:///srv/templates/mail/base.html", range := {}, isHost := false
              name := "mail/base.html" }] := by
  intro workspace
  let source : Source := { name := "/srv/page.html", text := "\x7b% extends \"mail/base.html\" %\x7d" }
  let tokens := (Template.Outline.ofSource source).tokens
  let extended : Identifier :=
    { range := { start := { line := 0, character := 12 }, stop := { line := 0, character := 26 } }
      name := "mail/base.html", kind := .templateRef }
  have hholds : Holds templateSettings {} (survivors layoutUploads) workspace := .after _ _ _ _
  obtain ⟨layout, hlayout, hid, hfilename, htemplate⟩ : ∃ document,
      workspace.corpus.find? 1 "" = some document ∧ document.id = 1 ∧
      document.filename = "file:///srv/templates/mail/base.html" ∧ document.isTemplate = true := by
    refine ⟨Option.get (workspace.corpus.find? 1 "") ?_, (Option.some_get _).symm, ?_, ?_, ?_⟩ <;>
      decide +kernel
  obtain ⟨page, hpage, hother, hcontent, hoffset, htarget⟩ : ∃ document,
      workspace.corpus.find? 2 "/srv/page.html" = some document ∧ document.id = 2 ∧
      document.content = .template (.ofSource source) ∧
      document.source.offsetAt { line := 0, character := 15 } = some 15 ∧
      Target.at? document (workspace.corpus.resolve document) { line := 0, character := 15 } =
        some (.identifier extended) := by
    refine ⟨Option.get (workspace.corpus.find? 2 "/srv/page.html") ?_, (Option.some_get _).symm,
      ?_, ?_, ?_, ?_⟩ <;> decide +kernel
  have hcompletes : CompletesTemplate page { line := 0, character := 15 } := by
    refine ⟨15, hoffset, ?_⟩
    rw [hcontent]
    exact ⟨[], tokens.getD 0 default, tokens.getD 1 default, [], tokens.getD 2 default, tokens.drop 3,
      by decide +kernel, by decide +kernel, by decide +kernel, List.forall_mem_nil _, by decide +kernel, by decide +kernel⟩
  have hname : Path.ofNames ["mail", "base.html"] = "mail/base.html" := by decide +kernel
  have hbelow : IsAt (Path.join "/srv/templates" (Path.ofNames ["mail", "base.html"])) layout.filename :=
    .inl (hfilename.trans (by decide +kernel))
  obtain ⟨hoffered, found, -, -, -, -, -, hfound, hasked⟩ := templateName_agrees templateSettings {}
    layoutUploads {} rfl (hholds.mem_stored_of_find? hlayout) htemplate (List.cons_ne_nil "mail" ["base.html"])
    (by decide +kernel) hbelow
  have hplace : (findTemplate? workspace.corpus (Path.ofNames ["mail", "base.html"])).map (·.filename) =
      some "file:///srv/templates/mail/base.html" := by decide +kernel
  rw [hfound, Option.map_some, Option.some_inj] at hplace
  have hdistinct : page.id ≠ layout.id := by
    rw [hother, hid]
    decide
  constructor
  · rw [hname] at hoffered
    exact hoffered 2 "/srv/page.html" page _ hpage hdistinct hcompletes
  · rw [(hasked 2 "/srv/page.html" page _ extended hpage htarget rfl hname.symm).2, hplace, hname]

/-- A template below the directory of templates, and one of the same name with a shorter way to it. -/
def namesakeUploads : List Operation :=
  [.add { id := 1, filename := "/srv/templates/base.html", text := "", extension := "html" },
    .add { id := 2, filename := "/a/base.html", text := "", extension := "html" }]

/-- A template in a directory that is written as an address, as is the directory of templates. -/
def addressUploads : List Operation :=
  [.add { id := 1, filename := "file:///srv/a/base.html", text := "", extension := "html" },
    .add { id := 2, filename := "/page.html", text := "\x7b% extends \"\" %\x7d", extension := "html" }]

/-- The name under which a template is offered need not lead back to it: a template elsewhere whose own name
    is shorter is found instead. Below a directory that is written as an address it is not even offered by the
    names that lead to it. -/
theorem templateName_misses :
    (let workspace := after templateSettings {} namesakeUploads
    (workspace.corpus.stored.find? (·.id == 1)).map (·.filename) =
        some (Path.join "/srv/templates" (Path.ofNames ["base.html"])) ∧
      (findTemplate? workspace.corpus (Path.ofNames ["base.html"])).map (·.id) = some 2) ∧
    (let workspace := after { templates := some "file:///srv" } {} addressUploads
    (workspace.corpus.stored.find? (·.id == 1)).map (·.filename) =
        some (Path.join "file:///srv" (Path.ofNames ["a", "base.html"])) ∧
      (workspace.complete? 2 "/page.html" { line := 0, character := 12 }).map (·.map (·.label)) =
        some ["base.html"]) := by
  refine ⟨⟨?_, ?_⟩, ?_, ?_⟩ <;> decide +kernel

end Workspace

end TemplateAnalysis
