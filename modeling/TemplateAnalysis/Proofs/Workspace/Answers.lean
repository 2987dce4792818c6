import TemplateAnalysis.Proofs.Workspace.Alike

namespace TemplateAnalysis

open Host (DocumentId)

namespace Cursor

namespace Target

/-- The target without numbers of writes. -/
def bare : Target → Target
  | reference resolved => .reference resolved.bare
  | target => target

/-- Targets that agree without numbers of writes are equal, or they are the same reference. -/
theorem eq_or_reference {first second : Target} (hbare : first.bare = second.bare) :
    first = second ∨ ∃ resolved resolved', first = .reference resolved ∧
      second = .reference resolved' ∧ resolved.bare = resolved'.bare := by
  cases first with
  | reference resolved =>
    cases second with
    | reference resolved' => exact .inr ⟨resolved, resolved', rfl, rfl, Target.reference.inj hbare⟩
    | filter name => cases hbare
    | identifier record => cases hbare
  | filter name =>
    cases second with
    | reference resolved => cases hbare
    | filter name' => exact .inl hbare
    | identifier record => cases hbare
  | identifier record =>
    cases second with
    | reference resolved => cases hbare
    | filter name => cases hbare
    | identifier record' => exact .inl hbare

@[simp] theorem range_bare (target : Target) : target.bare.range = target.range := by
  cases target <;> rfl

theorem all_bare (document : Document) (analysis : Analysis) :
    (all document analysis).map bare = all document.bare analysis.bare := by
  simp only [all, List.map_append, List.map_map]
  congr 2
  simp only [Analysis.bare, List.map_map]
  rfl

theorem at?_bare (document : Document) (analysis : Analysis) (position : Position) :
    (at? document analysis position).map bare = at? document.bare analysis.bare position := by
  simp only [at?, ← all_bare, List.find?_map, Option.map_or, Function.comp_def, range_bare]

theorem at?_congr {document document' : Document} {analysis analysis' : Analysis}
    (hdocument : document.bare = document'.bare) (hanalysis : analysis.bare = analysis'.bare)
    (position : Position) :
    (at? document analysis position).map bare = (at? document' analysis' position).map bare := by
  rw [at?_bare, at?_bare, hdocument, hanalysis]

end Target

theorem Hover.ofReference_bare (resolved : ResolvedReference) :
    Hover.ofReference resolved.bare = Hover.ofReference resolved := by
  obtain ⟨reference, resolution⟩ := resolved
  cases resolution <;> rfl

theorem Location.ofReference_bare (workspace : Workspace) (document : Document)
    (resolved : ResolvedReference) :
    Location.ofReference workspace document resolved.bare =
      Location.ofReference workspace document resolved := by
  obtain ⟨reference, resolution⟩ := resolved
  cases resolution <;> rfl

/-- The length of the name of a document, in bytes. -/
def nameLength (filename : String) : Nat :=
  Text.byteLength filename.toList

theorem shortestName_isSome (best : Document) (documents : List Document) :
    (shortestName (some best) documents).isSome = true := by
  induction documents generalizing best with
  | nil => rfl
  | cons document rest ih =>
    rw [shortestName]
    split <;> exact ih _

theorem shortestName_isNone (documents : List Document) :
    (shortestName none documents).isNone = documents.isEmpty := by
  cases documents with
  | nil => rfl
  | cons document rest =>
    rw [shortestName, ← Option.not_isSome, shortestName_isSome]
    rfl

/-- A name that a stored template has or ends in means a template. -/
theorem isSome_findTemplate? {corpus : Corpus} {template : Document} {name : String}
    (hmem : template ∈ corpus.stored) (htemplate : template.isTemplate = true)
    (hmatches : matchesTemplate name template.filename = true) :
    (findTemplate? corpus name).isSome = true := by
  rw [findTemplate?, ← Option.not_isNone, shortestName_isNone, Bool.not_eq_true',
    List.isEmpty_eq_false_iff_exists_mem]
  exact ⟨template, List.mem_filter.mpr ⟨Corpus.mem_listed.mpr hmem, by rw [htemplate, hmatches]; rfl⟩⟩

/-- The document with the shortest name is one of the documents, and no name is shorter. -/
theorem shortestName_spec {best : Option Document} {documents : List Document} {found : Document}
    (hfound : shortestName best documents = some found) :
    found ∈ best.toList ++ documents ∧ ∀ other ∈ best.toList ++ documents,
      nameLength found.filename ≤ nameLength other.filename := by
  induction documents generalizing best with
  | nil =>
    rw [shortestName] at hfound
    subst hfound
    simp
  | cons document rest ih =>
    cases best with
    | none => exact ih hfound
    | some previous =>
      rw [shortestName] at hfound
      simp only at hfound
      split at hfound
      next hshorter =>
        obtain ⟨hmem, hle⟩ := ih hfound
        refine ⟨List.mem_cons_of_mem previous hmem, List.forall_mem_cons.mpr ⟨?_, hle⟩⟩
        exact (hle document List.mem_cons_self).trans (Nat.le_of_lt hshorter)
      next hnot =>
        obtain ⟨hmem, hle⟩ := ih hfound
        obtain ⟨hprevious, hrest⟩ := List.forall_mem_cons.mp hle
        refine ⟨?_, List.forall_mem_cons.mpr ⟨hprevious, List.forall_mem_cons.mpr ⟨?_, hrest⟩⟩⟩
        · rcases List.mem_cons.mp hmem with rfl | hmem
          · exact List.mem_cons_self
          · exact List.mem_cons_of_mem _ (List.mem_cons_of_mem _ hmem)
        · exact hprevious.trans (Nat.le_of_not_lt hnot)

/-- The choice of the shortest name does not look at the numbers of writes. -/
theorem shortestName_bare (best : Option Document) (documents : List Document) :
    (shortestName best documents).map Document.bare =
      shortestName (best.map Document.bare) (documents.map Document.bare) := by
  induction documents generalizing best with
  | nil => rfl
  | cons document rest ih =>
    cases best with
    | none => exact ih _
    | some previous =>
      rw [shortestName, ih]
      simp only [List.map_cons, Option.map_some, shortestName]
      split
      next hshorter => exact congrArg (shortestName · _) (if_pos hshorter).symm
      next hnot => exact congrArg (shortestName · _) (if_neg hnot).symm

end Cursor

namespace Workspace

open Cursor

/-- The name of the template on which the cursor of a query stands, if the answer tells which of the
    open templates it is. -/
def templateAsked? (workspace : Workspace) : Query → Option String
  | .hover id filename position | .declarations id filename position =>
    (workspace.corpus.find? id filename).bind fun document =>
      match Target.at? document (workspace.corpus.resolve document) position with
      | some (.identifier identifier) =>
        if identifier.kind = .templateRef then some identifier.name else none
      | _ => none
  | _ => none

namespace Alike

variable {first second : Workspace} {document document' : Document} {analysis analysis' : Analysis}

theorem ofFilter (halike : Alike first second) (name : Template.Name) :
    Hover.ofFilter first name = Hover.ofFilter second name := by
  unfold Hover.ofFilter
  cases Vocabulary.filterDoc? name.text with
  | some doc => rfl
  | none =>
    have hsame := halike.latest? name.text second.corpus.family
    rw [← halike.family] at hsame ⊢
    cases hfirst : first.corpus.index.latest? name.text first.corpus.family with
    | none =>
      rw [hfirst, Option.map_none, eq_comm, Option.map_eq_none_iff] at hsame
      rw [hsame]
    | some entry =>
      rw [hfirst, Option.map_some, eq_comm, Option.map_eq_some_iff] at hsame
      obtain ⟨other, hsecond, hbare⟩ := hsame
      have hfilename : other.bare.filename = entry.bare.filename := congrArg Host.Entry.filename hbare
      rw [hsecond]
      simp only [show other.filename = entry.filename from hfilename]

theorem ofVariable (halike : Alike first second) (name : String) :
    Location.ofVariable first name = Location.ofVariable second name := by
  have hbare : ∀ entries : List Host.Entry, (entries.map fun entry =>
      ({ uri := entry.filename, range := entry.range, isHost := true, name } : Location)) =
      (entries.map Host.Entry.bare).map fun entry =>
        { uri := entry.filename, range := entry.range, isHost := true, name } := by
    intro entries
    rw [List.map_map]
    rfl
  unfold Location.ofVariable
  rw [hbare, hbare (second.corpus.index.lookup name second.corpus.family), halike.family,
    halike.lookup]

/-- Where both workspaces find the same template, they say the same about an identifier. -/
theorem hoverOfIdentifier (halike : Alike first second) {identifier : Identifier}
    (htemplate : identifier.kind = .templateRef →
      (findTemplate? first.corpus identifier.name).map Document.filename =
        (findTemplate? second.corpus identifier.name).map Document.filename) :
    Hover.ofIdentifier first identifier = Hover.ofIdentifier second identifier := by
  unfold Hover.ofIdentifier
  cases hkind : identifier.kind with
  | templateRef =>
    have hsame := htemplate hkind
    simp only
    cases hfirst : findTemplate? first.corpus identifier.name with
    | none =>
      rw [hfirst, Option.map_none, eq_comm, Option.map_eq_none_iff] at hsame
      rw [hsame]
    | some template =>
      rw [hfirst, Option.map_some, eq_comm, Option.map_eq_some_iff] at hsame
      obtain ⟨other, hsecond, hfilename⟩ := hsame
      rw [hsecond]
      simp only [hfilename]
  | link => rw [halike.hints]
  | _ => rfl

theorem locationsOfIdentifier (halike : Alike first second) {identifier : Identifier}
    (hfilename : document.filename = document'.filename)
    (htemplate : identifier.kind = .templateRef →
      (findTemplate? first.corpus identifier.name).map Document.filename =
        (findTemplate? second.corpus identifier.name).map Document.filename) :
    Location.ofIdentifier first document identifier =
      Location.ofIdentifier second document' identifier := by
  unfold Location.ofIdentifier
  cases hkind : identifier.kind with
  | templateRef =>
    have hsame := htemplate hkind
    simp only [Location.ofTemplate]
    cases hfirst : findTemplate? first.corpus identifier.name with
    | none =>
      rw [hfirst, Option.map_none, eq_comm, Option.map_eq_none_iff] at hsame
      rw [hsame, halike.settings]
    | some template =>
      rw [hfirst, Option.map_some, eq_comm, Option.map_eq_some_iff] at hsame
      obtain ⟨other, hsecond, hother⟩ := hsame
      rw [hsecond]
      simp only [hother]
  | link => rw [halike.hints]
  | _ => simp only [hfilename]

theorem locationsOfReference (halike : Alike first second) {resolved resolved' : ResolvedReference}
    (hfilename : document.filename = document'.filename) (hbare : resolved.bare = resolved'.bare) :
    Location.ofReference first document resolved = Location.ofReference second document' resolved' := by
  rw [← Location.ofReference_bare, hbare, Location.ofReference_bare]
  unfold Location.ofReference
  cases resolved'.resolution with
  | «local» binding => simp only [hfilename]
  | host entry => exact halike.ofVariable _
  | _ => rfl

/-- The hovers at a position agree if both workspaces find the same template there. -/
theorem hoverAt? (halike : Alike first second) (hdocument : document.bare = document'.bare)
    (hanalysis : analysis.bare = analysis'.bare) {position : Position}
    (htemplate : ∀ identifier, Target.at? document analysis position = some (.identifier identifier) →
      identifier.kind = .templateRef →
      (findTemplate? first.corpus identifier.name).map Document.filename =
        (findTemplate? second.corpus identifier.name).map Document.filename) :
    Hover.at? first document analysis position = Hover.at? second document' analysis' position := by
  have hsame := Target.at?_congr hdocument hanalysis position
  unfold Hover.at?
  cases hfirst : Target.at? document analysis position with
  | none =>
    rw [hfirst, Option.map_none, eq_comm, Option.map_eq_none_iff] at hsame
    rw [hsame]
    rfl
  | some target =>
    rw [hfirst, Option.map_some, eq_comm, Option.map_eq_some_iff] at hsame
    obtain ⟨target', hsecond, hbare⟩ := hsame
    rw [hsecond, Option.map_some, Option.map_some, Option.some.injEq]
    rcases Target.eq_or_reference hbare.symm with rfl | ⟨resolved, resolved', rfl, rfl, hresolved⟩
    · cases target with
      | reference resolved => rfl
      | filter name => exact halike.ofFilter name
      | identifier identifier => exact halike.hoverOfIdentifier (htemplate identifier hfirst)
    · simp only
      rw [← Hover.ofReference_bare, hresolved, Hover.ofReference_bare]

/-- The declarations at a position agree if both workspaces find the same template there. -/
theorem locationsAt? (halike : Alike first second) (hdocument : document.bare = document'.bare)
    (hanalysis : analysis.bare = analysis'.bare) {position : Position}
    (htemplate : ∀ identifier, Target.at? document analysis position = some (.identifier identifier) →
      identifier.kind = .templateRef →
      (findTemplate? first.corpus identifier.name).map Document.filename =
        (findTemplate? second.corpus identifier.name).map Document.filename) :
    Location.at? first document analysis position =
      Location.at? second document' analysis' position := by
  have hsame := Target.at?_congr hdocument hanalysis position
  have hfilename := Document.filename_eq_of_bare hdocument
  unfold Location.at?
  cases hfirst : Target.at? document analysis position with
  | none =>
    rw [hfirst, Option.map_none, eq_comm, Option.map_eq_none_iff] at hsame
    rw [hsame]
    rfl
  | some target =>
    rw [hfirst, Option.map_some, eq_comm, Option.map_eq_some_iff] at hsame
    obtain ⟨target', hsecond, hbare⟩ := hsame
    rw [hsecond, Option.map_some, Option.map_some, Option.some.injEq]
    rcases Target.eq_or_reference hbare.symm with rfl | ⟨resolved, resolved', rfl, rfl, hresolved⟩
    · cases target with
      | reference resolved => exact halike.locationsOfReference hfilename rfl
      | filter name => exact halike.ofVariable name.text
      | identifier identifier =>
        exact halike.locationsOfIdentifier hfilename (htemplate identifier hfirst)
    · exact halike.locationsOfReference hfilename hresolved

theorem findTemplate?_isNone (halike : Alike first second) (name : String) :
    (findTemplate? first.corpus name).isNone = (findTemplate? second.corpus name).isNone := by
  have hlength := (halike.map_filter_listed
    (fun document => document.isTemplate && matchesTemplate name document.filename)
    Document.filename (fun _ => rfl) fun _ => rfl).length_eq
  rw [List.length_map, List.length_map] at hlength
  rw [findTemplate?, findTemplate?, shortestName_isNone, shortestName_isNone, Bool.eq_iff_iff,
    List.isEmpty_iff_length_eq_zero, List.isEmpty_iff_length_eq_zero]
  exact Iff.of_eq (congrArg (· = 0) hlength)

theorem missingTemplate? (halike : Alike first second) (hdocument : document.bare = document'.bare)
    (hanalysis : analysis.bare = analysis'.bare) (position : Position) :
    Cursor.missingTemplate? first document analysis position =
      Cursor.missingTemplate? second document' analysis' position := by
  have hsame := Target.at?_congr hdocument hanalysis position
  unfold Cursor.missingTemplate?
  cases hfirst : Target.at? document analysis position with
  | none =>
    rw [hfirst, Option.map_none, eq_comm, Option.map_eq_none_iff] at hsame
    rw [hsame]
  | some target =>
    rw [hfirst, Option.map_some, eq_comm, Option.map_eq_some_iff] at hsame
    obtain ⟨target', hsecond, hbare⟩ := hsame
    rw [hsecond]
    rcases Target.eq_or_reference hbare.symm with rfl | ⟨resolved, resolved', rfl, rfl, _⟩
    · cases target with
      | identifier identifier => simp only [halike.findTemplate?_isNone, halike.settings]
      | _ => rfl
    · rfl

theorem completionIdentifiers (halike : Alike first second) (outline : Template.Outline)
    (position : Position) (edit : Edit) :
    Completion.identifiers first outline position edit =
      Completion.identifiers second outline position edit := by
  have hdeclared : ∀ (item : String → Completion) (itemOf : String × Host.Entry → Completion),
      (∀ entry, itemOf entry = item entry.1) →
      (first.corpus.index.names first.corpus.family).map itemOf =
        (second.corpus.index.names second.corpus.family).map itemOf := by
    intro item itemOf hitem
    obtain rfl : itemOf = item ∘ Prod.fst := funext hitem
    rw [← List.map_map, ← List.map_map, halike.family, halike.names]
  unfold Completion.identifiers
  simp only
  rw [hdeclared fun name =>
    { type := .identifier, label := name, kind := IdentifierKind.hostVariable.completionKind
      description := IdentifierKind.hostVariable.detail }]
  exact fun entry => rfl

theorem completionTemplates (halike : Alike first second) (hid : document.id = document'.id)
    (edit : Edit) :
    Completion.templates first document edit = Completion.templates second document' edit := by
  have hnames := halike.map_filter_listed
    (fun other => other.isTemplate && other.id != document'.id)
    (fun other => Completion.templateName second.settings.templates other.filename)
    (fun _ => rfl) fun _ => rfl
  unfold Completion.templates Completion.sortNames
  simp only
  rw [halike.settings, hid]
  exact congrArg (fun names => (distinctBy id names).map _) (mergeSort_strings_congr hnames)

theorem completionInString (halike : Alike first second) (hid : document.id = document'.id)
    (hsource : document.source = document'.source) (token : Template.Token)
    (earlier : List Template.Token) (offset : Nat) :
    Completion.inString first document token earlier offset =
      Completion.inString second document' token earlier offset := by
  unfold Completion.inString
  simp only [hsource, Completion.links, halike.hints, halike.completionTemplates hid]

theorem completionInTemplate (halike : Alike first second) (hid : document.id = document'.id)
    (hsource : document.source = document'.source) (outline : Template.Outline) (offset : Nat)
    (position : Position) (before : List Template.Token) :
    Completion.inTemplate first document outline offset position before =
      Completion.inTemplate second document' outline offset position before := by
  cases before with
  | nil => rfl
  | cons token earlier =>
    unfold Completion.inTemplate Completion.atWord
    simp only [halike.completionInString hid hsource, halike.completionIdentifiers]

/-- The completions agree. They do not depend on any analysis. -/
theorem completionsAt? (halike : Alike first second) (hdocument : document.bare = document'.bare)
    (position : Position) :
    Completion.at? first document position = Completion.at? second document' position := by
  obtain ⟨hid, hsource, hcontent⟩ := Document.eq_of_bare hdocument
  unfold Completion.at?
  rw [hsource, hcontent]
  refine Option.bind_congr fun offset _ => ?_
  cases document'.content with
  | template outline => exact halike.completionInTemplate hid hsource outline offset position _
  | program language identifiers =>
    simp only [Completion.inProgram, halike.completionTemplates hid]

theorem templateFiles (halike : Alike first second) :
    first.templateFiles = second.templateFiles :=
  mergeSort_strings_congr
    (halike.map_filter_listed (·.isTemplate) (·.filename) (fun _ => rfl) fun _ => rfl)

end Alike

end Workspace

end TemplateAnalysis
