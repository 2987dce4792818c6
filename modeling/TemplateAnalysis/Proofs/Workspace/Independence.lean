import TemplateAnalysis.Proofs.Workspace.Answers

namespace TemplateAnalysis

open Host (DocumentId)
open Cursor

namespace Workspace

/-- The templates among some documents that a name can mean. -/
def templatesNamed (name : String) (uploads : List Upload) : List Upload :=
  uploads.filter fun upload => !upload.isProgram && matchesTemplate name upload.filename

/-- A name means one template: no two of the templates with the shortest name that it matches have
    different names. -/
def Unambiguous (name : String) (uploads : List Upload) : Prop :=
  ∀ first ∈ templatesNamed name uploads, ∀ second ∈ templatesNamed name uploads,
    (∀ other ∈ templatesNamed name uploads, nameLength first.filename ≤ nameLength other.filename) →
    (∀ other ∈ templatesNamed name uploads, nameLength second.filename ≤ nameLength other.filename) →
    first.filename = second.filename

variable {settings : Settings} {hints : LinkHints} {uploads others : List Upload}
  {first second : Workspace}

/-- What is asked about a document has the same answer in two workspaces if it depends on the document
    and its analysis only. -/
theorem Holds.ask_congr {α : Type} (hfirst : Holds settings hints uploads first)
    (hsecond : Holds settings hints others second) {found found' : Option Document}
    (hstored : ∀ document, found = some document → document ∈ first.corpus.stored)
    (hstored' : ∀ document, found' = some document → document ∈ second.corpus.stored)
    (hfound : found.map Document.bare = found'.map Document.bare)
    {answer? answer?' : Document → Analysis → Option α}
    (hanswer : ∀ document document', found = some document → document.bare = document'.bare →
      answer? document (first.corpus.resolve document) =
        answer?' document' (second.corpus.resolve document')) :
    (first.ask found answer?).1 = (second.ask found' answer?').1 := by
  rw [(hfirst.ask hstored answer?).1, (hsecond.ask hstored' answer?').1]
  cases hsome : found with
  | none =>
    rw [hsome, Option.map_none, eq_comm, Option.map_eq_none_iff] at hfound
    rw [hfound]
    rfl
  | some document =>
    rw [hsome, Option.map_some, eq_comm, Option.map_eq_some_iff] at hfound
    obtain ⟨document', hsome', hbare⟩ := hfound
    rw [hsome']
    exact hanswer document document' hsome hbare.symm

namespace Alike

theorem identifiers (halike : Alike first second) {document document' : Document}
    (hbare : document.bare = document'.bare) :
    (first.corpus.resolve document).identifiers = (second.corpus.resolve document').identifiers := by
  have hidentifiers : (first.corpus.resolve document).bare.identifiers =
      (second.corpus.resolve document').bare.identifiers :=
    congrArg Analysis.identifiers (halike.resolve hbare)
  exact hidentifiers

/-- What is asked about the identifiers of a document has the same answer in both workspaces. -/
theorem askIdentifiers (halike : Alike first second) (hfirst : Holds settings hints uploads first)
    (hsecond : Holds settings hints others second) {found found' : Option Document}
    (hstored : ∀ document, found = some document → document ∈ first.corpus.stored)
    (hstored' : ∀ document, found' = some document → document ∈ second.corpus.stored)
    (hfound : found.map Document.bare = found'.map Document.bare) (keep : Identifier → Bool) :
    (first.ask found fun _ analysis => some (analysis.identifiers.filter keep)).1 =
      (second.ask found' fun _ analysis => some (analysis.identifiers.filter keep)).1 :=
  hfirst.ask_congr hsecond hstored hstored' hfound fun _ _ _ hbare =>
    congrArg (fun identifiers => some (identifiers.filter keep)) (halike.identifiers hbare)

/-- The template on which the cursor of a query stands is the one that the query asks for. -/
theorem templateAsked?_eq {query : Query} {id : DocumentId} {filename : String} {position : Position}
    (hquery : query = .hover id filename position ∨ query = .declarations id filename position)
    {document : Document} (hfound : first.corpus.find? id filename = some document)
    {identifier : Identifier} (htarget : Target.at? document (first.corpus.resolve document) position =
      some (.identifier identifier)) (hkind : identifier.kind = .templateRef) :
    first.templateAsked? query = some identifier.name := by
  rcases hquery with rfl | rfl <;>
    simp only [templateAsked?, hfound, Option.bind_some, htarget, hkind, if_pos]

/-- The answers to a query agree if both workspaces find the same template where it asks for one. -/
theorem answer (halike : Alike first second) (hfirst : Holds settings hints uploads first)
    (hsecond : Holds settings hints others second) (query : Query)
    (htemplates : ∀ name, first.templateAsked? query = some name →
      (findTemplate? first.corpus name).map Document.filename =
        (findTemplate? second.corpus name).map Document.filename) :
    (first.answer query).1 = (second.answer query).1 := by
  have hstored : ∀ id filename document, first.corpus.find? id filename = some document →
      document ∈ first.corpus.stored := fun _ _ _ => hfirst.mem_stored_of_find?
  have hstored' : ∀ id filename document, second.corpus.find? id filename = some document →
      document ∈ second.corpus.stored := fun _ _ _ => hsecond.mem_stored_of_find?
  -- A query asks one document, and both workspaces have the same one. Only the template that a name
  -- finds can be another one.
  cases query with
  | identifiersOnLine key line =>
    simp only [Workspace.answer, Holds.identifiersOnLine?_eq_ask]
    exact congrArg Answer.identifiers (halike.askIdentifiers hfirst hsecond
      (fun _ => hfirst.mem_stored_of_documentForKey?) (fun _ => hsecond.mem_stored_of_documentForKey?)
      (halike.documentForKey? key) (·.range.intersectsLine line))
  | hover id filename position =>
    have hhover : (first.hover? id filename position).1 = (second.hover? id filename position).1 := by
      unfold hover?
      refine hfirst.ask_congr hsecond (hstored id filename) (hstored' id filename)
        (halike.find? id filename) fun document document' hfound hbare => ?_
      exact halike.hoverAt? hbare (halike.resolve hbare) fun identifier htarget hkind =>
        htemplates _ (templateAsked?_eq (.inl rfl) hfound htarget hkind)
    exact congrArg Answer.hover hhover
  | completions id filename position =>
    have hsame := halike.find? id filename
    simp only [Workspace.answer, complete?]
    congr 1
    cases hsome : first.corpus.find? id filename with
    | none =>
      rw [hsome, Option.map_none, eq_comm, Option.map_eq_none_iff] at hsame
      rw [hsame]
      rfl
    | some document =>
      rw [hsome, Option.map_some, eq_comm, Option.map_eq_some_iff] at hsame
      obtain ⟨document', hsome', hbare⟩ := hsame
      rw [hsome']
      exact halike.completionsAt? hbare.symm position
  | declarations id filename position =>
    have hdeclarations : (first.declarations? id filename position).1 =
        (second.declarations? id filename position).1 := by
      unfold declarations?
      refine hfirst.ask_congr hsecond (hstored id filename) (hstored' id filename)
        (halike.find? id filename) fun document document' hfound hbare => ?_
      exact halike.locationsAt? hbare (halike.resolve hbare) fun identifier htarget hkind =>
        htemplates _ (templateAsked?_eq (.inr rfl) hfound htarget hkind)
    exact congrArg Answer.declarations hdeclarations
  | missingTemplate id filename position =>
    have hmissing : (first.missingTemplate? id filename position).1 =
        (second.missingTemplate? id filename position).1 := by
      unfold Workspace.missingTemplate?
      exact hfirst.ask_congr hsecond (hstored id filename) (hstored' id filename)
        (halike.find? id filename) fun document document' _ hbare =>
          halike.missingTemplate? hbare (halike.resolve hbare) position
    exact congrArg Answer.missingTemplate hmissing
  | symbols id filename =>
    exact congrArg Answer.identifiers (halike.askIdentifiers hfirst hsecond (hstored id filename)
      (hstored' id filename) (halike.find? id filename) (·.kind != .link))
  | undefined filename =>
    exact congrArg Answer.identifiers (halike.askIdentifiers hfirst hsecond
      (fun _ => hfirst.mem_stored_of_documentNamed?) (fun _ => hsecond.mem_stored_of_documentNamed?)
      (halike.documentNamed? filename) (·.kind == .undefinedVariable))
  | templateFiles => exact congrArg Answer.templateFiles halike.templateFiles

end Alike

/-- The template that is found is one of the uploaded ones, and none of them has a shorter name. -/
theorem Holds.findTemplate?_spec (hholds : Holds settings hints uploads first) {name : String}
    {found : Document} (hfound : findTemplate? first.corpus name = some found) :
    found.upload ∈ templatesNamed name uploads ∧ ∀ other ∈ templatesNamed name uploads,
      nameLength found.filename ≤ nameLength other.filename := by
  have huploads : templatesNamed name uploads = (first.corpus.stored.filter fun document =>
      document.isTemplate && matchesTemplate name document.filename).map Document.upload := by
    rw [templatesNamed, ← hholds.coherent.uploads, List.filter_map]
    congr 1
    refine List.filter_congr fun document hmem => ?_
    have hcontent := hholds.coherent.content document hmem
    simp only [Function.comp_apply, Document.upload_filename, Document.isTemplate, Document.outline?,
      hcontent]
    congr 1
    simp only [Upload.isProgram, Document.upload]
    cases Language.ofExtension document.extension <;> rfl
  have hlisted : ∀ document, document ∈ first.corpus.stored.filter (fun document =>
      document.isTemplate && matchesTemplate name document.filename) ↔
        document ∈ first.corpus.listed.filter fun document =>
          document.isTemplate && matchesTemplate name document.filename := fun document =>
    (first.corpus.listed_perm.symm.filter _).mem_iff
  obtain ⟨hmem, hle⟩ := shortestName_spec hfound
  rw [huploads]
  refine ⟨List.mem_map_of_mem ((hlisted found).mpr hmem), ?_⟩
  rw [List.forall_mem_map]
  exact fun other hother => hle other ((hlisted other).mp hother)

/-- If a name means one template, all workspaces that hold the same documents find it. -/
theorem Alike.findTemplate?_filename (halike : Alike first second)
    (hfirst : Holds settings hints uploads first) (hsecond : Holds settings hints others second)
    (hperm : uploads.Perm others) {name : String} (hunambiguous : Unambiguous name uploads) :
    (findTemplate? first.corpus name).map Document.filename =
      (findTemplate? second.corpus name).map Document.filename := by
  have hnone := halike.findTemplate?_isNone name
  have hsame : ∀ upload, upload ∈ templatesNamed name others ↔ upload ∈ templatesNamed name uploads :=
    fun upload => (hperm.symm.filter _).mem_iff
  cases hfound : findTemplate? first.corpus name with
  | none =>
    rw [hfound, Option.isNone_none, eq_comm, Option.isNone_iff_eq_none] at hnone
    rw [hnone]
  | some found =>
    cases hother : findTemplate? second.corpus name with
    | none =>
      rw [hfound, hother] at hnone
      cases hnone
    | some other =>
      obtain ⟨hmem, hle⟩ := hfirst.findTemplate?_spec hfound
      obtain ⟨hmem', hle'⟩ := hsecond.findTemplate?_spec hother
      rw [Option.map_some, Option.map_some, Option.some.injEq]
      exact hunambiguous _ hmem _ ((hsame _).mp hmem') hle
        fun upload hupload => hle' upload ((hsame upload).mpr hupload)

/-- Workspaces that hold the same documents and give them in the same order find the same templates. -/
theorem Holds.findTemplate?_filename (hfirst : Holds settings hints uploads first)
    (hsecond : Holds settings hints uploads second)
    (hcurrent : first.corpus.current = second.corpus.current) (name : String) :
    (findTemplate? first.corpus name).map Document.filename =
      (findTemplate? second.corpus name).map Document.filename := by
  have hbare : ∀ corpus : Corpus, (findTemplate? corpus name).map Document.filename =
      (shortestName none ((corpus.listed.map Document.bare).filter fun document =>
        document.isTemplate && matchesTemplate name document.filename)).map Document.filename := by
    intro corpus
    have hfilter : (corpus.listed.map Document.bare).filter (fun document =>
        document.isTemplate && matchesTemplate name document.filename) =
        (corpus.listed.filter fun document =>
          document.isTemplate && matchesTemplate name document.filename).map Document.bare := by
      rw [List.filter_map]
      rfl
    rw [hfilter, ← Option.map_none, ← shortestName_bare, Option.map_map]
    rfl
  rw [hbare, hbare, hfirst.coherent.listed_congr hsecond.coherent
    (Alike.of_holds hfirst hsecond (.refl _) rfl).document? hcurrent]

/-- Workspaces that hold the same documents answer alike if they give them in the same order, or if the
    name of a template that is asked for means one of them. -/
theorem Holds.answer_congr (hfirst : Holds settings hints uploads first)
    (hsecond : Holds settings hints uploads second) {query : Query}
    (hsame : first.corpus.current = second.corpus.current ∨
      ∀ name, first.templateAsked? query = some name → Unambiguous name uploads) :
    (first.answer query).1 = (second.answer query).1 := by
  have halike := Alike.of_holds hfirst hsecond (.refl _) rfl
  refine halike.answer hfirst hsecond query fun name hasked => ?_
  rcases hsame with hcurrent | hunambiguous
  · exact hfirst.findTemplate?_filename hsecond hcurrent name
  · exact halike.findTemplate?_filename hfirst hsecond (.refl _) (hunambiguous name hasked)

/-- Of two templates whose names are equally long the one that comes first is found. -/
example :
    let written : List Operation := [
      .add { id := 1, filename := "/a/base.html", text := "", extension := "html" },
      .add { id := 2, filename := "/b/base.html", text := "", extension := "html" }]
    (findTemplate? (after {} {} written).corpus "base.html").map (·.filename) = some "/a/base.html" ∧
      (findTemplate? (after {} {} written .reversed).corpus "base.html").map (·.filename) =
        some "/b/base.html" := by
  decide +kernel

end Workspace

theorem Upload.replaces_comm (first second : Upload) : first.replaces second = second.replaces first := by
  simp only [replaces, Bool.beq_comm]

/-- No two of the documents that survive have the same number or the same name. -/
theorem survivors_pairwise (operations : List Operation) :
    (survivors operations).Pairwise fun first second => second.replaces first = false := by
  have hstep : ∀ uploads : List Upload, (uploads.Pairwise fun first second =>
      second.replaces first = false) → ∀ operation, (survive uploads operation).Pairwise
        fun first second => second.replaces first = false := by
    intro uploads happart operation
    cases operation with
    | add upload =>
      refine List.pairwise_append.mpr ⟨happart.filter _, List.pairwise_singleton _ _, ?_⟩
      intro other hother last hlast
      obtain rfl := List.mem_singleton.mp hlast
      simpa using (List.mem_filter.mp hother).2
    | erase filename => exact happart.filter _
    | ask query => exact happart
  exact List.foldlRecOn operations survive List.Pairwise.nil fun uploads happart operation _ =>
    hstep uploads happart operation

/-- Documents that do not take each other's place all survive when each is written once. -/
theorem survivors_map_add {order : List Upload}
    (happart : order.Pairwise fun first second => second.replaces first = false) :
    survivors (order.map .add) = order := by
  have hfoldl : ∀ (earlier later : List Upload),
      ((earlier ++ later).Pairwise fun first second => second.replaces first = false) →
      (later.map Operation.add).foldl survive earlier = earlier ++ later := by
    intro earlier later happart
    induction later generalizing earlier with
    | nil => exact (List.append_nil earlier).symm
    | cons upload rest ih =>
      have hkept : survive earlier (.add upload) = earlier ++ [upload] := by
        rw [survive, List.filter_eq_self.mpr]
        intro other hother
        rw [(List.pairwise_append.mp happart).2.2 other hother upload List.mem_cons_self]
        rfl
      rw [List.append_cons] at happart
      rw [List.map_cons, List.foldl_cons, hkept, ih _ happart, ← List.append_cons]
  exact hfoldl [] order happart

/-- Queries have no part in how many documents are written. -/
theorem countP_isAdd_writes (operations : List Operation) :
    (operations.filter Operation.isWrite).countP Operation.isAdd =
      operations.countP Operation.isAdd := by
  rw [List.countP_filter]
  refine List.countP_congr fun operation _ => ?_
  cases operation <;> rfl

/-- Queries have no part in which documents survive. -/
theorem survivors_writes (operations : List Operation) :
    survivors (operations.filter Operation.isWrite) = survivors operations := by
  unfold survivors
  generalize ([] : List Upload) = uploads
  induction operations generalizing uploads with
  | nil => rfl
  | cons operation rest ih =>
    cases operation with
    | ask query => exact ih uploads
    | add upload => exact ih _
    | erase filename => exact ih _

namespace Workspace

/-- The answers of a workspace do not depend on its history. Whatever has happened, the answer to a
    query is that of a new workspace to which each of the surviving documents is added once, in any
    order that keeps the order of the programs, if the name of a template that the query asks for means
    one of them. The analysis of a document is never stale. Queries that are put in anywhere or left
    out change no answer, in a workspace that gives its documents in the same order, or in any order if
    the name of a template that is asked for means one of them. -/
theorem history_independent (settings : Settings) (hints : LinkHints) (operations : List Operation)
    (arrangement other : Arrangement) :
    (∀ (order : List Upload) (query : Query), order.Perm (survivors operations) →
      order.filter Upload.isProgram = (survivors operations).filter Upload.isProgram →
      (∀ name, (after settings hints operations arrangement).templateAsked? query = some name →
        Unambiguous name (survivors operations)) →
      ((after settings hints operations arrangement).answer query).1 =
        ((after settings hints (order.map .add) other).answer query).1) ∧
    (∀ document ∈ (after settings hints operations arrangement).corpus.stored,
      ((after settings hints operations arrangement).corpus.analyse document).1 =
        (after settings hints operations arrangement).corpus.resolve document) ∧
    (∀ (others : List Operation) (query : Query),
      others.filter Operation.isWrite = operations.filter Operation.isWrite →
      (arrangement = other ∨
        ∀ name, (after settings hints operations arrangement).templateAsked? query = some name →
          Unambiguous name (survivors operations)) →
      ((after settings hints operations arrangement).answer query).1 =
        ((after settings hints others other).answer query).1) := by
  have hholds := Holds.after settings hints operations arrangement
  refine ⟨?_, ?_, ?_⟩
  · intro order query hperm hprograms hunambiguous
    have happart : order.Pairwise fun first second => second.replaces first = false := by
      refine (survivors_pairwise operations).perm hperm.symm fun happart => ?_
      rwa [Upload.replaces_comm]
    have hfresh := Holds.after settings hints (order.map .add) other
    rw [survivors_map_add happart] at hfresh
    have halike := Alike.of_holds hholds hfresh hperm.symm hprograms.symm
    exact halike.answer hholds hfresh query fun name hasked =>
      halike.findTemplate?_filename hholds hfresh hperm.symm (hunambiguous name hasked)
  · exact fun document hmem => (hholds.coherent.analyse hmem).1
  · intro others query hwrites hsame
    have hothers := Holds.after settings hints others other
    rw [← survivors_writes, hwrites, survivors_writes] at hothers
    refine hholds.answer_congr hothers (hsame.imp_left fun harrangement => ?_)
    rw [Corpus.current_eq_frozen (moment_after settings hints operations arrangement),
      Corpus.current_eq_frozen (moment_after settings hints others other), harrangement,
      ← countP_isAdd_writes operations, ← hwrites, countP_isAdd_writes]

/-- A program is renamed and its old name becomes a template under the number of an erased one. -/
theorem history_independent_renamed :
    let page : Upload := { id := 1, filename := "page.html", text := "\x7b\x7b user \x7d\x7d", extension := "html" }
    let draft : Upload := { id := 2, filename := "base.html", text := "user = 1", extension := "py" }
    let program : Upload := { id := 2, filename := "main.py", text := "user = 1", extension := "py" }
    let base : Upload := { id := 3, filename := "base.html", text := "\x7b\x7b user \x7d\x7d", extension := "html" }
    ((after {} {} [.add page, .add draft, .ask (.undefined "page.html"), .add program, .add base,
        .erase "page.html"]).answer (.undefined "base.html")).1 =
      ((after {} {} ([base, program].map .add)).answer (.undefined "base.html")).1 := by
  intro page draft program base
  exact (history_independent {} {} _ {} {}).1 [base, program] (.undefined "base.html") (by decide) (by decide)
    fun name hasked => by cases hasked

end Workspace

end TemplateAnalysis
