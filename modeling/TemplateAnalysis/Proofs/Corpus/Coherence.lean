import TemplateAnalysis.Corpus
import TemplateAnalysis.Proofs.Host.Index
import TemplateAnalysis.Proofs.Identifier
import TemplateAnalysis.Proofs.Table

namespace TemplateAnalysis

open Host (DocumentId)

/-- A document as a client hands it in. -/
structure Upload where
  id : DocumentId
  filename : String
  text : String
  extension : String
  deriving DecidableEq, Inhabited

/-- Whether a document takes the place of another one: both cannot have the same number or the same
    name. -/
def Upload.replaces (upload other : Upload) : Bool :=
  other.id == upload.id || other.filename == upload.filename

namespace Document

/-- The document as it was handed in. -/
def upload (document : Document) : Upload :=
  { id := document.id, filename := document.filename, text := document.source.text
    extension := document.extension }

@[simp] theorem upload_id (document : Document) : document.upload.id = document.id := rfl

@[simp] theorem upload_filename (document : Document) :
    document.upload.filename = document.filename := rfl

/-- The variables that a document declares, if it is a program. -/
def entries (document : Document) : List (String × Host.Entry) :=
  match document.content with
  | .template _ => []
  | .program language identifiers =>
    Host.Index.entriesOf document.id document.filename language document.revision identifiers

end Document

namespace Corpus

/-- The documents of a workspace, in the order in which they were written last. -/
def stored (corpus : Corpus) : List Document :=
  corpus.documents.values

/-- The parts of a workspace agree with one another, and they hold the given documents. -/
structure Coherent (family : Option HostLanguage) (uploads : List Upload) (corpus : Corpus) :
    Prop where
  family : corpus.family = family
  keyed : corpus.documents.Keyed Document.id
  uploads : corpus.stored.map Document.upload = uploads
  content : ∀ document ∈ corpus.stored,
    document.content = .ofSource (.ofExtension document.extension) document.source
  filenames : (corpus.stored.map Document.filename).Nodup
  byName : ∀ filename id, corpus.byName.get? filename = some id ↔
    ∃ document ∈ corpus.stored, document.filename = filename ∧ document.id = id
  index : corpus.index.entries = corpus.stored.flatMap Document.entries
  ordered : (corpus.stored.map Document.revision).Pairwise (· < ·)
  written : ∀ document ∈ corpus.stored, document.revision ≤ corpus.revision
  cached : ∀ document ∈ corpus.stored, ∀ generation analysis,
    document.cache = some (generation, analysis) → generation ≤ corpus.generation ∧
      (generation = corpus.generation → analysis = corpus.resolve document)

namespace Coherent

variable {family : Option HostLanguage} {corpus : Corpus} {uploads : List Upload}
  {document : Document}

theorem initial (family : Option HostLanguage) (arrangement : Arrangement) :
    Coherent family [] { family, arrangement } where
  family := rfl
  keyed entry hentry := by cases hentry
  uploads := rfl
  content document hmem := by cases hmem
  filenames := List.nodup_nil
  byName filename id := by
    constructor
    · intro hget
      cases hget
    · rintro ⟨document, hmem, _⟩
      cases hmem
  index := rfl
  ordered := List.Pairwise.nil
  written document hmem := by cases hmem
  cached document hmem := by cases hmem

theorem nodup_ids (hcoherent : Coherent family uploads corpus) :
    (corpus.stored.map Document.id).Nodup :=
  hcoherent.keyed.nodup_values

theorem document?_eq_some_iff (hcoherent : Coherent family uploads corpus) {id : DocumentId} :
    corpus.document? id = some document ↔ document ∈ corpus.stored ∧ document.id = id :=
  hcoherent.keyed.get?_eq_some_iff

theorem document?_eq_none_iff (hcoherent : Coherent family uploads corpus) {id : DocumentId} :
    corpus.document? id = none ↔ ∀ document ∈ corpus.stored, document.id ≠ id :=
  hcoherent.keyed.get?_eq_none_iff

/-- A number stands for one document only. -/
theorem eq_of_id (hcoherent : Coherent family uploads corpus) {first second : Document}
    (hfirst : first ∈ corpus.stored) (hsecond : second ∈ corpus.stored)
    (hid : first.id = second.id) : first = second :=
  List.inj_on_of_nodup_map hcoherent.nodup_ids hfirst hsecond hid

/-- A name stands for one document only. -/
theorem eq_of_filename (hcoherent : Coherent family uploads corpus) {first second : Document}
    (hfirst : first ∈ corpus.stored) (hsecond : second ∈ corpus.stored)
    (hfilename : first.filename = second.filename) : first = second :=
  List.inj_on_of_nodup_map hcoherent.filenames hfirst hsecond hfilename

theorem documentNamed?_eq_some_iff (hcoherent : Coherent family uploads corpus) {filename : String} :
    corpus.documentNamed? filename = some document ↔
      document ∈ corpus.stored ∧ document.filename = filename := by
  rw [documentNamed?, Option.bind_eq_some_iff]
  constructor
  · rintro ⟨id, hid, hdocument⟩
    obtain ⟨other, hother, hfilename, hotherId⟩ := (hcoherent.byName filename id).mp hid
    obtain ⟨hmem, hdocumentId⟩ := hcoherent.document?_eq_some_iff.mp hdocument
    obtain rfl := hcoherent.eq_of_id hother hmem (hotherId.trans hdocumentId.symm)
    exact ⟨hmem, hfilename⟩
  · rintro ⟨hmem, hfilename⟩
    exact ⟨document.id, (hcoherent.byName filename document.id).mpr ⟨document, hmem, hfilename, rfl⟩,
      hcoherent.document?_eq_some_iff.mpr ⟨hmem, rfl⟩⟩

/-- To keep the analysis of a document changes nothing but what the document keeps. -/
theorem remember (hcoherent : Coherent family uploads corpus) (hmem : document ∈ corpus.stored) :
    Coherent family uploads (corpus.remember document (corpus.resolve document)) := by
  let mark : Document → Document := fun stored =>
    { stored with cache := some (corpus.generation, corpus.resolve document) }
  let change : Document → Document := fun stored =>
    if stored.id = document.id then mark stored else stored
  have hstored : (corpus.remember document (corpus.resolve document)).stored =
      corpus.stored.map change := hcoherent.keyed.values_modify document.id mark
  have hchange : ∀ {β : Type} (view : Document → β), (∀ stored, view (mark stored) = view stored) →
      ∀ stored, view (change stored) = view stored := by
    intro β view hview stored
    simp only [change]
    split
    · exact hview stored
    · rfl
  have hmap : ∀ {β : Type} (view : Document → β), (∀ stored, view (mark stored) = view stored) →
      (corpus.stored.map change).map view = corpus.stored.map view := by
    intro β view hview
    rw [List.map_map]
    exact List.map_congr_left fun stored _ => hchange view hview stored
  exact {
    family := hcoherent.family
    keyed := hcoherent.keyed.modify document.id fun _ => rfl
    uploads := by rw [hstored, hmap Document.upload fun _ => rfl, hcoherent.uploads]
    content := by
      rw [hstored, List.forall_mem_map]
      intro stored hstoredMem
      rw [hchange Document.content fun _ => rfl, hchange Document.extension fun _ => rfl,
        hchange Document.source fun _ => rfl]
      exact hcoherent.content stored hstoredMem
    filenames := by
      rw [hstored, hmap Document.filename fun _ => rfl]
      exact hcoherent.filenames
    byName filename id := by
      rw [hstored]
      simp only [List.mem_map, exists_exists_and_eq_and, hchange Document.filename fun _ => rfl,
        hchange Document.id fun _ => rfl]
      exact hcoherent.byName filename id
    index := by
      rw [hstored, List.flatMap_map]
      refine hcoherent.index.trans (List.flatMap_congr fun stored _ => ?_)
      exact (hchange Document.entries (fun _ => rfl) stored).symm
    ordered := by
      rw [hstored, hmap Document.revision fun _ => rfl]
      exact hcoherent.ordered
    written := by
      rw [hstored, List.forall_mem_map]
      intro stored hstoredMem
      rw [hchange Document.revision fun _ => rfl]
      exact hcoherent.written stored hstoredMem
    cached := by
      rw [hstored, List.forall_mem_map]
      intro stored hstoredMem generation analysis hcache
      by_cases hid : stored.id = document.id
      -- The only analysis that is new is the one that has just been made.
      · obtain rfl := hcoherent.eq_of_id hstoredMem hmem hid
        simp only [change, if_pos] at hcache ⊢
        obtain ⟨rfl, rfl⟩ := Prod.mk.injEq .. ▸ Option.some.inj hcache
        exact ⟨le_refl _, fun _ => rfl⟩
      · simp only [change, if_neg hid] at hcache ⊢
        exact hcoherent.cached stored hstoredMem generation analysis hcache }

/-- The analysis of a document is what the present variables make of it, whether it is kept from
    before or made anew. -/
theorem analyse (hcoherent : Coherent family uploads corpus) (hmem : document ∈ corpus.stored) :
    (corpus.analyse document).1 = corpus.resolve document ∧
      Coherent family uploads (corpus.analyse document).2 := by
  unfold Corpus.analyse
  split
  next generation analysis hcache =>
    split
    next hgeneration =>
      exact ⟨(hcoherent.cached document hmem generation analysis hcache).2 hgeneration, hcoherent⟩
    next => exact ⟨rfl, hcoherent.remember hmem⟩
  next => exact ⟨rfl, hcoherent.remember hmem⟩

theorem document_of_mem_entries {entry : String × Host.Entry} (hentry : entry ∈ document.entries) :
    entry.2.document = document.id := by
  unfold Document.entries at hentry
  split at hentry
  · cases hentry
  · obtain ⟨identifier, _, rfl⟩ := List.mem_map.mp hentry
    rfl

theorem erase_entries (index : Host.Index) (documents : List Document) (id : DocumentId)
    (hindex : index.entries = documents.flatMap Document.entries) :
    (index.erase id).entries = (documents.filter (·.id != id)).flatMap Document.entries := by
  rw [Host.Index.erase, hindex]
  clear hindex
  simp only
  induction documents with
  | nil => rfl
  | cons document rest ih =>
    rw [List.flatMap_cons, List.filter_append, ih, List.filter_cons]
    by_cases hid : document.id = id
    · rw [if_neg (by simpa using hid), List.filter_eq_nil_iff.mpr, List.nil_append]
      intro entry hentry
      simp [document_of_mem_entries hentry, hid]
    · rw [if_pos (by simpa using hid), List.filter_eq_self.mpr, List.flatMap_cons]
      intro entry hentry
      simp [document_of_mem_entries hentry, hid]

theorem erase_of_not_mentions {index : Host.Index} {id : DocumentId}
    (hmentions : index.mentions id = false) : index.erase id = index := by
  rw [Host.Index.mentions, List.any_eq_false] at hmentions
  rw [Host.Index.erase, List.filter_eq_self.mpr]
  intro entry hentry
  simpa using hmentions entry hentry

/-- A document that is removed leaves nothing behind. -/
theorem remove (hcoherent : Coherent family uploads corpus) (id : DocumentId) :
    Coherent family (uploads.filter (·.id != id)) (corpus.remove id) := by
  unfold Corpus.remove
  split
  next hnone =>
    have hkept : uploads.filter (·.id != id) = uploads := by
      rw [← hcoherent.uploads, List.filter_eq_self, List.forall_mem_map]
      intro document hmem
      simpa using hcoherent.document?_eq_none_iff.mp hnone document hmem
    rw [hkept]
    exact hcoherent
  next document hsome =>
    obtain ⟨hmem, hid⟩ := hcoherent.document?_eq_some_iff.mp hsome
    have hname : corpus.byName.get? document.filename = some id :=
      (hcoherent.byName _ _).mpr ⟨document, hmem, rfl, hid⟩
    have hstored : (corpus.documents.erase id).values = corpus.stored.filter (·.id != id) :=
      hcoherent.keyed.values_erase id
    have hindex := erase_entries corpus.index corpus.stored id hcoherent.index
    have hsub : ∀ {stored : Document}, stored ∈ (corpus.documents.erase id).values →
        stored ∈ corpus.stored ∧ stored.id ≠ id := by
      intro stored hstoredMem
      rw [hstored, List.mem_filter] at hstoredMem
      exact ⟨hstoredMem.1, by simpa using hstoredMem.2⟩
    rw [if_pos hname]
    exact {
      family := hcoherent.family
      keyed := hcoherent.keyed.erase id
      uploads := by
        rw [← hcoherent.uploads, List.filter_map, stored, hstored]
        rfl
      content stored hstoredMem := hcoherent.content stored (hsub hstoredMem).1
      filenames := by
        rw [stored, hstored]
        exact hcoherent.filenames.sublist (List.filter_sublist.map _)
      byName filename other := by
        simp only [Table.get?_erase, stored]
        constructor
        · intro hget
          split at hget
          next => cases hget
          next hne =>
            obtain ⟨found, hfound, hfilename, hfoundId⟩ := (hcoherent.byName filename other).mp hget
            refine ⟨found, ?_, hfilename, hfoundId⟩
            rw [hstored, List.mem_filter]
            refine ⟨hfound, ?_⟩
            -- The other document has another name, so it is not the one that has been removed.
            have hother : found.id ≠ id := fun hsame =>
              hne (hfilename ▸ congrArg Document.filename (hcoherent.eq_of_id hfound hmem (hsame.trans hid.symm)))
            simpa using hother
        · rintro ⟨found, hfound, hfilename, hfoundId⟩
          obtain ⟨hold, hother⟩ := hsub hfound
          rw [if_neg, (hcoherent.byName filename other).mpr ⟨found, hold, hfilename, hfoundId⟩]
          intro hsame
          exact hother ((hcoherent.eq_of_filename hold hmem (hfilename.trans hsame)) ▸ hid)
      index := by
        rw [stored, hstored]
        exact hindex
      ordered := by
        rw [stored, hstored]
        exact hcoherent.ordered.sublist (List.filter_sublist.map _)
      written stored hstoredMem := hcoherent.written stored (hsub hstoredMem).1
      cached stored hstoredMem generation analysis hcache := by
        obtain ⟨hle, hcurrent⟩ :=
          hcoherent.cached stored (hsub hstoredMem).1 generation analysis hcache
        -- The generation goes up exactly if variables go: an analysis of the present generation has
        -- read the index as it still is.
        cases hmentions : corpus.index.mentions id with
        | true =>
          simp only [if_pos]
          exact ⟨hle.trans (Nat.le_succ _), fun hsame => absurd (hsame ▸ hle) (Nat.not_succ_le_self _)⟩
        | false =>
          simp only [Bool.false_eq_true, if_false, erase_of_not_mentions hmentions]
          exact ⟨hle, hcurrent⟩ }

/-- The document with a name is the one with its number. -/
theorem filter_filename (hcoherent : Coherent family uploads corpus) {filename : String} {id : DocumentId}
    (hname : corpus.byName.get? filename = some id) :
    uploads.filter (·.filename != filename) = uploads.filter (·.id != id) := by
  obtain ⟨found, hfound, rfl, rfl⟩ := (hcoherent.byName filename id).mp hname
  refine List.filter_congr fun upload hupload => ?_
  rw [← hcoherent.uploads] at hupload
  obtain ⟨document, hmem, rfl⟩ := List.mem_map.mp hupload
  have hiff : document.filename = found.filename ↔ document.id = found.id :=
    ⟨fun hsame => congrArg Document.id (hcoherent.eq_of_filename hmem hfound hsame),
      fun hsame => congrArg Document.filename (hcoherent.eq_of_id hmem hfound hsame)⟩
  simp [bne, Bool.beq_eq_decide_eq, hiff]

/-- No document has a name that is not known. -/
theorem filter_unknown (hcoherent : Coherent family uploads corpus) {filename : String}
    (hname : corpus.byName.get? filename = none) :
    uploads.filter (·.filename != filename) = uploads := by
  rw [List.filter_eq_self, ← hcoherent.uploads, List.forall_mem_map]
  intro document hmem
  rw [bne_iff_ne, Document.upload_filename]
  intro hfilename
  rw [(hcoherent.byName filename document.id).mpr ⟨document, hmem, hfilename, rfl⟩] at hname
  cases hname

/-- A document can be removed by its name. -/
theorem erase (hcoherent : Coherent family uploads corpus) (filename : String) :
    Coherent family (uploads.filter (·.filename != filename)) (corpus.erase filename) := by
  unfold Corpus.erase
  split
  next id hname =>
    rw [hcoherent.filter_filename hname]
    exact hcoherent.remove id
  next hname =>
    rw [hcoherent.filter_unknown hname]
    exact hcoherent

/-- Room for a document is made by removing the documents whose place it takes. -/
theorem vacate (hcoherent : Coherent family uploads corpus) (id : DocumentId) (filename : String) :
    Coherent family ((uploads.filter (·.filename != filename)).filter (·.id != id))
      (corpus.vacate id filename) := by
  unfold Corpus.vacate
  split
  next other hname =>
    rw [hcoherent.filter_filename hname]
    split
    next hsame =>
      simp only [hsame, List.filter_filter, Bool.and_self]
      exact hcoherent.remove id
    next => exact (hcoherent.remove other).remove id
  next hname =>
    rw [hcoherent.filter_unknown hname]
    exact hcoherent.remove id

/-- The next write has a number of its own. -/
theorem bump (hcoherent : Coherent family uploads corpus) :
    Coherent family uploads { corpus with revision := corpus.revision + 1 } where
  family := hcoherent.family
  keyed := hcoherent.keyed
  uploads := hcoherent.uploads
  content := hcoherent.content
  filenames := hcoherent.filenames
  byName := hcoherent.byName
  index := hcoherent.index
  ordered := hcoherent.ordered
  written document hmem := (hcoherent.written document hmem).trans (Nat.le_succ _)
  cached := hcoherent.cached

/-- The variables of a new program come after all others, and they make kept analyses stale. -/
theorem declare (hcoherent : Coherent family uploads corpus)
    (hid : ∀ other ∈ corpus.stored, other.id ≠ document.id) :
    (corpus.declare document).documents = corpus.documents ∧
      (corpus.declare document).byName = corpus.byName ∧
      (corpus.declare document).revision = corpus.revision ∧
      (corpus.declare document).family = corpus.family ∧
      (corpus.declare document).index.entries = corpus.index.entries ++ document.entries ∧
      (corpus.generation < (corpus.declare document).generation ∨
        (corpus.declare document) = corpus) := by
  unfold Corpus.declare
  cases hcontent : document.content with
  | template outline => exact ⟨rfl, rfl, rfl, rfl, by simp [Document.entries, hcontent], .inr rfl⟩
  | program language identifiers =>
    have hnew : corpus.index.mentions document.id = false := by
      rw [Host.Index.mentions, List.any_eq_false, hcoherent.index]
      intro entry hentry
      obtain ⟨other, hother, hmem⟩ := List.mem_flatMap.mp hentry
      rw [document_of_mem_entries hmem]
      simpa using hid other hother
    refine ⟨rfl, rfl, rfl, rfl, ?_, .inl (Nat.lt_succ_self _)⟩
    simp only [Host.Index.insert, erase_of_not_mentions hnew, Document.entries, hcontent]

/-- A new document that takes no other one's place can be stored. -/
theorem enter (hcoherent : Coherent family uploads corpus)
    (hcontent : document.content = .ofSource (.ofExtension document.extension) document.source)
    (hid : ∀ other ∈ corpus.stored, other.id ≠ document.id)
    (hfilename : ∀ other ∈ corpus.stored, other.filename ≠ document.filename)
    (hlater : ∀ other ∈ corpus.stored, other.revision < document.revision)
    (hwritten : document.revision ≤ corpus.revision) (hcache : document.cache = none) :
    Coherent family (uploads ++ [document.upload]) ((corpus.declare document).store document) := by
  obtain ⟨hdocuments, hbyName, hrevision, hfamily, hindex, hgeneration⟩ := hcoherent.declare hid
  have hstored : ((corpus.declare document).store document).stored = corpus.stored ++ [document] := by
    rw [stored, store, hdocuments, hcoherent.keyed.values_insert, List.filter_eq_self.mpr]
    · rfl
    · exact fun other hother => by simpa using hid other hother
  exact {
    family := hfamily.trans hcoherent.family
    keyed := by
      rw [store, hdocuments]
      exact hcoherent.keyed.insert document
    uploads := by rw [hstored, List.map_append, hcoherent.uploads, List.map_singleton]
    content := by
      rw [hstored, List.forall_mem_append]
      exact ⟨hcoherent.content, fun other hother => List.mem_singleton.mp hother ▸ hcontent⟩
    filenames := by
      rw [hstored, List.map_append, List.nodup_append']
      refine ⟨hcoherent.filenames, List.nodup_singleton _, ?_⟩
      rw [List.disjoint_left, List.forall_mem_map]
      exact fun other hother hmem => hfilename other hother (List.mem_singleton.mp hmem)
    byName filename other := by
      rw [hstored]
      simp only [store, hbyName, Table.get?_insert, List.mem_append, List.mem_singleton, or_and_right,
        exists_or, exists_eq_left]
      split
      next hsame =>
        subst hsame
        constructor
        · intro hnew
          exact .inr ⟨rfl, Option.some.inj hnew⟩
        · rintro (⟨found, hfound, hfoundName, _⟩ | ⟨_, hother⟩)
          · exact absurd hfoundName (hfilename found hfound)
          · rw [hother]
      next hne =>
        rw [hcoherent.byName]
        exact ⟨.inl, fun hfound => hfound.resolve_right fun hnew => hne hnew.1.symm⟩
    index := by
      rw [hstored, List.flatMap_append, List.flatMap_singleton, ← hcoherent.index]
      exact hindex
    ordered := by
      rw [hstored, List.map_append, List.pairwise_append]
      refine ⟨hcoherent.ordered, List.pairwise_singleton _ _, ?_⟩
      rw [List.forall_mem_map]
      intro other hother revision hmem
      rw [List.mem_singleton.mp hmem]
      exact hlater other hother
    written := by
      rw [hstored, List.forall_mem_append, store, hrevision]
      exact ⟨hcoherent.written, fun other hother => List.mem_singleton.mp hother ▸ hwritten⟩
    cached := by
      rw [hstored, List.forall_mem_append]
      refine ⟨fun other hother generation analysis hkept => ?_, fun other hother generation analysis hkept => ?_⟩
      · obtain ⟨hle, hcurrent⟩ := hcoherent.cached other hother generation analysis hkept
        -- A new program puts every analysis out of date, and a new template changes no variable.
        rcases hgeneration with hlt | hsame
        · exact ⟨hle.trans hlt.le, fun hnow => absurd (hnow ▸ hle) (Nat.not_le.mpr hlt)⟩
        · rw [hsame]
          exact ⟨hle, hcurrent⟩
      · rw [List.mem_singleton.mp hother, hcache] at hkept
        cases hkept }

theorem revision_remove (corpus : Corpus) (id : DocumentId) :
    (corpus.remove id).revision = corpus.revision := by
  unfold Corpus.remove
  split <;> rfl

theorem revision_vacate (corpus : Corpus) (id : DocumentId) (filename : String) :
    (corpus.vacate id filename).revision = corpus.revision := by
  unfold Corpus.vacate
  split
  · split
    · exact revision_remove corpus id
    · exact (revision_remove _ id).trans (revision_remove corpus _)
  · exact revision_remove corpus id

theorem remove_revision (corpus : Corpus) (revision : Nat) (id : DocumentId) :
    { corpus with revision }.remove id = { corpus.remove id with revision } := by
  have hsame : { corpus with revision }.document? id = corpus.document? id := rfl
  unfold Corpus.remove
  rw [hsame]
  cases corpus.document? id <;> rfl

/-- To make room for a document does not depend on the number of writes. -/
theorem vacate_revision (corpus : Corpus) (revision : Nat) (id : DocumentId) (filename : String) :
    { corpus with revision }.vacate id filename = { corpus.vacate id filename with revision } := by
  unfold Corpus.vacate
  simp only [remove_revision]
  cases corpus.byName.get? filename with
  | none => rfl
  | some other =>
    simp only
    split
    · exact remove_revision corpus revision id
    · exact remove_revision (corpus.remove other) revision id

/-- A write puts a document in the place of those that had its number or its name. -/
theorem add (hcoherent : Coherent family uploads corpus) (upload : Upload) :
    Coherent family (uploads.filter (fun other => !upload.replaces other) ++ [upload])
      (corpus.add upload.id upload.filename upload.text upload.extension).2 := by
  let written := corpus.read upload.id upload.filename upload.text upload.extension
  let vacant := corpus.vacate upload.id upload.filename
  have hvacant := hcoherent.vacate upload.id upload.filename
  have hfilter : (uploads.filter (·.filename != upload.filename)).filter (·.id != upload.id) =
      uploads.filter fun other => !upload.replaces other := by
    rw [List.filter_filter]
    refine List.filter_congr fun other _ => ?_
    simp only [Upload.replaces, Bool.not_or]
    rfl
  rw [hfilter] at hvacant
  have hothers : ∀ other ∈ vacant.stored,
      other.id ≠ upload.id ∧ other.filename ≠ upload.filename := by
    intro other hother
    have hmem : other.upload ∈ vacant.stored.map Document.upload := List.mem_map_of_mem hother
    rw [hvacant.uploads, List.mem_filter, Upload.replaces, Bool.not_or, Bool.and_eq_true] at hmem
    simpa using hmem.2
  have hid : ∀ other ∈ vacant.stored, other.id ≠ written.id :=
    fun other hother => (hothers other hother).1
  have hfilename : ∀ other ∈ vacant.stored, other.filename ≠ written.filename :=
    fun other hother => (hothers other hother).2
  have hearlier : ∀ other ∈ vacant.stored, other.revision < written.revision := by
    intro other hother
    have hle : other.revision ≤ vacant.revision := hvacant.written other hother
    rw [revision_vacate] at hle
    exact Nat.lt_succ_of_le hle
  let bumped := { vacant with revision := corpus.revision + 1 }
  have hbumped : Coherent family (uploads.filter fun other => !upload.replaces other) bumped := by
    have hnext := hvacant.bump
    rw [revision_vacate] at hnext
    exact hnext
  have hentered : Coherent family (uploads.filter (fun other => !upload.replaces other) ++ [upload])
      ((bumped.declare written).store written) :=
    hbumped.enter rfl hid hfilename hearlier (le_refl _) rfl
  have hmem : written ∈ ((bumped.declare written).store written).stored := by
    rw [stored, store, Table.mem_values_iff]
    exact ⟨written.id, List.mem_append_right _ (List.mem_singleton_self _)⟩
  have hadd : (corpus.add upload.id upload.filename upload.text upload.extension).2 =
      (((bumped.declare written).store written).analyse written).2 := by
    simp only [Corpus.add, vacate_revision]
    rfl
  rw [hadd]
  exact (hentered.analyse hmem).2

end Coherent

end Corpus

end TemplateAnalysis
