import TemplateAnalysis.Proofs.Corpus.Coherence

namespace TemplateAnalysis

/-- The declarations of a name in a document, in the order of its text. A template has none, and
    neither has a program in a language that does not count. -/
def Document.declarations (name : String) (family : Option HostLanguage) (document : Document) :
    List Host.Entry :=
  match document.content with
  | .template _ => []
  | .program language identifiers =>
    if family.all (language == ·) then
      (identifiers.filter fun identifier =>
        identifier.kind == .hostVariable && identifier.name == name).map fun identifier =>
          { document := document.id, filename := document.filename, language
            range := identifier.range, revision := document.revision }
    else []

/-- Whether a document is a program that declares a variable for templates. -/
def Content.Declares (name : String) (family : Option HostLanguage) : Content → Prop
  | .template _ => False
  | .program language identifiers => family.all (language == ·) = true ∧
    ∃ identifier ∈ identifiers, identifier.kind = .hostVariable ∧ identifier.name = name

theorem Document.declarations_eq_nil_iff {document : Document} {name : String}
    {family : Option HostLanguage} :
    document.declarations name family = [] ↔ ¬ document.content.Declares name family := by
  unfold Document.declarations Content.Declares
  cases document.content with
  | template outline => simp
  | program language identifiers => by_cases hfamily : family.all (language == ·) <;> simp [hfamily]

namespace Corpus.Coherent

variable {language : Option HostLanguage} {corpus : Corpus} {uploads : List Upload}
  {document : Document}

theorem candidates_entries (name : String) (family : Option HostLanguage) (document : Document) :
    Host.Index.candidates name family document.entries = document.declarations name family := by
  unfold Document.entries Document.declarations Host.Index.candidates
  cases document.content with
  | template outline => rfl
  | program language identifiers =>
    simp only [Host.Index.entriesOf, List.filter_map, List.map_map, List.filter_filter]
    split
    next hfamily =>
      congr 1
      refine List.filter_congr fun identifier _ => ?_
      simp [Host.Index.inFamily, hfamily, Bool.and_comm]
    next hfamily =>
      rw [List.filter_eq_nil_iff.mpr, List.map_nil]
      intro identifier _
      simp [Host.Index.inFamily, hfamily]

theorem revision_of_mem_entries {entry : Host.Entry} (hentry : entry ∈ document.entries.map (·.2)) :
    entry.revision = document.revision := by
  unfold Document.entries at hentry
  split at hentry
  · cases hentry
  · obtain ⟨_, hmem, rfl⟩ := List.mem_map.mp hentry
    obtain ⟨identifier, _, rfl⟩ := List.mem_map.mp hmem
    rfl

/-- The variables of a program come in the order of its text. -/
theorem entries_pairwise (hcoherent : Coherent language uploads corpus)
    (hmem : document ∈ corpus.stored) : (document.entries.map (·.2)).Pairwise
      (fun first second => Host.Index.precedes first second = true) := by
  have hcontent := hcoherent.content document hmem
  unfold Document.entries
  cases hlanguage : Language.ofExtension document.extension with
  | template =>
    rw [hcontent, hlanguage]
    exact List.Pairwise.nil
  | host language =>
    rw [hcontent, hlanguage]
    have hsorted : (Host.scan language document.source).Pairwise
        (fun first second => first.precedes second = true) := Identifier.normalize_pairwise _
    simp only [Content.ofSource, Host.Index.entriesOf, List.map_map, List.pairwise_map]
    refine (hsorted.filter _).imp fun hprecedes => ?_
    rw [Host.Index.precedes_iff]
    exact .inr ⟨rfl, Identifier.start_le_of_precedes hprecedes⟩

/-- A look-up finds the declarations of the stored programs: those that were written later come
    first, and within a program those that stand first. -/
theorem lookup (hcoherent : Coherent language uploads corpus) (name : String)
    (family : Option HostLanguage) : corpus.index.lookup name family =
      corpus.stored.reverse.flatMap (Document.declarations name family) := by
  -- The revisions ascend in the store, so sorting turns the documents round and keeps the order
  -- within each.
  have hlater : corpus.stored.Pairwise fun earlier later =>
      ∀ first ∈ earlier.entries.map (·.2), ∀ second ∈ later.entries.map (·.2),
        Host.Index.precedes first second = false := by
    refine (List.pairwise_map.mp hcoherent.ordered).imp fun hlt first hfirst second hsecond => ?_
    rw [← Bool.not_eq_true, Host.Index.precedes_iff, revision_of_mem_entries hfirst,
      revision_of_mem_entries hsecond]
    rintro (hgt | ⟨heq, _⟩)
    · exact Nat.lt_asymm hlt hgt
    · exact hlt.ne heq
  rw [Host.Index.lookup_flatMap hcoherent.index (fun document hmem => hcoherent.entries_pairwise hmem)
    hlater]
  exact List.flatMap_congr fun document _ => candidates_entries name family document

theorem latest?_eq_none_iff (hcoherent : Coherent language uploads corpus) {name : String}
    {family : Option HostLanguage} : corpus.index.latest? name family = none ↔
      ∀ document ∈ corpus.stored, document.declarations name family = [] := by
  rw [Host.Index.latest?, List.head?_eq_none_iff, hcoherent.lookup, List.flatMap_eq_nil_iff]
  simp only [List.mem_reverse]

end Corpus.Coherent

end TemplateAnalysis
