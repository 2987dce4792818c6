import TemplateAnalysis.Proofs.Corpus.Bare

namespace TemplateAnalysis

open Host (DocumentId)

/-- The arrangement that is always as this one is after a number of writes. -/
def Arrangement.frozen (arrangement : Arrangement) (revision : Nat) : Arrangement where
  arrange _ := arrangement.arrange revision
  perm _ := arrangement.perm revision

/-- The arrangement in which the documents that were written last come first. -/
def Arrangement.reversed : Arrangement where
  arrange _ ids := ids.reverse
  perm _ ids := ids.reverse_perm

namespace Corpus

/-- The arrangement of the documents as it is at present. -/
def current (corpus : Corpus) : Arrangement :=
  corpus.arrangement.frozen corpus.revision

/-- Whatever the order is, each document comes once. -/
theorem listed_perm (corpus : Corpus) : corpus.listed.Perm corpus.stored := by
  have hperm := (corpus.arrangement.perm corpus.revision (corpus.documents.entries.map (·.1))).filterMap
    corpus.document?
  rwa [show (corpus.documents.entries.map (·.1)).filterMap corpus.document? = corpus.stored from
    corpus.documents.filterMap_get?_keys] at hperm

theorem mem_listed {corpus : Corpus} {document : Document} :
    document ∈ corpus.listed ↔ document ∈ corpus.stored :=
  corpus.listed_perm.mem_iff

/-- Corpora with the same present arrangement give the same documents in the same order. -/
theorem Coherent.listed_congr {family : Option HostLanguage} {uploads : List Upload}
    {first second : Corpus} (hfirst : Coherent family uploads first)
    (hsecond : Coherent family uploads second)
    (hdocument : ∀ id, (first.document? id).map Document.bare = (second.document? id).map Document.bare)
    (hcurrent : first.current = second.current) :
    first.listed.map Document.bare = second.listed.map Document.bare := by
  have hids : ∀ {corpus : Corpus}, Coherent family uploads corpus →
      corpus.documents.entries.map (·.1) = uploads.map Upload.id := by
    intro corpus hcoherent
    rw [hcoherent.keyed.keys, ← hcoherent.uploads, List.map_map]
    rfl
  have harrange : first.arrangement.arrange first.revision =
      second.arrangement.arrange second.revision :=
    congrArg (Arrangement.arrange · 0) hcurrent
  rw [listed, listed, List.map_filterMap, List.map_filterMap, hids hfirst, hids hsecond, harrange]
  exact List.filterMap_congr fun id _ => hdocument id

/-- What the present arrangement comes from: the arrangement, and the number of writes so far. -/
def moment (corpus : Corpus) : Arrangement × Nat :=
  (corpus.arrangement, corpus.revision)

theorem current_eq_frozen {corpus : Corpus} {arrangement : Arrangement} {revision : Nat}
    (hmoment : corpus.moment = (arrangement, revision)) :
    corpus.current = arrangement.frozen revision :=
  congrArg (fun moment : Arrangement × Nat => moment.1.frozen moment.2) hmoment

/-- To find an analysis out and to keep it is no write. -/
@[simp] theorem moment_analyse (corpus : Corpus) (document : Document) :
    (corpus.analyse document).2.moment = corpus.moment := by
  unfold analyse
  split
  · split <;> rfl
  · rfl

@[simp] theorem moment_remove (corpus : Corpus) (id : DocumentId) :
    (corpus.remove id).moment = corpus.moment := by
  unfold remove
  split <;> rfl

@[simp] theorem moment_erase (corpus : Corpus) (filename : String) :
    (corpus.erase filename).moment = corpus.moment := by
  unfold erase
  split
  · exact moment_remove corpus _
  · rfl

@[simp] theorem moment_vacate (corpus : Corpus) (id : DocumentId) (filename : String) :
    (corpus.vacate id filename).moment = corpus.moment := by
  unfold vacate
  split
  · split
    · exact moment_remove corpus id
    · rw [moment_remove, moment_remove]
  · exact moment_remove corpus id

@[simp] theorem moment_declare (corpus : Corpus) (document : Document) :
    (corpus.declare document).moment = corpus.moment := by
  unfold declare
  split <;> rfl

@[simp] theorem moment_store (corpus : Corpus) (document : Document) :
    (corpus.store document).moment = corpus.moment := rfl

/-- Only a document that is written can change the order of the others. -/
theorem moment_add (corpus : Corpus) (id : DocumentId) (filename text extension : String) :
    (corpus.add id filename text extension).2.moment = (corpus.arrangement, corpus.revision + 1) := by
  simp only [add, moment_analyse, moment_store, moment_declare, moment_vacate]
  rfl

end Corpus

end TemplateAnalysis
