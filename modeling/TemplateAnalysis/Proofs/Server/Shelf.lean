import Mathlib.Data.List.Nodup
import TemplateAnalysis.Proofs.Workspace.Independence
import TemplateAnalysis.Server.State

namespace TemplateAnalysis.Server

open Host (DocumentId)

/-- The latest text of an address after one more notice. Only addresses of a known kind have texts,
    and a removed address has none until it is written again. -/
def textAfter (settings : Settings) (uri : String) (text? : Option String) :
    Notice → Option String
  | .written other text =>
    if other = uri ∧ (settings.languageOf? other).isSome then some text else text?
  | .removed uris => if uri ∈ uris then none else text?
  | .ignored => text?

/-- The latest text of an address among the notices that a server has had. -/
def latestText? (settings : Settings) (uri : String) (notices : List Notice) : Option String :=
  notices.foldl (textAfter settings uri) none

/-- The addresses, each of them once, with one more at the end if it is new. -/
def register (uris : List String) (uri : String) : List String :=
  if uri ∈ uris then uris else uris ++ [uri]

theorem mem_register {uris : List String} {uri other : String} :
    other ∈ register uris uri ↔ other ∈ uris ∨ other = uri := by
  unfold register
  split
  next hmem => exact ⟨.inl, fun hother => hother.elim id fun hsame => hsame ▸ hmem⟩
  next => simp

theorem nodup_register {uris : List String} (hnodup : uris.Nodup) (uri : String) :
    (register uris uri).Nodup := by
  unfold register
  split
  next => exact hnodup
  next hnew =>
    refine List.nodup_append.mpr ⟨hnodup, List.nodup_singleton uri, ?_⟩
    rintro other hother _ hlast rfl
    exact hnew (List.mem_singleton.mp hlast ▸ hother)

theorem prefix_register (uris : List String) (uri : String) : uris <+: register uris uri := by
  unfold register
  split
  next => exact List.prefix_refl uris
  next => exact List.prefix_append uris [uri]

/-- An address keeps its number. -/
theorem idxOf_of_prefix {uris later : List String} (hearlier : uris <+: later) {uri : String}
    (hmem : uri ∈ uris) : later.idxOf uri = uris.idxOf uri := by
  obtain ⟨rest, rfl⟩ := hearlier
  exact List.idxOf_append_of_mem hmem

/-- What a server has to know of the documents: the addresses in the order in which they came first,
    which gives them their numbers, the latest texts in the order in which they were written, and the
    number of texts that have been written. -/
structure Shelf where
  uris : List String := []
  texts : Table String String := {}
  writes : Nat := 0
  nodup : uris.Nodup := by simp
  registered : ∀ entry ∈ texts.entries, entry.1 ∈ uris := by simp

namespace Shelf

/-- The documents after a text has been written. -/
def write (shelf : Shelf) (uri text : String) : Shelf where
  uris := register shelf.uris uri
  texts := shelf.texts.insert uri text
  writes := shelf.writes + 1
  nodup := nodup_register shelf.nodup uri
  registered entry hentry := by
    rcases List.mem_append.mp hentry with hold | hnew
    · exact mem_register.mpr (.inl (shelf.registered entry (List.mem_filter.mp hold).1))
    · rw [List.mem_singleton.mp hnew]
      exact mem_register.mpr (.inr rfl)

/-- The documents after one of them has been removed. It leaves its address behind. -/
def erase (shelf : Shelf) (uri : String) : Shelf :=
  { shelf with
    texts := shelf.texts.erase uri
    registered := fun entry hentry => shelf.registered entry (List.mem_filter.mp hentry).1 }

/-- The documents after a notice. -/
def receive (settings : Settings) (shelf : Shelf) : Notice → Shelf
  | .written uri text => if (settings.languageOf? uri).isSome then shelf.write uri text else shelf
  | .removed uris => uris.foldl erase shelf
  | .ignored => shelf

/-- The documents of which the notices have told. -/
def ofNotices (settings : Settings) (notices : List Notice) : Shelf :=
  notices.foldl (receive settings) {}

theorem uris_removed (shelf : Shelf) (uris : List String) :
    (uris.foldl erase shelf).uris = shelf.uris := by
  induction uris generalizing shelf with
  | nil => rfl
  | cons uri rest ih => exact ih (shelf.erase uri)

theorem get?_removed (shelf : Shelf) (uris : List String) (uri : String) :
    (uris.foldl erase shelf).texts.get? uri = if uri ∈ uris then none else shelf.texts.get? uri := by
  induction uris generalizing shelf with
  | nil => simp
  | cons gone rest ih =>
    rw [List.foldl_cons, ih, erase, Table.get?_erase]
    by_cases hgone : uri = gone
    · simp [hgone]
    · simp [hgone]

theorem get?_receive (settings : Settings) (shelf : Shelf) (notice : Notice) (uri : String) :
    (shelf.receive settings notice).texts.get? uri =
      textAfter settings uri (shelf.texts.get? uri) notice := by
  cases notice with
  | written other text =>
    simp only [receive, textAfter]
    by_cases hknown : (settings.languageOf? other).isSome
    · simp only [hknown, if_true, and_true, write, Table.get?_insert, eq_comm]
    · simp [hknown]
  | removed uris => exact shelf.get?_removed uris uri
  | ignored => rfl

/-- The texts are the latest ones. -/
theorem get?_ofNotices (settings : Settings) (notices : List Notice) (uri : String) :
    (ofNotices settings notices).texts.get? uri = latestText? settings uri notices := by
  have hfoldl : ∀ shelf : Shelf, (notices.foldl (receive settings) shelf).texts.get? uri =
      notices.foldl (textAfter settings uri) (shelf.texts.get? uri) := by
    induction notices with
    | nil => exact fun _ => rfl
    | cons notice rest ih =>
      intro shelf
      rw [List.foldl_cons, List.foldl_cons, ih, get?_receive]
  exact hfoldl {}

/-- A document as the server hands it to its workspace. -/
def upload (shelf : Shelf) (entry : String × String) : Upload :=
  { id := shelf.uris.idxOf entry.1, filename := entry.1, text := entry.2
    extension := (Path.extension? entry.1).getD "" }

/-- The documents with their latest texts. -/
def uploads (shelf : Shelf) : List Upload :=
  shelf.texts.entries.map shelf.upload

/-- A document takes the place of the one with its address only. -/
theorem replaces_upload (shelf : Shelf) (first second : String × String)
    (hfirst : first.1 ∈ shelf.uris) :
    (shelf.upload first).replaces (shelf.upload second) = (second.1 == first.1) := by
  simp only [Upload.replaces, upload]
  by_cases hsame : second.1 = first.1
  · simp [hsame]
  · have hid : shelf.uris.idxOf second.1 ≠ shelf.uris.idxOf first.1 := fun hid =>
      hsame ((List.idxOf_inj hfirst).mp hid.symm).symm
    simp [hsame, hid]

theorem uploads_write (shelf : Shelf) (uri text : String) :
    (shelf.write uri text).uploads =
      survive shelf.uploads (.add ((shelf.write uri text).upload (uri, text))) := by
  have hupload : ∀ entry ∈ shelf.texts.entries,
      (shelf.write uri text).upload entry = shelf.upload entry := by
    intro entry hentry
    have hid : (register shelf.uris uri).idxOf entry.1 = shelf.uris.idxOf entry.1 :=
      idxOf_of_prefix (prefix_register shelf.uris uri) (shelf.registered entry hentry)
    simp only [upload, write, hid]
  have huri : uri ∈ (shelf.write uri text).uris := mem_register.mpr (.inr rfl)
  have hkept : ∀ entry, (!((shelf.write uri text).upload (uri, text)).replaces
      ((shelf.write uri text).upload entry)) = (entry.1 != uri) := fun entry =>
    congrArg not (replaces_upload _ (uri, text) entry huri)
  have hentries : (shelf.write uri text).texts.entries =
      shelf.texts.entries.filter (·.1 != uri) ++ [(uri, text)] := rfl
  rw [survive, uploads, uploads, ← List.map_congr_left hupload, List.filter_map, hentries,
    List.map_append]
  simp only [Function.comp_def, hkept, List.map_cons, List.map_nil]

theorem uploads_erase (shelf : Shelf) (uri : String) :
    (shelf.erase uri).uploads = survive shelf.uploads (.erase uri) := by
  rw [survive, uploads, uploads, List.filter_map]
  rfl

/-- A workspace that holds the documents holds the latest text of each address. -/
theorem mem_stored_iff {settings : Settings} {shelf : Shelf} {workspace : Workspace}
    (hholds : Workspace.Holds settings {} shelf.uploads workspace) (uri text : String) :
    (∃ document ∈ workspace.corpus.stored, document.filename = uri ∧ document.source.text = text) ↔
      shelf.texts.get? uri = some text := by
  rw [Table.get?_eq_some_iff]
  constructor
  · rintro ⟨document, hmem, rfl, rfl⟩
    have hupload : document.upload ∈ shelf.uploads :=
      hholds.coherent.uploads ▸ List.mem_map_of_mem hmem
    obtain ⟨⟨uri, text⟩, hentry, hsame⟩ := List.mem_map.mp hupload
    obtain ⟨_, huri, htext, _⟩ := Upload.mk.inj hsame
    rwa [← show text = document.source.text from htext, ← show uri = document.filename from huri]
  · intro hentry
    have hupload : shelf.upload (uri, text) ∈ workspace.corpus.stored.map Document.upload :=
      hholds.coherent.uploads ▸ List.mem_map_of_mem hentry
    obtain ⟨document, hmem, hsame⟩ := List.mem_map.mp hupload
    obtain ⟨_, huri, htext, _⟩ := Upload.mk.inj hsame
    exact ⟨document, hmem, huri, htext⟩

/-- A stored document has the number of its address. -/
theorem id_of_mem_stored {settings : Settings} {shelf : Shelf} {workspace : Workspace}
    (hholds : Workspace.Holds settings {} shelf.uploads workspace) {document : Document}
    (hmem : document ∈ workspace.corpus.stored) :
    document.filename ∈ shelf.uris ∧ document.id = shelf.uris.idxOf document.filename := by
  have hupload : document.upload ∈ shelf.uploads :=
    hholds.coherent.uploads ▸ List.mem_map_of_mem hmem
  obtain ⟨entry, hentry, hsame⟩ := List.mem_map.mp hupload
  obtain ⟨hid, huri, _, _⟩ := Upload.mk.inj hsame
  rw [← show entry.1 = document.filename from huri]
  exact ⟨shelf.registered entry hentry, hid.symm⟩

/-- The workspace into which only the latest texts are written, each of them once. -/
def workspace (settings : Settings) (shelf : Shelf) (arrangement : Arrangement) : Workspace :=
  Workspace.after settings {} (shelf.uploads.map .add) arrangement

end Shelf

end TemplateAnalysis.Server
