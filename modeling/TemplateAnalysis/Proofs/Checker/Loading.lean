import Mathlib.Data.List.Nodup
import TemplateAnalysis.Checker
import TemplateAnalysis.Proofs.FileTree
import TemplateAnalysis.Proofs.Sorting

namespace TemplateAnalysis

namespace SourceTable

/-- The table holds files of the tree under their paths without detours, each of them once. -/
structure Reads (tree : FileTree) (table : SourceTable) : Prop where
  names : (table.sources.map (·.name)).Nodup
  texts : ∀ source ∈ table.sources, ∃ route, Route.Proper route ∧
    source.name = FileTree.pathOf route ∧ tree.file? route = some source.text

/-- The names of the files with some numbers. -/
def namesOf (table : SourceTable) (ids : List Nat) : List String :=
  ids.filterMap fun id => (table.sources[id]?).map (·.name)

theorem mem_namesOf {table : SourceTable} {ids : List Nat} {name : String} :
    name ∈ table.namesOf ids ↔
      ∃ id ∈ ids, ∃ source, table.sources[id]? = some source ∧ source.name = name := by
  simp only [namesOf, List.mem_filterMap, Option.map_eq_some_iff]

/-- What has a number in the table has the same number later. -/
def Grows (table later : SourceTable) : Prop :=
  ∀ (id : Nat) (source : Source), table.sources[id]? = some source → later.sources[id]? = some source

namespace Reads

variable {tree : FileTree} {table other : SourceTable} {path : String}

theorem initial (tree : FileTree) : Reads tree {} where
  names := List.nodup_nil
  texts _ hmem := absurd hmem List.not_mem_nil

/-- A file is the same in all tables, because files do not change. -/
theorem eq_of_name (hreads : table.Reads tree) (hother : other.Reads tree) {source found : Source}
    (hsource : source ∈ table.sources) (hfound : found ∈ other.sources)
    (hname : source.name = found.name) : source = found := by
  obtain ⟨route, hproper, hpath, htext⟩ := hreads.texts source hsource
  obtain ⟨route', hproper', hpath', htext'⟩ := hother.texts found hfound
  obtain rfl := FileTree.eq_of_pathOf hproper hproper' (by rw [← hpath, hname, hpath'])
  obtain ⟨name, text⟩ := source
  obtain ⟨name', text'⟩ := found
  rw [Source.mk.injEq]
  exact ⟨hname, Option.some.inj (htext.symm.trans htext')⟩

theorem id_eq_of_name (hreads : table.Reads tree) {first second : Nat} {source found : Source}
    (hfirst : table.sources[first]? = some source) (hsecond : table.sources[second]? = some found)
    (hname : source.name = found.name) : first = second := by
  have hfirst' : (table.sources.map (·.name))[first]? = some source.name := by
    rw [List.getElem?_map, hfirst, Option.map_some]
  have hsecond' : (table.sources.map (·.name))[second]? = some source.name := by
    rw [List.getElem?_map, hsecond, Option.map_some, hname]
  have hlt := (List.getElem?_eq_some_iff.mp hfirst').1
  exact (List.getElem?_inj hlt hreads.names).mp (hfirst'.trans hsecond'.symm)

theorem nodup_namesOf (hreads : table.Reads tree) {ids : List Nat} (hids : ids.Nodup) :
    (table.namesOf ids).Nodup := by
  refine hids.filterMap fun first second name hfirst hsecond => ?_
  obtain ⟨source, hsource, rfl⟩ := Option.map_eq_some_iff.mp hfirst
  obtain ⟨found, hfound, hname⟩ := Option.map_eq_some_iff.mp hsecond
  exact hreads.id_eq_of_name hsource hfound hname.symm

/-- A file that cannot be read cannot be loaded, for the same reason. -/
theorem load_error (hreads : table.Reads tree) (hproper : tree.Proper) {reason : ReadError}
    (hread : tree.read path = .error reason) : table.load tree path = .error reason := by
  rw [FileTree.read] at hread
  rw [load, FileTree.canonical]
  cases hlocate : tree.locate path with
  | error other =>
    rw [hlocate] at hread
    cases hread
    rfl
  | ok route =>
    rw [hlocate] at hread
    have hfind : table.sources.findIdx? (·.name == FileTree.pathOf route) = none := by
      rw [List.findIdx?_eq_none_iff]
      intro source hsource
      obtain ⟨route', hproper', hpath, htext⟩ := hreads.texts source hsource
      rw [beq_eq_false_iff_ne, hpath]
      intro hsame
      obtain rfl := FileTree.eq_of_pathOf hproper' (hproper.locate hlocate) hsame
      simp only [bind, Except.bind, htext] at hread
      cases hread
    simp only [bind, Except.bind, Except.map, hfind, FileTree.read, hlocate] at hread ⊢
    rw [hread]

/-- A file that can be read is loaded. -/
theorem load_ok (hreads : table.Reads tree) (hproper : tree.Proper) {route : Route} {text : String}
    (hread : tree.read path = .ok (route, text)) :
    ∃ id later, table.load tree path = .ok (id, later) ∧ later.Reads tree ∧
      table.Grows later ∧ later.sources[id]? = some { name := FileTree.pathOf route, text } := by
  obtain ⟨hlocate, htext⟩ := FileTree.read_eq_ok.mp hread
  have hroute := hproper.locate hlocate
  rw [load, FileTree.canonical, hlocate]
  cases hfind : table.sources.findIdx? (·.name == FileTree.pathOf route) with
  | some id =>
    refine ⟨id, table, ?_, hreads, fun _ _ hget => hget, ?_⟩
    · simp only [bind, Except.bind, Except.map, hfind]
      rfl
    · obtain ⟨hlt, hname, _⟩ := List.findIdx?_eq_some_iff_getElem.mp hfind
      rw [List.getElem?_eq_getElem hlt]
      obtain ⟨route', hproper', hpath, htext'⟩ :=
        hreads.texts table.sources[id] (List.getElem_mem hlt)
      have hsame := beq_iff_eq.mp hname
      -- The table is searched by canonical paths, and each of these leads to one file.
      obtain rfl := FileTree.eq_of_pathOf hproper' hroute (hpath.symm.trans hsame)
      rw [← hsame, ← Option.some.inj (htext'.symm.trans htext)]
  | none =>
    refine ⟨table.sources.length, { sources := table.sources ++ [_] }, ?_, ?_, ?_,
      List.getElem?_concat_length⟩
    · simp only [bind, Except.bind, Except.map, hfind, hread]
      rfl
    · refine ⟨?_, List.forall_mem_append.mpr ⟨hreads.texts, ?_⟩⟩
      · rw [List.map_append, List.nodup_append]
        refine ⟨hreads.names, List.nodup_singleton _, ?_⟩
        rintro name hname other hother rfl
        obtain ⟨source, hsource, rfl⟩ := List.mem_map.mp hname
        have hne := List.findIdx?_eq_none_iff.mp hfind source hsource
        rw [List.mem_singleton.mp hother] at hne
        simp at hne
      · intro source hsource
        rw [List.mem_singleton.mp hsource]
        exact ⟨route, hroute, rfl, htext⟩
    · intro other found hget
      rw [List.getElem?_append_left (List.getElem?_eq_some_iff.mp hget).1]
      exact hget

end Reads

end SourceTable

namespace Checker

/-- Files by their paths without detours. -/
def namesOf (tree : FileTree) (files : List (String × Language)) : List (String × Language) :=
  files.filterMap fun (path, language) =>
    (tree.canonical path).toOption.map fun name => (name, language)

theorem mem_namesOf {tree : FileTree} {files : List (String × Language)}
    {file : String × Language} : file ∈ namesOf tree files ↔
      ∃ path, (path, file.2) ∈ files ∧ tree.canonical path = .ok file.1 := by
  obtain ⟨name, language⟩ := file
  have hcanonical : ∀ path, (tree.canonical path).toOption = some name ↔
      tree.canonical path = .ok name := by
    intro path
    cases tree.canonical path with
    | error reason => exact ⟨nofun, nofun⟩
    | ok found => exact ⟨fun hsome => congrArg _ (Option.some.inj hsome), fun hok => by cases hok; rfl⟩
  simp only [namesOf, List.mem_filterMap, Option.map_eq_some_iff, Prod.exists, Prod.mk.injEq,
    ↓existsAndEq, true_and, and_true, hcanonical]

theorem languageOf?_of_mem_namesOf {tree : FileTree} (hproper : tree.Proper) {settings : Settings}
    {files : List (String × Language)}
    (hlanguages : ∀ file ∈ files, settings.languageOf? file.1 = some file.2)
    {file : String × Language} (hmem : file ∈ namesOf tree files) :
    settings.languageOf? file.1 = some file.2 := by
  obtain ⟨path, hfile, hcanonical⟩ := mem_namesOf.mp hmem
  exact hproper.languageOf? hcanonical (hlanguages (path, file.2) hfile)

/-- Numbers in a table that stand for files, each of them once. -/
structure Numbers (table : SourceTable) (files : List (String × Language))
    (loaded : List (Nat × Language)) : Prop where
  nodup : (loaded.map (·.1)).Nodup
  sound : ∀ number ∈ loaded, ∃ source, table.sources[number.1]? = some source ∧
    (source.name, number.2) ∈ files
  complete : ∀ file ∈ files, ∃ id source, (id, file.2) ∈ loaded ∧
    table.sources[id]? = some source ∧ source.name = file.1

namespace Numbers

variable {table later : SourceTable} {files : List (String × Language)}
  {loaded : List (Nat × Language)}

theorem initial (table : SourceTable) : Numbers table [] [] :=
  ⟨List.nodup_nil, List.forall_mem_nil _, List.forall_mem_nil _⟩

theorem mono (hnumbers : Numbers table files loaded) (hgrows : table.Grows later) :
    Numbers later files loaded where
  nodup := hnumbers.nodup
  sound number hmem := by
    obtain ⟨source, hsource, hfile⟩ := hnumbers.sound number hmem
    exact ⟨source, hgrows _ _ hsource, hfile⟩
  complete file hmem := by
    obtain ⟨id, source, hid, hsource, hname⟩ := hnumbers.complete file hmem
    exact ⟨id, source, hid, hgrows _ _ hsource, hname⟩

/-- One more file has been read. It may have had its number before, under another path. -/
theorem concat (hnumbers : Numbers table files loaded) {id : Nat} {source : Source}
    {language : Language} (hsource : table.sources[id]? = some source)
    (hknown : ∀ file ∈ files, file.1 = source.name → file.2 = language) :
    Numbers table (files ++ [(source.name, language)])
      (if loaded.any (·.1 == id) then loaded else loaded ++ [(id, language)]) := by
  have hmore : ∀ {file}, file ∈ files → file ∈ files ++ [(source.name, language)] :=
    fun hmem => List.mem_append_left _ hmem
  split
  next hany =>
    obtain ⟨number, hnumber, hid⟩ := List.any_eq_true.mp hany
    obtain rfl := beq_iff_eq.mp hid
    obtain ⟨found, hfound, hfile⟩ := hnumbers.sound number hnumber
    obtain rfl := Option.some.inj (hfound.symm.trans hsource)
    obtain rfl := hknown _ hfile rfl
    refine ⟨hnumbers.nodup, fun other hother => ?_, List.forall_mem_append.mpr ⟨hnumbers.complete, ?_⟩⟩
    · obtain ⟨found, hfound, hmem⟩ := hnumbers.sound other hother
      exact ⟨found, hfound, hmore hmem⟩
    · rw [List.forall_mem_singleton]
      exact ⟨_, _, hnumber, hsource, rfl⟩
  next hnew =>
    have hfresh : id ∉ loaded.map (·.1) := by
      intro hmem
      obtain ⟨number, hnumber, rfl⟩ := List.mem_map.mp hmem
      exact hnew (List.any_eq_true.mpr ⟨number, hnumber, beq_self_eq_true _⟩)
    refine ⟨?_, List.forall_mem_append.mpr ⟨fun other hother => ?_, ?_⟩,
      List.forall_mem_append.mpr ⟨fun file hfile => ?_, ?_⟩⟩
    · rw [List.map_append, List.nodup_append]
      refine ⟨hnumbers.nodup, List.nodup_singleton id, ?_⟩
      rintro other hother _ hlast rfl
      rw [List.mem_singleton.mp hlast] at hother
      exact hfresh hother
    · obtain ⟨found, hfound, hmem⟩ := hnumbers.sound other hother
      exact ⟨found, hfound, hmore hmem⟩
    · rw [List.forall_mem_singleton]
      exact ⟨source, hsource, List.mem_append_right _ (List.mem_singleton_self _)⟩
    · obtain ⟨other, found, hother, hrest⟩ := hnumbers.complete file hfile
      exact ⟨other, found, List.mem_append_left _ hother, hrest⟩
    · rw [List.forall_mem_singleton]
      exact ⟨id, source, List.mem_append_right _ (List.mem_singleton_self _), hsource, rfl⟩

theorem mem_names (hnumbers : Numbers table files loaded) {name : String} {language : Language} :
    (name, language) ∈ files ↔
      ∃ id, (id, language) ∈ loaded ∧ ∃ source, table.sources[id]? = some source ∧
        source.name = name := by
  constructor
  · intro hfile
    obtain ⟨id, source, hid, hrest⟩ := hnumbers.complete _ hfile
    exact ⟨id, hid, source, hrest⟩
  · rintro ⟨id, hid, source, hsource, rfl⟩
    obtain ⟨found, hfound, hfile⟩ := hnumbers.sound _ hid
    obtain rfl := Option.some.inj (hfound.symm.trans hsource)
    exact hfile

/-- The numbers stand for the same names as the files. -/
theorem mem_namesOf (hnumbers : Numbers table files loaded) {name : String} :
    name ∈ table.namesOf (loaded.map (·.1)) ↔ name ∈ files.map (·.1) := by
  simp only [SourceTable.mem_namesOf, List.mem_map, Prod.exists, exists_and_right, exists_eq_right,
    hnumbers.mem_names]
  grind

/-- The numbers of the templates stand for each template once. -/
theorem templates_perm {tree : FileTree} (hnumbers : Numbers table files loaded)
    (hreads : table.Reads tree) :
    (table.namesOf ((loaded.filter (·.2 == .template)).map (·.1))).Perm
      (distinctBy id ((files.filter (·.2 == .template)).map (·.1))) := by
  refine (List.perm_ext_iff_of_nodup
    (hreads.nodup_namesOf (hnumbers.nodup.sublist (List.filter_sublist.map _)))
    (nodup_distinctBy_id _)).mpr fun name => ?_
  rw [mem_distinctBy_id]
  simp only [SourceTable.mem_namesOf, List.mem_map, List.mem_filter, Prod.exists, exists_and_right,
    exists_eq_right, beq_iff_eq, hnumbers.mem_names]

end Numbers

/-- If a file cannot be read, reading ends with the first such file. -/
theorem loadAll_error {tree : FileTree} (hproper : tree.Proper) {table : SourceTable}
    (hreads : table.Reads tree) (loaded : List (Nat × Language)) {files : List (String × Language)}
    (hfiles : ∃ file ∈ files, ∃ reason, tree.read file.1 = .error reason) :
    ∃ file ∈ files, ∃ reason later, tree.read file.1 = .error reason ∧ later.Reads tree ∧
      table.Grows later ∧
      loadAll tree table loaded files = (.error (.unreadable file.1 reason.message), later) := by
  induction files generalizing table loaded with
  | nil =>
    obtain ⟨_, hmem, _⟩ := hfiles
    cases hmem
  | cons file rest ih =>
    obtain ⟨path, language⟩ := file
    cases hread : tree.read path with
    | error reason =>
      refine ⟨_, List.mem_cons_self, reason, table, hread, hreads, fun _ _ hget => hget, ?_⟩
      rw [loadAll, hreads.load_error hproper hread]
    | ok found =>
      obtain ⟨file, hmem, reason, hfail⟩ := hfiles
      have hrest : file ∈ rest := by
        refine List.mem_of_ne_of_mem ?_ hmem
        rintro rfl
        rw [hread] at hfail
        cases hfail
      obtain ⟨id, next, hload, hnext, hgrown, _⟩ := hreads.load_ok hproper hread
      obtain ⟨file, hmem, reason, later, hfail, hlater, hmore, hall⟩ :=
        ih hnext (if loaded.any (·.1 == id) then loaded else loaded ++ [(id, language)])
          ⟨file, hrest, reason, hfail⟩
      refine ⟨file, List.mem_cons_of_mem _ hmem, reason, later, hfail, hlater,
        fun id source hget => hmore id source (hgrown id source hget), ?_⟩
      rw [loadAll, hload]
      exact hall

/-- If all files can be read, each of them has a number in the end. -/
theorem loadAll_ok {tree : FileTree} (hproper : tree.Proper) {settings : Settings}
    {table : SourceTable} (hreads : table.Reads tree) {seen files : List (String × Language)}
    {loaded : List (Nat × Language)} (hnumbers : Numbers table (namesOf tree seen) loaded)
    (hlanguages : ∀ file ∈ seen ++ files, settings.languageOf? file.1 = some file.2)
    (hfiles : ∀ file ∈ files, ∃ found, tree.read file.1 = .ok found) :
    ∃ result later, loadAll tree table loaded files = (.ok result, later) ∧ later.Reads tree ∧
      table.Grows later ∧ Numbers later (namesOf tree (seen ++ files)) result := by
  induction files generalizing table seen loaded with
  | nil =>
    rw [List.append_nil]
    exact ⟨loaded, table, rfl, hreads, fun _ _ hget => hget, hnumbers⟩
  | cons file rest ih =>
    obtain ⟨path, language⟩ := file
    obtain ⟨⟨⟨route, text⟩, hread⟩, hrest⟩ := List.forall_mem_cons.mp hfiles
    obtain ⟨id, next, hload, hnext, hgrown, hsource⟩ := hreads.load_ok hproper hread
    have hcanonical : tree.canonical path = .ok (FileTree.pathOf route) := by
      rw [FileTree.canonical, (FileTree.read_eq_ok.mp hread).1]
      rfl
    have hnames : namesOf tree (seen ++ [(path, language)]) =
        namesOf tree seen ++ [(FileTree.pathOf route, language)] := by
      rw [namesOf, namesOf, List.filterMap_append]
      simp [hcanonical, Except.toOption]
    -- The name of a file tells its language, so two paths to one file agree about it.
    have hknown : ∀ file ∈ namesOf tree seen, file.1 = FileTree.pathOf route → file.2 = language := by
      intro file hfile hname
      have hfound := languageOf?_of_mem_namesOf hproper
        (fun file hmem => hlanguages file (List.mem_append_left _ hmem)) hfile
      have hhere := hproper.languageOf? hcanonical (hlanguages (path, language)
        (List.mem_append_right _ List.mem_cons_self))
      rw [hname, hhere] at hfound
      exact (Option.some.inj hfound).symm
    have hnumbered := (hnumbers.mono hgrown).concat hsource hknown
    rw [← hnames] at hnumbered
    obtain ⟨result, later, hall, hlater, hmore, hresult⟩ := ih hnext hnumbered
      (by rwa [List.append_assoc]) hrest
    refine ⟨result, later, ?_, hlater,
      fun id source hget => hmore id source (hgrown id source hget), ?_⟩
    · rw [loadAll, hload]
      exact hall
    · rwa [List.append_assoc] at hresult

end Checker

end TemplateAnalysis
