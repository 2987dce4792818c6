import TemplateAnalysis.Proofs.Checker.Contents

namespace TemplateAnalysis.Checker

/-- What a checker reports about the file with a name. -/
def report (checker : Checker) (name : String) : List String :=
  match checker.sources.sources.find? (·.name == name) with
  | some source => ((checker.workspace.undefined? name).1.getD []).map (Diagnostic.ofUndefined source)
  | none => []

/-- The files that a run on some paths is about. -/
def filesAt (settings : Settings) (tree : FileTree) (paths : List String) :
    List (String × Language) :=
  recognised settings (expand settings tree paths)

/-- Whether all files that a run is about can be read. -/
def Readable (settings : Settings) (tree : FileTree) (paths : List String) : Prop :=
  ∀ file ∈ filesAt settings tree paths, ∃ found, tree.read file.1 = .ok found

/-- The files of a run by their paths without detours. -/
def namesAt (settings : Settings) (tree : FileTree) (paths : List String) : List String :=
  (namesOf tree (filesAt settings tree paths)).map (·.1)

/-- The templates of a run by their paths without detours, each of them once. -/
def templatesAt (settings : Settings) (tree : FileTree) (paths : List String) : List String :=
  distinctBy id (((namesOf tree (filesAt settings tree paths)).filter (·.2 == .template)).map (·.1))

theorem namesAt_of_mem_templatesAt {settings : Settings} {tree : FileTree} {paths : List String}
    {name : String} (hname : name ∈ templatesAt settings tree paths) :
    name ∈ namesAt settings tree paths := by
  obtain ⟨file, hfile, rfl⟩ := List.mem_map.mp (mem_distinctBy_id.mp hname)
  exact List.mem_map_of_mem (List.mem_filter.mp hfile).1

/-- A checker has written exactly the files with some names into its workspace. -/
structure Knows (settings : Settings) (tree : FileTree) (names : List String) (checker : Checker) :
    Prop where
  reads : checker.sources.Reads tree
  contains : ∃ uploads, Contains settings checker.sources names uploads checker.workspace

section Report

variable {settings : Settings} {tree : FileTree} {names others : List String}
  {checker other : Checker} {uploads : List Upload} {table : SourceTable} {workspace : Workspace}

theorem find?_eq_some (hreads : table.Reads tree) {source : Source} (hsource : source ∈ table.sources) :
    table.sources.find? (·.name == source.name) = some source := by
  cases hfind : table.sources.find? (·.name == source.name) with
  | none =>
    have hne := List.find?_eq_none.mp hfind source hsource
    simp at hne
  | some found =>
    have hname := List.find?_some hfind
    rw [hreads.eq_of_name hreads (List.mem_of_find?_eq_some hfind) hsource (beq_iff_eq.mp hname)]

/-- Two checkers that have written the same files report the same about each of them. -/
theorem Knows.report_congr (hknows : Knows settings tree names checker)
    (hother : Knows settings tree others other) (hsubset : names ⊆ others) (hsubset' : others ⊆ names)
    {name : String} (hname : name ∈ names) : report checker name = report other name := by
  obtain ⟨uploads, hcontains⟩ := hknows.contains
  obtain ⟨uploads', hcontains'⟩ := hother.contains
  obtain ⟨_, _, source, hsource, rfl, _⟩ := hcontains.document_of_name hname
  obtain ⟨_, _, source', hsource', hsame, _⟩ := hcontains'.document_of_name (hsubset hname)
  obtain rfl := hother.reads.eq_of_name hknows.reads hsource' hsource hsame
  rw [report, report, find?_eq_some hknows.reads hsource, find?_eq_some hother.reads hsource',
    hcontains.undefined?_congr hcontains' hknows.reads hother.reads hsubset hsubset' hname]

/-- What is reported about a file changes nothing that is written. -/
theorem diagnostics_eq (hreads : table.Reads tree)
    (hcontains : Contains settings table names uploads workspace) {id : Nat} {source : Source}
    (hsource : table.sources[id]? = some source) :
    (diagnostics table workspace id).1 = report { workspace, sources := table } source.name ∧
      Contains settings table names uploads (diagnostics table workspace id).2 := by
  rw [diagnostics, report, hsource, find?_eq_some hreads (List.mem_of_getElem? hsource)]
  exact ⟨rfl, { hcontains with holds := hcontains.holds.answer (.undefined source.name) }⟩

/-- The diagnostics of several files are what the checker reports about each of them. -/
theorem diagnosticsOfAll_eq (hreads : table.Reads tree)
    (hcontains : Contains settings table names uploads workspace) {ids : List Nat}
    (hids : ∀ id ∈ ids, ∃ source, table.sources[id]? = some source ∧ source.name ∈ names) :
    (diagnosticsOfAll table workspace ids).1 =
        (table.namesOf ids).flatMap (report { workspace, sources := table }) ∧
      Contains settings table names uploads (diagnosticsOfAll table workspace ids).2 := by
  induction ids generalizing workspace with
  | nil => exact ⟨rfl, hcontains⟩
  | cons id rest ih =>
    obtain ⟨⟨source, hsource, _⟩, hrest⟩ := List.forall_mem_cons.mp hids
    obtain ⟨hfound, hnext⟩ := diagnostics_eq hreads hcontains hsource
    obtain ⟨hlater, hlast⟩ := ih hnext hrest
    refine ⟨?_, hlast⟩
    rw [diagnosticsOfAll, SourceTable.namesOf, List.filterMap_cons, hsource]
    simp only [hfound, hlater, Option.map_some, List.flatMap_cons]
    congr 1
    refine List.flatMap_congr fun name hname => ?_
    obtain ⟨other, hother, source, hget, rfl⟩ := SourceTable.mem_namesOf.mp hname
    obtain ⟨found, hgetFound, hmem⟩ := hrest other hother
    obtain rfl := Option.some.inj (hget.symm.trans hgetFound)
    exact Knows.report_congr ⟨hreads, uploads, hnext⟩ ⟨hreads, uploads, hcontains⟩
      (List.Subset.refl _) (List.Subset.refl _) hmem

end Report

section Check

variable {settings : Settings} {tree : FileTree} {names : List String} {checker : Checker}

theorem Knows.settings_eq (hknows : Knows settings tree names checker) :
    checker.workspace.settings = settings := by
  obtain ⟨_, hcontains⟩ := hknows.contains
  exact hcontains.holds.settings

theorem Knows.initial (settings : Settings) (tree : FileTree) :
    Knows settings tree [] (.ofSettings settings) :=
  ⟨.initial tree, [], .initial settings {}⟩

theorem languageOf?_of_mem_filesAt {paths : List String} {file : String × Language}
    (hmem : file ∈ filesAt settings tree paths) : settings.languageOf? file.1 = some file.2 := by
  obtain ⟨path, _, hlanguage⟩ := List.mem_filterMap.mp hmem
  obtain ⟨language, hsome, rfl⟩ := Option.map_eq_some_iff.mp hlanguage
  exact hsome

theorem not_readable_iff {paths : List String} : ¬ Readable settings tree paths ↔
    ∃ file ∈ filesAt settings tree paths, ∃ reason, tree.read file.1 = .error reason := by
  have herror : ∀ path, (¬ ∃ found, tree.read path = .ok found) ↔
      ∃ reason, tree.read path = .error reason := by
    intro path
    cases tree.read path <;> simp
  simp only [Readable, not_forall, herror, exists_prop]

/-- A run fails at a file that cannot be read, and then it writes nothing. -/
theorem Knows.check_error (hknows : Knows settings tree names checker) (hproper : tree.Proper)
    {paths : List String} (hfiles : ¬ Readable settings tree paths) :
    ∃ file ∈ filesAt settings tree paths, ∃ reason, tree.read file.1 = .error reason ∧
      (checker.check tree paths).1 = .error (.unreadable file.1 reason.message) ∧
      (checker.check tree paths).2.workspace = checker.workspace ∧
      Knows settings tree names (checker.check tree paths).2 := by
  obtain ⟨file, hmem, reason, later, hread, hlater, hgrows, hload⟩ :=
    loadAll_error hproper hknows.reads [] (not_readable_iff.mp hfiles)
  have hcheck : checker.check tree paths =
      (.error (.unreadable file.1 reason.message), { checker with sources := later }) := by
    rw [filesAt, ← hknows.settings_eq] at hload
    rw [check, hload]
  obtain ⟨uploads, hcontains⟩ := hknows.contains
  refine ⟨file, hmem, reason, hread, ?_, ?_, ?_⟩
  · rw [hcheck]
  · rw [hcheck]
  · rw [hcheck]
    exact ⟨hlater, uploads, hcontains.mono hgrows⟩

/-- A run whose files have all been read writes programs first, and then asks about the templates. -/
theorem check_of_loadAll {paths : List String} {loaded : List (Nat × Language)} {later : SourceTable}
    (hload : loadAll tree checker.sources [] (filesAt checker.workspace.settings tree paths) =
      (.ok loaded, later)) :
    let templates := loaded.filter (·.2 == .template)
    let filled := ((loaded.filter fun number => !(number.2 == .template)) ++ templates).foldl
      (fun workspace (id, _) => addSource later workspace id) checker.workspace
    checker.check tree paths = (.ok (diagnosticsOfAll later filled (templates.map (·.1))).1,
      { workspace := (diagnosticsOfAll later filled (templates.map (·.1))).2, sources := later }) := by
  rw [filesAt] at hload
  rw [check, hload]
  simp only [List.partition_eq_filter_filter]
  rfl

/-- A run that can read all its files writes them and reports about its templates. -/
theorem Knows.check_ok (hknows : Knows settings tree names checker) (hproper : tree.Proper)
    {paths : List String} (hfiles : Readable settings tree paths) :
    Knows settings tree (names ++ namesAt settings tree paths) (checker.check tree paths).2 ∧
      ∃ found, (checker.check tree paths).1 = .ok found ∧
        found.Perm ((templatesAt settings tree paths).flatMap
          (report (checker.check tree paths).2)) := by
  have hnone : Numbers checker.sources (namesOf tree []) [] := .initial checker.sources
  have hlanguages : ∀ file ∈ [] ++ filesAt settings tree paths,
      settings.languageOf? file.1 = some file.2 := fun file => languageOf?_of_mem_filesAt
  obtain ⟨loaded, later, hload, hlater, hgrows, hnumbers⟩ :=
    loadAll_ok hproper hknows.reads hnone hlanguages hfiles
  rw [List.nil_append] at hnumbers
  obtain ⟨uploads, hcontains⟩ := hknows.contains
  have hgiven : ∀ number ∈ loaded, ∃ source, later.sources[number.1]? = some source :=
    fun number hmem => (hnumbers.sound number hmem).imp fun _ hsource => hsource.1
  -- Programs are written first, but the order does not matter to which files are there.
  have hperm : ((loaded.filter fun number => !(number.2 == .template)) ++
      loaded.filter (·.2 == .template)).Perm loaded :=
    List.perm_append_comm.trans (List.filter_append_perm _ loaded)
  -- What an earlier run has loaded stays, because the table of sources only grows.
  obtain ⟨written, hwritten⟩ := (hcontains.mono hgrows).foldl fun number hmem =>
    hgiven number (hperm.mem_iff.mp hmem)
  have hnames : ∀ name, name ∈ namesAt settings tree paths ↔
      name ∈ later.namesOf (((loaded.filter fun number => !(number.2 == .template)) ++
        loaded.filter (·.2 == .template)).map (·.1)) := by
    intro name
    rw [namesAt, ← hnumbers.mem_namesOf, SourceTable.mem_namesOf, SourceTable.mem_namesOf]
    simp only [(hperm.map (·.1)).mem_iff]
  have hknown : Contains settings later (names ++ namesAt settings tree paths) written _ :=
    hwritten.congr fun name => by rw [List.mem_append, List.mem_append, hnames]
  have htemplates : ∀ id ∈ (loaded.filter (·.2 == .template)).map (·.1),
      ∃ source, later.sources[id]? = some source ∧
        source.name ∈ names ++ namesAt settings tree paths := by
    intro id hid
    obtain ⟨number, hnumber, rfl⟩ := List.mem_map.mp hid
    obtain ⟨source, hsource, hfile⟩ := hnumbers.sound number (List.mem_filter.mp hnumber).1
    exact ⟨source, hsource, List.mem_append_right _ (List.mem_map_of_mem hfile)⟩
  obtain ⟨hfound, hlast⟩ := diagnosticsOfAll_eq hlater hknown htemplates
  rw [← hknows.settings_eq] at hload
  have hcheck := check_of_loadAll hload
  have hafter : Knows settings tree (names ++ namesAt settings tree paths)
      (checker.check tree paths).2 := by
    rw [hcheck]
    exact ⟨hlater, written, hlast⟩
  refine ⟨hafter, _, congrArg Prod.fst hcheck, ?_⟩
  rw [hfound]
  refine ((hnumbers.templates_perm hlater).flatMap_right _).trans (.of_eq ?_)
  refine List.flatMap_congr fun name hname => ?_
  exact Knows.report_congr ⟨hlater, written, hknown⟩ hafter (List.Subset.refl _)
    (List.Subset.refl _) (List.mem_append_right _ (namesAt_of_mem_templatesAt hname))

end Check

section Runs

variable {settings : Settings} {tree : FileTree}

/-- The checker after several runs over one tree. -/
def after (settings : Settings) (tree : FileTree) (runs : List (List String)) : Checker :=
  runs.foldl (fun checker paths => (checker.check tree paths).2) (.ofSettings settings)

/-- The paths of those of several runs that succeed. -/
def succeeded (tree : FileTree) (checker : Checker) : List (List String) → List String
  | [] => []
  | paths :: rest =>
    (match (checker.check tree paths).1 with
      | .ok _ => paths
      | .error _ => []) ++ succeeded tree (checker.check tree paths).2 rest

theorem filesAt_append (first second : List String) : filesAt settings tree (first ++ second) =
    filesAt settings tree first ++ filesAt settings tree second := by
  rw [filesAt, expand, List.flatMap_append, recognised, List.filterMap_append]
  rfl

theorem namesAt_append (first second : List String) : namesAt settings tree (first ++ second) =
    namesAt settings tree first ++ namesAt settings tree second := by
  rw [namesAt, filesAt_append, namesOf, List.filterMap_append, List.map_append]
  rfl

theorem readable_append {first second : List String} (hfirst : Readable settings tree first)
    (hsecond : Readable settings tree second) : Readable settings tree (first ++ second) := by
  rw [Readable, filesAt_append]
  exact List.forall_mem_append.mpr ⟨hfirst, hsecond⟩

/-- After several runs, a checker has written the files of those that succeeded. -/
theorem Knows.foldl {names : List String} {checker : Checker}
    (hknows : Knows settings tree names checker) (hproper : tree.Proper) (runs : List (List String)) :
    Readable settings tree (succeeded tree checker runs) ∧
      Knows settings tree (names ++ namesAt settings tree (succeeded tree checker runs))
        (runs.foldl (fun checker paths => (checker.check tree paths).2) checker) := by
  induction runs generalizing names checker with
  | nil =>
    refine ⟨List.forall_mem_nil _, ?_⟩
    rw [show namesAt settings tree (succeeded tree checker []) = [] from rfl, List.append_nil]
    exact hknows
  | cons paths rest ih =>
    by_cases hfiles : Readable settings tree paths
    · obtain ⟨hnext, found, hfound, _⟩ := hknows.check_ok hproper hfiles
      obtain ⟨hreadable, hlast⟩ := ih hnext
      have hsucceeded : succeeded tree checker (paths :: rest) =
          paths ++ succeeded tree (checker.check tree paths).2 rest := by
        rw [succeeded, hfound]
      rw [hsucceeded, namesAt_append, ← List.append_assoc]
      exact ⟨readable_append hfiles hreadable, hlast⟩
    · obtain ⟨file, _, reason, _, hfail, _, hnext⟩ := hknows.check_error hproper hfiles
      have hsucceeded : succeeded tree checker (paths :: rest) =
          succeeded tree (checker.check tree paths).2 rest := by
        rw [succeeded, hfail, List.nil_append]
      rw [hsucceeded]
      exact ih hnext

theorem Knows.after (hproper : tree.Proper) (settings : Settings) (runs : List (List String)) :
    Readable settings tree (succeeded tree (.ofSettings settings) runs) ∧
      Knows settings tree (namesAt settings tree (succeeded tree (.ofSettings settings) runs))
        (after settings tree runs) :=
  (Knows.initial settings tree).foldl hproper runs

section Answers

variable {names : List String} {checker : Checker} {paths : List String}

theorem Knows.check_eq_ok (hknows : Knows settings tree names checker) (hproper : tree.Proper)
    {found : List String} (hfound : (checker.check tree paths).1 = .ok found) :
    Readable settings tree paths ∧
      Knows settings tree (names ++ namesAt settings tree paths) (checker.check tree paths).2 ∧
      found.Perm ((templatesAt settings tree paths).flatMap
        (report (checker.check tree paths).2)) := by
  by_cases hfiles : Readable settings tree paths
  · obtain ⟨hnext, found', hfound', hperm⟩ := hknows.check_ok hproper hfiles
    rw [hfound] at hfound'
    cases hfound'
    exact ⟨hfiles, hnext, hperm⟩
  · obtain ⟨_, _, _, _, hfail, _⟩ := hknows.check_error hproper hfiles
    rw [hfound] at hfail
    cases hfail

end Answers

end Runs

end TemplateAnalysis.Checker
