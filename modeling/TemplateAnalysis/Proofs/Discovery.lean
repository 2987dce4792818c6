import Mathlib.Data.List.Induction
import TemplateAnalysis.Discovery
import TemplateAnalysis.Proofs.FileTree.Location
import TemplateAnalysis.Proofs.Path.Order
import TemplateAnalysis.Proofs.Sorting

namespace TemplateAnalysis.Discovery

/-- A search from a root visits a place, at a depth and under a path: first the root itself, and from
    every directory that it visits the entries. A directory below the root is left alone if it is one
    that is skipped. -/
inductive Visits (tree : FileTree) (root : String) : Nat → Route → String → Prop
  | root {start : Route} (hstart : tree.locate root = .ok start) : Visits tree root 0 start root
  | entry {depth : Nat} {directory : Route} {path name : String}
      (hvisited : Visits tree root depth directory path)
      (hdirectory : tree.isDirectory directory = true)
      (hsearched : 0 < depth → ∀ last ∈ directory.getLast?, isSkipped last = false)
      (hentry : tree.isDirectory (directory ++ [name]) = true ∨
        directory ++ [name] ∈ tree.files.map Prod.fst) :
      Visits tree root (depth + 1) (directory ++ [name]) (Path.join path name)

/-- Whether a search from a root comes to a place. -/
def Reaches (tree : FileTree) (root : String) (route : Route) : Prop :=
  ∃ depth path, Visits tree root depth route path

variable {tree : FileTree} {settings : Settings} {root path : String} {route : Route} {depth : Nat}

section Visit

theorem below?_eq_some_iff {directory file steps : Route} :
    below? directory file = some steps ↔ file = directory ++ steps := by
  induction directory generalizing file with
  | nil => rw [below?, Option.some.injEq, List.nil_append]
  | cons name directory ih =>
    cases file with
    | nil => simp [below?]
    | cons other file =>
      rw [below?]
      split
      next hsame => rw [ih, hsame, List.cons_append, List.cons.injEq, and_iff_right rfl]
      next hne => simp [Ne.symm hne]

/-- What a search visits lies below its root, and no directory between them is skipped. -/
theorem Visits.exists_steps (hvisits : Visits tree root depth route path) :
    ∃ start steps, tree.locate root = .ok start ∧ route = start ++ steps ∧
      steps.dropLast.any isSkipped = false ∧ path = steps.foldl Path.join root ∧
      depth = steps.length := by
  induction hvisits with
  | root hstart => exact ⟨_, [], hstart, (List.append_nil _).symm, rfl, rfl, rfl⟩
  | @entry depth directory path name _ _ hsearched _ ih =>
    obtain ⟨start, steps, hstart, rfl, hskipped, rfl, rfl⟩ := ih
    refine ⟨start, steps ++ [name], hstart, List.append_assoc .., ?_, ?_, ?_⟩
    · rw [List.dropLast_concat]
      -- The root is searched whatever its name is. Below it, each directory on the way was not
      -- skipped.
      rcases List.eq_nil_or_concat steps with rfl | ⟨before, last, rfl⟩
      · rfl
      · rw [List.concat_eq_append] at hskipped hsearched ⊢
        rw [List.dropLast_concat] at hskipped
        rw [List.any_append, hskipped, Bool.false_or, List.any_cons, List.any_nil, Bool.or_false]
        refine hsearched (by simp) last ?_
        rw [← List.append_assoc, List.getLast?_concat, Option.mem_some]
    · rw [List.foldl_append]
      rfl
    · rw [List.length_append]
      rfl

/-- A search comes to every file below its root if no directory between them is skipped. -/
theorem visits_of_steps {start steps below : Route} (hstart : tree.locate root = .ok start)
    (hfile : start ++ steps ++ below ∈ tree.files.map Prod.fst)
    (hskipped : steps.dropLast.any isSkipped = false) :
    Visits tree root steps.length (start ++ steps) (steps.foldl Path.join root) := by
  -- A visit goes on at its end, so the induction takes the last step away.
  induction steps using List.reverseRecOn generalizing below with
  | nil =>
    rw [List.append_nil]
    exact .root hstart
  | append_singleton steps name ih =>
    rw [List.dropLast_concat] at hskipped
    have hunder : start ++ steps ++ name :: below ∈ tree.files.map Prod.fst := by
      simpa [List.append_assoc] using hfile
    have hbefore : steps.dropLast.any isSkipped = false := by
      rw [List.any_eq_false] at hskipped ⊢
      exact fun other hmem => hskipped other (steps.dropLast_sublist.subset hmem)
    rw [List.foldl_append, List.length_append, ← List.append_assoc]
    refine .entry (ih hunder hbefore) (FileTree.isDirectory_of_file hunder) (fun hdepth last hlast => ?_) ?_
    · rw [List.getLast?_append_of_ne_nil _ (List.length_pos_iff.mp hdepth)] at hlast
      simpa using List.any_eq_false.mp hskipped last (List.mem_of_getLast? hlast)
    · cases below with
      | nil => exact .inr hunder
      | cons next below =>
        rw [← List.append_assoc start] at hfile
        exact .inl (FileTree.isDirectory_of_file hfile)

/-- The files that are listed for a root are those that the search visits, each under the path of its
    visit. -/
theorem mem_visit_iff : (route, path) ∈ visit tree root ↔
    route ∈ tree.files.map Prod.fst ∧ ∃ depth, Visits tree root depth route path := by
  rw [visit]
  constructor
  · intro hmem
    split at hmem
    next => cases hmem
    next start hstart =>
      obtain ⟨file, hfile, hlisted⟩ := List.mem_filterMap.mp hmem
      obtain ⟨steps, hsteps, hlisted⟩ := Option.bind_eq_some_iff.mp hlisted
      split at hlisted
      next => cases hlisted
      next hskipped =>
        cases hlisted
        have hroute := below?_eq_some_iff.mp hsteps
        have hlisted : file.1 ∈ tree.files.map Prod.fst := List.mem_map_of_mem hfile
        refine ⟨hlisted, steps.length, ?_⟩
        rw [hroute] at hlisted ⊢
        rw [← List.append_nil (start ++ steps)] at hlisted
        exact visits_of_steps hstart hlisted ((Bool.not_eq_true _).mp hskipped)
  · rintro ⟨hfile, depth, hvisits⟩
    obtain ⟨start, steps, hstart, rfl, hskipped, rfl, -⟩ := hvisits.exists_steps
    obtain ⟨⟨_, text⟩, hfile, rfl⟩ := List.mem_map.mp hfile
    rw [hstart]
    refine List.mem_filterMap.mpr ⟨_, hfile, ?_⟩
    simp only [below?_eq_some_iff.mpr rfl, Option.bind_some, hskipped]
    rfl

/-- A search visits a place under one path only. -/
theorem Visits.path_unique {otherDepth : Nat} {other : String}
    (hvisits : Visits tree root depth route path) (hother : Visits tree root otherDepth route other) :
    path = other := by
  obtain ⟨start, steps, hstart, rfl, -, rfl, -⟩ := hvisits.exists_steps
  obtain ⟨otherStart, otherSteps, hotherStart, hroute, -, rfl, -⟩ := hother.exists_steps
  rw [hstart, Except.ok.injEq] at hotherStart
  rw [hotherStart] at hroute
  rw [List.append_cancel_left hroute]

/-- The path of a visit leads to the place that is visited. -/
theorem Visits.locate (hvisits : Visits tree root depth route path)
    (hnames : ∀ name ∈ route, Path.IsName name) : tree.locate path = .ok route := by
  induction hvisits with
  | root hstart => exact hstart
  | entry _ hdirectory _ hentry ih =>
    obtain ⟨hbefore, hname⟩ := List.forall_mem_append.mp hnames
    exact FileTree.locate_join (ih hbefore) hdirectory (List.forall_mem_singleton.mp hname) hentry

end Visit

section Order

/-- One file stands before another: a program before a template, and otherwise by the steps of the
    paths. -/
theorem precedes_eq_true {first second : Found} : precedes first second = true ↔
    (first.language = .template → second.language = .template) ∧
      ((first.language = .template ↔ second.language = .template) →
        Path.precedes first.path second.path = true) := by
  have htemplate : ∀ language : Language, (language == .template) = true ↔ language = .template :=
    fun language => beq_iff_eq
  rw [precedes]
  by_cases hfirst : first.language = .template <;> by_cases hsecond : second.language = .template <;>
    simp [hfirst, hsecond]

theorem precedes_trans (first second third : Found) (hfirst : precedes first second = true)
    (hsecond : precedes second third = true) : precedes first third = true := by
  rw [precedes_eq_true] at hfirst hsecond ⊢
  refine ⟨hsecond.1 ∘ hfirst.1, fun hgroup => ?_⟩
  have hmiddle : first.language = .template ↔ second.language = .template :=
    ⟨hfirst.1, hgroup.mpr ∘ hsecond.1⟩
  exact Path.precedes_trans (hfirst.2 hmiddle) (hsecond.2 (hmiddle.symm.trans hgroup))

theorem precedes_total (first second : Found) :
    (precedes first second || precedes second first) = true := by
  rw [Bool.or_eq_true, precedes_eq_true, precedes_eq_true]
  by_cases hfirst : first.language = .template <;> by_cases hsecond : second.language = .template
  · simpa [hfirst, hsecond] using Path.precedes_total first.path second.path
  · exact .inr ⟨fun hno => absurd hno hsecond, fun hgroup => absurd (hgroup.mpr hfirst) hsecond⟩
  · exact .inl ⟨fun hno => absurd hno hfirst, fun hgroup => absurd (hgroup.mpr hsecond) hfirst⟩
  · simpa [hfirst, hsecond] using Path.precedes_total first.path second.path

end Order

section Found

theorem mem_findIn_iff {file : Found} : file ∈ findIn settings tree root ↔
    file.route ∈ tree.files.map Prod.fst ∧ settings.languageOf? file.path = some file.language ∧
      ∃ depth, Visits tree root depth file.route file.path := by
  rw [findIn, List.mem_filterMap]
  constructor
  · rintro ⟨⟨route, path⟩, hvisited, hfound⟩
    obtain ⟨language, hlanguage, rfl⟩ := Option.map_eq_some_iff.mp hfound
    obtain ⟨hfile, hvisits⟩ := mem_visit_iff.mp hvisited
    exact ⟨hfile, hlanguage, hvisits⟩
  · rintro ⟨hfile, hlanguage, hvisits⟩
    exact ⟨(file.route, file.path), mem_visit_iff.mpr ⟨hfile, hvisits⟩, Option.map_eq_some_iff.mpr
      ⟨file.language, hlanguage, rfl⟩⟩

theorem eq_of_mem_findIn {file other : Found} (hfile : file ∈ findIn settings tree root)
    (hother : other ∈ findIn settings tree root) (hroute : file.route = other.route) : file = other := by
  obtain ⟨-, hlanguage, depth, hvisits⟩ := mem_findIn_iff.mp hfile
  obtain ⟨-, hotherLanguage, otherDepth, hotherVisits⟩ := mem_findIn_iff.mp hother
  rw [hroute] at hvisits
  have hpath := hvisits.path_unique hotherVisits
  rw [hpath, hotherLanguage, Option.some.injEq] at hlanguage
  cases file
  cases other
  simp_all

theorem find?_findIn_eq_some {file : Found} :
    (findIn settings tree root).find? (fun other => other.route == file.route) = some file ↔
      file ∈ findIn settings tree root := by
  refine ⟨List.mem_of_find?_eq_some, fun hmem => ?_⟩
  have hfound : ((findIn settings tree root).find? fun other => other.route == file.route).isSome = true :=
    List.find?_isSome.mpr ⟨file, hmem, beq_self_eq_true file.route⟩
  obtain ⟨other, hother⟩ := Option.isSome_iff_exists.mp hfound
  have hroute : other.route = file.route := by simpa using List.find?_some hother
  rwa [eq_of_mem_findIn (List.mem_of_find?_eq_some hother) hmem hroute] at hother

/-- What a file holds is told by its name. -/
theorem languageOf?_of_visits (htree : tree.WellFormed) (hfile : route ∈ tree.files.map Prod.fst)
    (hvisits : Visits tree root depth route path) :
    settings.languageOf? path = settings.languageOf? (FileTree.pathOf route) := by
  obtain ⟨file, hmem, rfl⟩ := List.mem_map.mp hfile
  have hnames := htree.names file hmem
  refine FileTree.languageOf?_of_locate settings (Route.proper_of_isName hnames) (fun hlast => ?_)
    (hvisits.locate hnames) (htree.leaves file hmem)
  exact (hnames ".." (List.mem_of_getLast? hlast)).notParent rfl

theorem find?_findIn_eq_none (htree : tree.WellFormed) (hfile : route ∈ tree.files.map Prod.fst)
    (hlanguage : (settings.languageOf? (FileTree.pathOf route)).isSome = true) :
    (findIn settings tree root).find? (fun other => other.route == route) = none ↔
      ¬Reaches tree root route := by
  rw [List.find?_eq_none]
  constructor
  · rintro hnone ⟨depth, path, hvisits⟩
    rw [← languageOf?_of_visits htree hfile hvisits] at hlanguage
    obtain ⟨language, hlanguage⟩ := Option.isSome_iff_exists.mp hlanguage
    exact hnone ⟨route, path, language⟩ (mem_findIn_iff.mpr ⟨hfile, hlanguage, depth, hvisits⟩)
      (beq_self_eq_true route)
  · rintro hno file hmem hroute
    obtain ⟨-, -, depth, hvisits⟩ := mem_findIn_iff.mp hmem
    rw [eq_of_beq hroute] at hvisits
    exact hno ⟨depth, file.path, hvisits⟩

variable {roots : List String}

theorem mem_files_iff (htree : tree.WellFormed) {file : Found} :
    file ∈ files settings tree roots ↔ file.route ∈ tree.files.map Prod.fst ∧
      settings.languageOf? (FileTree.pathOf file.route) = some file.language ∧
        ∃ before root after, roots = before ++ root :: after ∧
          (∃ depth, Visits tree root depth file.route file.path) ∧
            ∀ earlier ∈ before, ¬Reaches tree earlier file.route := by
  -- Of the files with one route, the first one in the first root stays.
  rw [files, List.mem_mergeSort, mem_distinctBy_iff, List.find?_flatMap, List.findSome?_eq_some_iff]
  constructor
  · rintro ⟨before, root, after, hroots, hfound, hbefore⟩
    obtain ⟨hfile, hlanguage, depth, hvisits⟩ := mem_findIn_iff.mp (List.mem_of_find?_eq_some hfound)
    rw [languageOf?_of_visits htree hfile hvisits] at hlanguage
    have hknown := Option.isSome_iff_exists.mpr ⟨_, hlanguage⟩
    exact ⟨hfile, hlanguage, before, root, after, hroots, ⟨depth, hvisits⟩, fun earlier hearlier =>
      (find?_findIn_eq_none htree hfile hknown).mp (hbefore earlier hearlier)⟩
  · rintro ⟨hfile, hlanguage, before, root, after, hroots, ⟨depth, hvisits⟩, hbefore⟩
    have hknown := Option.isSome_iff_exists.mpr ⟨_, hlanguage⟩
    rw [← languageOf?_of_visits htree hfile hvisits] at hlanguage
    exact ⟨before, root, after, hroots,
      find?_findIn_eq_some.mpr (mem_findIn_iff.mpr ⟨hfile, hlanguage, depth, hvisits⟩),
      fun earlier hearlier => (find?_findIn_eq_none htree hfile hknown).mpr (hbefore earlier hearlier)⟩

theorem mem_route_files_iff (htree : tree.WellFormed) :
    route ∈ (files settings tree roots).map Found.route ↔ route ∈ tree.files.map Prod.fst ∧
      (settings.languageOf? (FileTree.pathOf route)).isSome = true ∧
        ∃ root ∈ roots, Reaches tree root route := by
  rw [files, ((List.mergeSort_perm _ precedes).map Found.route).mem_iff, mem_map_distinctBy, List.mem_map]
  constructor
  · rintro ⟨file, hmem, rfl⟩
    obtain ⟨root, hroot, hmem⟩ := List.mem_flatMap.mp hmem
    obtain ⟨hfile, hlanguage, depth, hvisits⟩ := mem_findIn_iff.mp hmem
    rw [languageOf?_of_visits htree hfile hvisits] at hlanguage
    exact ⟨hfile, Option.isSome_iff_exists.mpr ⟨_, hlanguage⟩, root, hroot, depth, file.path, hvisits⟩
  · rintro ⟨hfile, hknown, root, hroot, depth, path, hvisits⟩
    obtain ⟨language, hlanguage⟩ := Option.isSome_iff_exists.mp hknown
    rw [← languageOf?_of_visits htree hfile hvisits] at hlanguage
    exact ⟨⟨route, path, language⟩, List.mem_flatMap.mpr ⟨root, hroot, mem_findIn_iff.mpr
      ⟨hfile, hlanguage, depth, hvisits⟩⟩, rfl⟩

theorem nodup_route_files (settings : Settings) (tree : FileTree) (roots : List String) :
    ((files settings tree roots).map Found.route).Nodup :=
  ((List.mergeSort_perm _ precedes).map Found.route).nodup_iff.mpr (nodup_map_distinctBy Found.route _)

theorem locate_of_mem_files (htree : tree.WellFormed) {file : Found}
    (hmem : file ∈ files settings tree roots) : tree.locate file.path = .ok file.route := by
  obtain ⟨hfile, _, _, _, _, _, ⟨depth, hvisits⟩, _⟩ := (mem_files_iff htree).mp hmem
  obtain ⟨listed, hlisted, hroute⟩ := List.mem_map.mp hfile
  exact hvisits.locate (hroute ▸ htree.names listed hlisted)

/-- Different files have paths of different steps. -/
theorem before_of_precedes (htree : tree.WellFormed) {first second : Found}
    (hfirst : first ∈ files settings tree roots) (hsecond : second ∈ files settings tree roots)
    (hne : first.route ≠ second.route) (hprecedes : Path.precedes first.path second.path = true) :
    Path.Before first.path second.path := by
  refine (Path.precedes_eq_true.mp hprecedes).resolve_left fun hsteps => hne ?_
  rw [FileTree.locate_eq_foldl (locate_of_mem_files htree hfirst), hsteps,
    ← FileTree.locate_eq_foldl (locate_of_mem_files htree hsecond)]

/-- What a search is to find in a tree below some roots. -/
structure Finds (settings : Settings) (tree : FileTree) (roots : List String) (found : List Found) :
    Prop where
  /-- A file is found if its extension is known and one of the roots reaches it. -/
  complete : ∀ route, route ∈ found.map Found.route ↔ route ∈ tree.files.map Prod.fst ∧
    (settings.languageOf? (FileTree.pathOf route)).isSome = true ∧ ∃ root ∈ roots, Reaches tree root route
  /-- No file is found twice. -/
  once : (found.map Found.route).Nodup
  /-- Its extension tells what it holds. -/
  language : ∀ file ∈ found,
    settings.languageOf? (FileTree.pathOf file.route) = some file.language
  /-- Its path is the one under which the first root that reaches it does so. -/
  spelled : ∀ file ∈ found, ∃ before root after, roots = before ++ root :: after ∧
    (∃ depth, Visits tree root depth file.route file.path) ∧
      ∀ earlier ∈ before, ¬Reaches tree earlier file.route
  /-- The path leads to it. -/
  leads : ∀ file ∈ found, tree.locate file.path = .ok file.route
  /-- No program comes after a template. -/
  programsFirst : found.Pairwise fun first second =>
    first.language = .template → second.language = .template
  /-- Programs among themselves and templates among themselves stand in the order of their paths. -/
  sorted : found.Pairwise fun first second =>
    (first.language = .template ↔ second.language = .template) → Path.Before first.path second.path

/-- A search below some roots, which may lie within each other, be repeated, be missing or be files, finds
    what it is to find. -/
theorem files_finds (settings : Settings) (htree : tree.WellFormed) (roots : List String) :
    Finds settings tree roots (files settings tree roots) := by
  have honce := nodup_route_files settings tree roots
  have hsorted : (files settings tree roots).Pairwise fun first second => precedes first second = true :=
    List.pairwise_mergeSort precedes_trans precedes_total _
  refine
    { complete := fun route => mem_route_files_iff htree
      once := honce
      language := fun file hmem => ((mem_files_iff htree).mp hmem).2.1
      spelled := fun file hmem => ((mem_files_iff htree).mp hmem).2.2
      leads := fun file hmem => locate_of_mem_files htree hmem
      programsFirst := hsorted.imp fun hprecedes => (precedes_eq_true.mp hprecedes).1
      sorted := ?_ }
  refine (hsorted.and (List.pairwise_map.mp honce)).imp_of_mem fun hfirst hsecond hpair hgroup => ?_
  exact before_of_precedes htree hfirst hsecond hpair.2 ((precedes_eq_true.mp hpair.1).2 hgroup)

/-- A site with a hidden directory, a directory of build results and a file of no known kind. -/
def site : FileTree where
  workingDirectory := ["srv"]
  files := [(["srv", "site", "views.py"], ""), (["srv", "site", "pages", "home.html"], ""),
    (["srv", "site", ".drafts", "new.html"], ""), (["srv", "site", "target", "old.html"], ""),
    (["srv", "site", "notes.txt"], "")]

/-- A root that is hidden, one around it, one within the second, a missing one and a file. -/
def siteRoots : List String :=
  ["site/.drafts", "./site", "site/pages", "gone", "site/views.py"]

theorem files_finds_site :
    files {} site siteRoots =
        [⟨["srv", "site", "views.py"], "./site/views.py", .host .python⟩,
          ⟨["srv", "site", "pages", "home.html"], "./site/pages/home.html", .template⟩,
          ⟨["srv", "site", ".drafts", "new.html"], "site/.drafts/new.html", .template⟩] ∧
      site.WellFormed ∧ Finds {} site siteRoots (files {} site siteRoots) := by
  have htree : site.WellFormed := by decide +kernel
  refine ⟨?_, htree, files_finds {} htree siteRoots⟩
  have hfound : distinctBy Found.route (siteRoots.flatMap (findIn {} site)) =
      [⟨["srv", "site", ".drafts", "new.html"], "site/.drafts/new.html", .template⟩] ++
        [⟨["srv", "site", "views.py"], "./site/views.py", .host .python⟩,
          ⟨["srv", "site", "pages", "home.html"], "./site/pages/home.html", .template⟩] := by
    decide +kernel
  -- The root that is searched first holds what comes last.
  rw [files, hfound, mergeSort_append_swap precedes_trans precedes_total (by decide +kernel),
    List.mergeSort_singleton, List.mergeSort_of_pairwise (by decide +kernel)]
  rfl

end Found

end TemplateAnalysis.Discovery
