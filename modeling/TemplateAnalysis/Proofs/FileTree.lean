import Mathlib.Tactic.SplitIfs
import TemplateAnalysis.FileTree
import TemplateAnalysis.Settings

namespace TemplateAnalysis

namespace Text

variable {separator : Char} {piece text : List Char}

theorem pieces_ne_nil (separator : Char) (text : List Char) : pieces separator text ≠ [] := by
  cases text with
  | nil => exact List.cons_ne_nil _ _
  | cons c rest =>
    rw [pieces]
    split
    · exact List.cons_ne_nil _ _
    · split <;> exact List.cons_ne_nil _ _

theorem pieces_of_not_mem (hpiece : separator ∉ piece) : pieces separator piece = [piece] := by
  induction piece with
  | nil => rfl
  | cons c rest ih =>
    rw [List.mem_cons, not_or] at hpiece
    rw [pieces, if_neg (Ne.symm hpiece.1), ih hpiece.2]

theorem pieces_append (hpiece : separator ∉ piece) (rest : List Char) :
    pieces separator (piece ++ separator :: rest) = piece :: pieces separator rest := by
  induction piece with
  | nil => rw [List.nil_append, pieces, if_pos rfl]
  | cons c piece ih =>
    rw [List.mem_cons, not_or] at hpiece
    rw [List.cons_append, pieces, if_neg (Ne.symm hpiece.1), ih hpiece.2]

theorem pieces_intercalate {parts : List (List Char)} (hne : parts ≠ [])
    (hparts : ∀ part ∈ parts, separator ∉ part) :
    pieces separator ([separator].intercalate parts) = parts := by
  induction parts with
  | nil => exact absurd rfl hne
  | cons part rest ih =>
    obtain ⟨hpart, hrest⟩ := List.forall_mem_cons.mp hparts
    cases rest with
    | nil => rw [List.intercalate_singleton, pieces_of_not_mem hpart]
    | cons next others =>
      rw [List.intercalate_cons_cons, List.append_assoc, List.singleton_append, pieces_append hpart,
        ih (List.cons_ne_nil _ _) hrest]

theorem not_mem_of_mem_pieces (hpiece : piece ∈ pieces separator text) : separator ∉ piece := by
  induction text generalizing piece with
  | nil =>
    rw [List.mem_singleton.mp hpiece]
    exact List.not_mem_nil
  | cons c rest ih =>
    rw [pieces] at hpiece
    split at hpiece
    next =>
      rcases List.mem_cons.mp hpiece with rfl | hlater
      · exact List.not_mem_nil
      · exact ih hlater
    next hne =>
      cases hrest : pieces separator rest with
      | nil => exact absurd hrest (pieces_ne_nil separator rest)
      | cons first others =>
        rw [hrest] at hpiece
        rcases List.mem_cons.mp hpiece with rfl | hlater
        · rw [List.mem_cons, not_or]
          exact ⟨Ne.symm hne, ih (hrest ▸ List.mem_cons_self)⟩
        · exact ih (hrest ▸ List.mem_cons_of_mem first hlater)

end Text

/-- A file that the settings take for something has an extension that says so. -/
theorem Settings.ofExtension_of_languageOf? {settings : Settings} {path : String} {language : Language}
    (hlanguage : settings.languageOf? path = some language) :
    Language.ofExtension ((Path.extension? path).getD "") = language := by
  obtain ⟨extension, hextension, hread⟩ := Option.bind_eq_some_iff.mp hlanguage
  rw [hextension, Option.getD_some]
  split at hread
  next host hhost => rw [hhost, Option.some.inj hread]
  next htemplate =>
    split at hread
    next => rw [htemplate, Option.some.inj hread]
    next => cases hread

/-- A route whose names can stand between the slashes of a path. -/
def Route.Proper (route : Route) : Prop :=
  ∀ name ∈ route, Path.isSkipped name.toList = false ∧ '/' ∉ name.toList

namespace FileTree

variable {tree : FileTree} {route found : Route} {path : String}

theorem segments_pathOf (hproper : Route.Proper route) (hne : route ≠ []) :
    Path.segments (pathOf route) = [] :: route.map String.toList := by
  have hparts : ∀ part ∈ route.map String.toList, '/' ∉ part :=
    List.forall_mem_map.mpr fun name hname => (hproper name hname).2
  have hchars : (pathOf route).toList = '/' :: ['/'].intercalate (route.map String.toList) := by
    rw [pathOf, String.toList_append, String.toList_intercalate]
    rfl
  rw [Path.segments, hchars, Text.pieces, if_pos rfl,
    Text.pieces_intercalate (by simpa using hne) hparts]

/-- A path without detours says which route it is. -/
theorem routeOf_pathOf (hproper : Route.Proper route) : routeOf (pathOf route) = route := by
  cases route with
  | nil => decide +kernel
  | cons name rest =>
    have hall : ∀ names, Route.Proper names → (names.map String.toList).filterMap (fun segment =>
        if Path.isSkipped segment then none else some (String.ofList segment)) = names := by
      intro names hnames
      induction names with
      | nil => rfl
      | cons name rest ih =>
        obtain ⟨hname, hrest⟩ := List.forall_mem_cons.mp hnames
        rw [List.map_cons, List.filterMap_cons, hname.1, ih hrest]
        simp
    rw [routeOf, segments_pathOf hproper (List.cons_ne_nil name rest), List.filterMap_cons]
    exact hall _ hproper

theorem eq_of_pathOf (hproper : Route.Proper route) (hother : Route.Proper found)
    (hsame : pathOf route = pathOf found) : route = found := by
  rw [← routeOf_pathOf hproper, hsame, routeOf_pathOf hother]

/-- A walk that succeeds takes its first step, if the first segment is one, and goes on. -/
theorem walk_cons_cases {segment : List Char} {rest : List (List Char)}
    (hwalk : tree.walk route (segment :: rest) = .ok found) :
    (Path.component? segment = none ∧ tree.walk route rest = .ok found) ∨
    (Path.component? segment = some .parent ∧ tree.walk route.dropLast rest = .ok found) ∨
    (Path.component? segment = some (.normal (String.ofList segment)) ∧
      Path.isSkipped segment = false ∧
      tree.walk (route ++ [String.ofList segment]) rest = .ok found) := by
  rw [walk] at hwalk
  rw [Path.component?]
  split at hwalk
  · cases hwalk
  split at hwalk
  next hskipped => exact .inl ⟨if_pos hskipped, hwalk⟩
  next hstep =>
    rw [if_neg hstep]
    split at hwalk
    next hparent => exact .inr (.inl ⟨if_pos hparent, hwalk⟩)
    next hname =>
      simp only at hwalk
      split at hwalk
      · exact .inr (.inr ⟨if_neg hname, (Bool.not_eq_true _).mp hstep, hwalk⟩)
      · cases hwalk

/-- Every walk from a proper route along the segments of a path ends in a proper one. -/
theorem walk_proper {segments : List (List Char)} (hproper : Route.Proper route)
    (hsegments : ∀ segment ∈ segments, '/' ∉ segment) (hwalk : tree.walk route segments = .ok found) :
    Route.Proper found := by
  induction segments generalizing route with
  | nil =>
    cases hwalk
    exact hproper
  | cons segment rest ih =>
    obtain ⟨hsegment, hrest⟩ := List.forall_mem_cons.mp hsegments
    rcases walk_cons_cases hwalk with ⟨_, hwalk⟩ | ⟨_, hwalk⟩ | ⟨_, hstep, hwalk⟩
    · exact ih hproper hrest hwalk
    · exact ih (fun name hname => hproper name (List.mem_of_mem_take
        (List.dropLast_eq_take ▸ hname))) hrest hwalk
    · refine ih (List.forall_mem_append.mpr ⟨hproper, ?_⟩) hrest hwalk
      intro name hname
      rw [List.mem_singleton.mp hname, String.toList_ofList]
      exact ⟨hstep, hsegment⟩

/-- The working directory of the tree has a proper route. -/
def Proper (tree : FileTree) : Prop :=
  Route.Proper tree.workingDirectory

theorem Proper.locate (hproper : tree.Proper) (hlocate : tree.locate path = .ok found) :
    Route.Proper found := by
  rw [FileTree.locate] at hlocate
  split at hlocate
  · cases hlocate
  · refine walk_proper ?_ (fun segment hsegment => Text.not_mem_of_mem_pieces hsegment) hlocate
    split
    · exact List.forall_mem_nil _
    · exact hproper

theorem walk_of_no_steps {segments : List (List Char)}
    (hsteps : segments.filterMap Path.component? = []) (hwalk : tree.walk route segments = .ok found) :
    found = route := by
  induction segments with
  | nil =>
    cases hwalk
    rfl
  | cons segment rest ih =>
    obtain ⟨hnone, hrest⟩ := List.forall_mem_cons.mp (List.filterMap_eq_nil_iff.mp hsteps)
    rcases walk_cons_cases hwalk with ⟨_, hwalk⟩ | ⟨hsome, _⟩ | ⟨hsome, _⟩
    · exact ih (List.filterMap_eq_nil_iff.mpr hrest) hwalk
    · rw [hnone] at hsome
      cases hsome
    · rw [hnone] at hsome
      cases hsome

/-- A path whose last step is a name leads to that name. -/
theorem walk_last {segments : List (List Char)} {name : String}
    (hlast : (segments.filterMap Path.component?).getLast? = some (.normal name))
    (hwalk : tree.walk route segments = .ok found) : found.getLast? = some name := by
  induction segments generalizing route with
  | nil => cases hlast
  | cons segment rest ih =>
    have hlater : ∀ {step}, Path.component? segment = some step →
        (rest.filterMap Path.component?).getLast? = some (.normal name) ∨
          rest.filterMap Path.component? = [] ∧ step = .normal name := by
      intro step hstep
      rw [List.filterMap_cons_some hstep] at hlast
      cases hsteps : rest.filterMap Path.component? with
      | nil =>
        rw [hsteps, List.getLast?_singleton] at hlast
        exact .inr ⟨rfl, Option.some.inj hlast⟩
      | cons first others =>
        rw [hsteps, List.getLast?_cons_cons] at hlast
        exact .inl hlast
    rcases walk_cons_cases hwalk with ⟨hstep, hwalk⟩ | ⟨hstep, hwalk⟩ | ⟨hstep, _, hwalk⟩
    · rw [List.filterMap_cons_none hstep] at hlast
      exact ih hlast hwalk
    · rcases hlater hstep with hrest | ⟨_, hname⟩
      · exact ih hrest hwalk
      · cases hname
    · rcases hlater hstep with hrest | ⟨hnone, hname⟩
      · exact ih hrest hwalk
      · rw [walk_of_no_steps hnone hwalk, List.getLast?_concat, Path.Component.normal.inj hname]

theorem fileName?_pathOf (hproper : Route.Proper route) {name : String}
    (hlast : route.getLast? = some name) (hparent : name ≠ "..") :
    Path.fileName? (pathOf route) = some name := by
  obtain ⟨before, rfl⟩ := List.getLast?_eq_some_iff.mp hlast
  have hname := (hproper name (by simp)).1
  have hstep : Path.component? name.toList = some (.normal name) := by
    rw [Path.component?, hname, if_neg Bool.false_ne_true, if_neg, String.ofList_toList]
    intro hdots
    exact hparent (String.toList_injective hdots)
  rw [Path.fileName?, Path.components, segments_pathOf hproper (by simp)]
  simp [hstep]

theorem getLast?_steps {name : String} (hname : Path.fileName? path = some name) :
    ((Path.segments path).filterMap Path.component?).getLast? = some (.normal name) := by
  rw [Path.fileName?, Path.components] at hname
  cases hsteps : (Path.segments path).filterMap Path.component? with
  | nil =>
    have hleading : ∀ other, (Path.leading? path).toList.getLast? ≠ some (.normal other) := by
      intro other
      rw [Path.leading?]
      split_ifs <;> simp
    rw [hsteps, List.append_nil] at hname
    split at hname
    next other hother => exact absurd hother (hleading other)
    next => cases hname
  | cons first others =>
    obtain ⟨last, hlast⟩ := Option.ne_none_iff_exists'.mp
      (mt List.getLast?_eq_none_iff.mp (List.cons_ne_nil first others))
    rw [hsteps, List.getLast?_append, hlast, Option.some_or] at hname
    rw [hlast]
    split at hname
    next other hother => rw [hother, Option.some.inj hname]
    next => cases hname

theorem ne_parent_of_fileName? {name : String} (hname : Path.fileName? path = some name) :
    name ≠ ".." := by
  have hmem := List.mem_of_getLast? (getLast?_steps hname)
  obtain ⟨segment, _, hstep⟩ := List.mem_filterMap.mp hmem
  rw [Path.component?] at hstep
  split_ifs at hstep with hskipped hparent
  · cases hstep
  · rw [← Path.Component.normal.inj (Option.some.inj hstep)]
    exact fun hdots => hparent (String.ofList_injective hdots)

theorem read_eq_ok {text : String} :
    tree.read path = .ok (route, text) ↔
      tree.locate path = .ok route ∧ tree.file? route = some text := by
  rw [FileTree.read]
  cases tree.locate path with
  | error reason => simp [bind, Except.bind]
  | ok found =>
    simp only [bind, Except.bind, Except.ok.injEq]
    cases htext : tree.file? found with
    | none =>
      refine ⟨nofun, ?_⟩
      rintro ⟨rfl, hsome⟩
      rw [htext] at hsome
      cases hsome
    | some other =>
      constructor
      · intro hread
        cases hread
        exact ⟨rfl, htext⟩
      · rintro ⟨rfl, hsome⟩
        rw [htext] at hsome
        cases hsome
        rfl

/-- A file has the same name in every path that leads to it. -/
theorem Proper.fileName? (hproper : tree.Proper) {canonical name : String}
    (hcanonical : tree.canonical path = .ok canonical) (hname : Path.fileName? path = some name) :
    Path.fileName? canonical = some name := by
  rw [FileTree.canonical] at hcanonical
  cases hlocate : tree.locate path with
  | error reason =>
    rw [hlocate] at hcanonical
    cases hcanonical
  | ok found =>
    rw [hlocate] at hcanonical
    cases hcanonical
    refine fileName?_pathOf (hproper.locate hlocate) ?_ (ne_parent_of_fileName? hname)
    rw [FileTree.locate] at hlocate
    split at hlocate
    · cases hlocate
    · exact walk_last (getLast?_steps hname) hlocate

/-- What a file holds is told by any path that leads to it. -/
theorem Proper.languageOf? (hproper : tree.Proper) {settings : Settings} {canonical : String}
    {language : Language} (hcanonical : tree.canonical path = .ok canonical)
    (hlanguage : settings.languageOf? path = some language) :
    settings.languageOf? canonical = some language := by
  obtain ⟨extension, hextension, _⟩ := Option.bind_eq_some_iff.mp hlanguage
  obtain ⟨name, hname, _⟩ := Option.bind_eq_some_iff.mp hextension
  rw [← hlanguage, Settings.languageOf?, Settings.languageOf?, Path.extension?, Path.extension?, hname,
    hproper.fileName? hcanonical hname]

end FileTree

end TemplateAnalysis
