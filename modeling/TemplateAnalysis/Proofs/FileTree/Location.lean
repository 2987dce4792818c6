import TemplateAnalysis.Proofs.Path

namespace TemplateAnalysis

namespace Path

/-- The place that a step leads to from another one. -/
def Component.follow (route : Route) : Component → Route
  | root => []
  | current => route
  | parent => route.dropLast
  | normal name => route ++ [name]

end Path

theorem Route.proper_of_isName {route : Route} (hnames : ∀ name ∈ route, Path.IsName name) :
    Route.Proper route :=
  fun name hmem => ⟨(hnames name hmem).notSkipped, (hnames name hmem).noSlash⟩

namespace FileTree

/-- A tree as a file system holds it: all names on the way to a file are names, and nothing lies below a
    file. -/
structure WellFormed (tree : FileTree) : Prop where
  names : ∀ file ∈ tree.files, ∀ name ∈ file.1, Path.IsName name
  leaves : ∀ file ∈ tree.files, tree.isDirectory file.1 = false

instance (tree : FileTree) : Decidable tree.WellFormed :=
  decidable_of_iff ((∀ file ∈ tree.files, ∀ name ∈ file.1, Path.IsName name) ∧
      ∀ file ∈ tree.files, tree.isDirectory file.1 = false)
    ⟨fun ⟨hnames, hleaves⟩ => ⟨hnames, hleaves⟩, fun htree => ⟨htree.names, htree.leaves⟩⟩

variable {tree : FileTree} {route found : Route} {path name : String}

section Contents

theorem isSome_file?_iff : (tree.file? route).isSome = true ↔ route ∈ tree.files.map Prod.fst := by
  rw [file?, Option.isSome_map, List.find?_isSome, List.mem_map]
  simp only [beq_iff_eq]

/-- What leads to a directory leads through directories. -/
theorem isDirectory_above (hleads : route <+: found) (hfound : tree.isDirectory found = true) :
    tree.isDirectory route = true := by
  simp only [isDirectory, Bool.or_eq_true, List.any_eq_true, List.isPrefixOf_iff_prefix,
    List.isEmpty_iff, Bool.and_eq_true, bne_iff_ne] at hfound ⊢
  rcases hfound with ((hroot | ⟨directory, hmem, hbelow⟩) | hworking) | ⟨file, hmem, hbelow, hne⟩
  · exact .inl (.inl (.inl (List.prefix_nil.mp (hroot ▸ hleads))))
  · exact .inl (.inl (.inr ⟨directory, hmem, hleads.trans hbelow⟩))
  · exact .inl (.inr (hleads.trans hworking))
  · refine .inr ⟨file, hmem, hleads.trans hbelow, ?_⟩
    rintro rfl
    exact hne (hbelow.eq_of_length_le hleads.length_le)

/-- What leads to a file leads through directories. -/
theorem isDirectory_of_file {below : Route} (hmem : route ++ name :: below ∈ tree.files.map Prod.fst) :
    tree.isDirectory route = true := by
  obtain ⟨file, hfile, hroute⟩ := List.mem_map.mp hmem
  simp only [isDirectory, Bool.or_eq_true, List.any_eq_true, List.isPrefixOf_iff_prefix,
    Bool.and_eq_true, bne_iff_ne]
  refine .inr ⟨file, hfile, hroute ▸ List.prefix_append _ _, ?_⟩
  rw [hroute]
  simp

end Contents

section Walks

theorem walk_append (tree : FileTree) (route : Route) (first rest : List (List Char)) :
    tree.walk route (first ++ rest) = (tree.walk route first).bind fun found => tree.walk found rest := by
  induction first generalizing route with
  | nil => rfl
  | cons segment first ih =>
    rw [List.cons_append, walk, walk]
    split
    · rfl
    split
    · exact ih route
    split
    · exact ih route.dropLast
    simp only
    split
    · exact ih _
    · rfl

/-- A walk that succeeds ends where the steps along it lead. -/
theorem walk_eq_foldl {segments : List (List Char)}
    (hwalk : tree.walk route segments = .ok found) :
    found = (segments.filterMap Path.component?).foldl Path.Component.follow route := by
  induction segments generalizing route with
  | nil =>
    cases hwalk
    rfl
  | cons segment rest ih =>
    rcases walk_cons_cases hwalk with ⟨hstep, hwalk⟩ | ⟨hstep, hwalk⟩ | ⟨hstep, _, hwalk⟩
    · rw [List.filterMap_cons_none hstep]
      exact ih hwalk
    · rw [List.filterMap_cons_some hstep]
      exact ih hwalk
    · rw [List.filterMap_cons_some hstep]
      exact ih hwalk

theorem locate_eq_ok (hlocate : tree.locate path = .ok found) :
    path ≠ "" ∧ tree.walk (if Path.isAbsolute path then [] else tree.workingDirectory)
      (Path.segments path) = .ok found := by
  rw [locate] at hlocate
  split at hlocate
  next => cases hlocate
  next hempty => exact ⟨by simpa [String.isEmpty_iff] using hempty, hlocate⟩

/-- A path leads where its steps lead. -/
theorem locate_eq_foldl (hlocate : tree.locate path = .ok found) :
    found = (Path.components path).foldl Path.Component.follow tree.workingDirectory := by
  obtain ⟨_, hwalk⟩ := locate_eq_ok hlocate
  rw [walk_eq_foldl hwalk, Path.components, Path.leading?, List.foldl_append]
  split_ifs <;> rfl

/-- A name leads from a directory to its entry of this name. -/
theorem walk_name (hdirectory : tree.isDirectory route = true) (hname : Path.IsName name)
    (hentry : tree.isDirectory (route ++ [name]) = true ∨ route ++ [name] ∈ tree.files.map Prod.fst) :
    tree.walk route [name.toList] = .ok (route ++ [name]) := by
  have hparent : name.toList ≠ ['.', '.'] := fun hdots => hname.notParent (String.toList_injective hdots)
  have hexists : (tree.isDirectory (route ++ [name]) || (tree.file? (route ++ [name])).isSome) = true := by
    rwa [Bool.or_eq_true, isSome_file?_iff]
  rw [walk, hdirectory, hname.notSkipped, if_neg hparent, String.ofList_toList]
  simp only [Bool.not_true, Bool.false_eq_true, if_false, hexists, if_true]
  rfl

/-- A walk to a place that is no directory ends with the name of this place. -/
theorem walk_leaf {segment : List Char} {segments : List (List Char)}
    (hwalk : tree.walk route (segments ++ [segment]) = .ok found)
    (hleaf : tree.isDirectory found = false) :
    Path.component? segment = some (.normal (String.ofList segment)) ∧
      found.getLast? = some (String.ofList segment) := by
  rw [walk_append] at hwalk
  cases hstart : tree.walk route segments with
  | error reason =>
    rw [hstart] at hwalk
    cases hwalk
  | ok start =>
    rw [hstart] at hwalk
    replace hwalk : tree.walk start [segment] = .ok found := hwalk
    have hdirectory : tree.isDirectory start = true := by
      rw [walk] at hwalk
      split at hwalk
      next => cases hwalk
      next hyes => simpa using hyes
    rcases walk_cons_cases hwalk with ⟨_, hend⟩ | ⟨_, hend⟩ | ⟨hstep, _, hend⟩ <;> cases hend
    · rw [hdirectory] at hleaf
      cases hleaf
    · rw [isDirectory_above (List.dropLast_prefix start) hdirectory] at hleaf
      cases hleaf
    · exact ⟨hstep, List.getLast?_concat⟩

end Walks

section Entries

/-- A path leads to an entry of a directory by a path to the directory and the name of the entry. -/
theorem locate_join (hlocate : tree.locate path = .ok route) (hdirectory : tree.isDirectory route = true)
    (hname : Path.IsName name)
    (hentry : tree.isDirectory (route ++ [name]) = true ∨ route ++ [name] ∈ tree.files.map Prod.fst) :
    tree.locate (Path.join path name) = .ok (route ++ [name]) := by
  have hnames : ∀ other ∈ [name], Path.IsName other := List.forall_mem_singleton.mpr hname
  have hsingle : Path.ofNames [name] = name := String.intercalate_singleton
  obtain ⟨hpath, hwalk⟩ := locate_eq_ok hlocate
  have habsolute := Path.isAbsolute_join hpath (List.cons_ne_nil name []) hnames
  obtain ⟨segments, hsegmentsNe, hjoin, hsegments⟩ :=
    Path.exists_segments_join hpath (List.cons_ne_nil name []) hnames
  rw [hsingle] at habsolute hjoin
  -- A slash at the end of the path is passed over.
  have hbefore : tree.walk (if Path.isAbsolute path then [] else tree.workingDirectory) segments =
      .ok route := by
    rcases hsegments with hsegments | hsegments
    · rwa [hsegments] at hwalk
    · rw [hsegments, walk_append] at hwalk
      cases hstart : tree.walk (if Path.isAbsolute path then [] else tree.workingDirectory) segments with
      | error reason =>
        rw [hstart] at hwalk
        cases hwalk
      | ok start =>
        rw [hstart] at hwalk
        replace hwalk : tree.walk start [[]] = .ok route := hwalk
        rw [walk_of_no_steps rfl hwalk]
  have hnonempty : (Path.join path name).isEmpty = false := by
    rw [← Bool.not_eq_true, String.isEmpty_iff]
    intro hempty
    have hlength := congrArg List.length hjoin
    rw [hempty, List.length_append] at hlength
    exact hsegmentsNe (List.length_eq_zero_iff.mp (Nat.add_right_cancel hlength.symm))
  rw [locate, hnonempty, if_neg Bool.false_ne_true, habsolute, hjoin, walk_append, hbefore]
  exact walk_name hdirectory hname hentry

/-- A path that leads to a file ends with the name of the file. -/
theorem fileName?_of_locate (hlocate : tree.locate path = .ok route)
    (hleaf : tree.isDirectory route = false) : Path.fileName? path = route.getLast? := by
  obtain ⟨_, hwalk⟩ := locate_eq_ok hlocate
  obtain ⟨segments, segment, hsegments⟩ :=
    (List.eq_nil_or_concat (Path.segments path)).resolve_left (Text.pieces_ne_nil '/' path.toList)
  rw [List.concat_eq_append] at hsegments
  rw [hsegments] at hwalk
  obtain ⟨hstep, hlast⟩ := walk_leaf hwalk hleaf
  rw [Path.fileName?, Path.components, hsegments, hlast, List.filterMap_append, ← List.append_assoc,
    List.filterMap_cons_some hstep, List.filterMap_nil, List.getLast?_concat]

/-- What a file holds is told by its name alone, in whatever way a path leads to it. -/
theorem languageOf?_of_locate (settings : Settings) (hproper : Route.Proper route)
    (hparent : route.getLast? ≠ some "..") (hlocate : tree.locate path = .ok route)
    (hleaf : tree.isDirectory route = false) :
    settings.languageOf? path = settings.languageOf? (pathOf route) := by
  obtain ⟨name, hlast⟩ : ∃ name, route.getLast? = some name := by
    cases hlast : route.getLast? with
    | none =>
      rw [List.getLast?_eq_none_iff.mp hlast] at hleaf
      cases hleaf
    | some name => exact ⟨name, rfl⟩
  have hcanonical := fileName?_pathOf hproper hlast fun hdots => hparent (hdots ▸ hlast)
  rw [Settings.languageOf?, Settings.languageOf?, Path.extension?, Path.extension?,
    fileName?_of_locate hlocate hleaf, hcanonical, hlast]

end Entries

end FileTree

end TemplateAnalysis
