import TemplateAnalysis.Proofs.FileTree

namespace TemplateAnalysis

namespace Text

variable {separator : Char}

/-- The pieces on both sides of a separator are the pieces of the two sides. -/
theorem pieces_append_cons (first rest : List Char) :
    pieces separator (first ++ separator :: rest) = pieces separator first ++ pieces separator rest := by
  induction first with
  | nil => simp [pieces]
  | cons c first ih =>
    rw [List.cons_append, pieces, pieces, ih]
    split
    · rfl
    · cases hpieces : pieces separator first with
      | nil => exact absurd hpieces (pieces_ne_nil separator first)
      | cons piece others => rfl

end Text

namespace Path

/-- Whether a text is the name of a file or a directory, and no step to another place. -/
structure IsName (name : String) : Prop where
  notSkipped : isSkipped name.toList = false
  notParent : name ≠ ".."
  noSlash : '/' ∉ name.toList

instance (name : String) : Decidable (IsName name) :=
  decidable_of_iff (isSkipped name.toList = false ∧ name ≠ ".." ∧ '/' ∉ name.toList)
    ⟨fun ⟨hskipped, hparent, hslash⟩ => ⟨hskipped, hparent, hslash⟩,
      fun hname => ⟨hname.notSkipped, hname.notParent, hname.noSlash⟩⟩

/-- The path that leads down through these names. -/
def ofNames (names : List String) : String :=
  "/".intercalate names

section Names

variable {names : List String}

theorem toList_ofNames (names : List String) :
    (ofNames names).toList = ['/'].intercalate (names.map String.toList) := by
  rw [ofNames, String.toList_intercalate]
  rfl

theorem segments_ofNames (hne : names ≠ []) (hnames : ∀ name ∈ names, IsName name) :
    segments (ofNames names) = names.map String.toList := by
  rw [segments, toList_ofNames, Text.pieces_intercalate (by simpa using hne)]
  exact List.forall_mem_map.mpr fun name hmem => (hnames name hmem).noSlash

/-- A path of names begins with a character that is no slash. -/
theorem exists_first (hne : names ≠ []) (hnames : ∀ name ∈ names, IsName name) :
    ∃ c rest, (ofNames names).toList = c :: rest ∧ c ≠ '/' := by
  obtain ⟨name, others, rfl⟩ := List.exists_cons_of_ne_nil hne
  obtain ⟨hname, -⟩ := List.forall_mem_cons.mp hnames
  obtain ⟨c, tail, hchars⟩ : ∃ c tail, name.toList = c :: tail := by
    refine List.exists_cons_of_ne_nil fun hempty => ?_
    have hskipped := hname.notSkipped
    rw [hempty] at hskipped
    cases hskipped
  have hslash := hname.noSlash
  rw [hchars, List.mem_cons, not_or] at hslash
  obtain ⟨rest, hrest⟩ : ∃ rest, (ofNames (name :: others)).toList = c :: rest := by
    rw [toList_ofNames, List.map_cons, hchars]
    cases others with
    | nil => exact ⟨tail, List.intercalate_singleton⟩
    | cons next others => exact ⟨_, List.intercalate_cons_cons⟩
  exact ⟨c, rest, hrest, Ne.symm hslash.1⟩

theorem isAbsolute_ofNames (hne : names ≠ []) (hnames : ∀ name ∈ names, IsName name) :
    isAbsolute (ofNames names) = false := by
  obtain ⟨c, rest, hchars, hslash⟩ := exists_first hne hnames
  rw [isAbsolute, hchars]
  simpa using hslash

/-- No name is left out at either end of a path of names. -/
theorem dropWhile_isSkipped {segments : List (List Char)}
    (hsegments : ∀ segment ∈ segments, isSkipped segment = false) :
    segments.dropWhile isSkipped = segments := by
  cases segments with
  | nil => rfl
  | cons segment rest =>
    rw [List.dropWhile_cons_of_neg (by simp [hsegments segment List.mem_cons_self])]

theorem trimSegments_eq {segments : List (List Char)}
    (hsegments : ∀ segment ∈ segments, isSkipped segment = false) :
    trimSegments segments = segments := by
  have hreversed : ∀ segment ∈ segments.reverse, isSkipped segment = false :=
    fun segment hmem => hsegments segment (List.mem_reverse.mp hmem)
  rw [trimSegments, dropWhile_isSkipped hreversed, List.reverse_reverse]

theorem ofSegments_names (names : List String) : ofSegments (names.map String.toList) = ofNames names := by
  rw [ofSegments, ofNames, List.map_map]
  congr 1
  refine (List.map_congr_left fun name _ => ?_).trans (List.map_id names)
  exact String.ofList_toList

end Names

section Relative

theorem exists_component {segment : List Char} (hskipped : isSkipped segment = false) :
    ∃ step, component? segment = some step := by
  rw [component?, hskipped, if_neg Bool.false_ne_true]
  split <;> exact ⟨_, rfl⟩

/-- Behind the segments of as many steps as are dropped, those of the rest begin. -/
theorem dropComponents_append (before rest : List (List Char)) :
    (dropComponents (before.filterMap component?).length (before ++ rest)).dropWhile isSkipped =
      rest.dropWhile isSkipped := by
  induction before with
  | nil => rw [List.filterMap_nil, List.length_nil, dropComponents, List.nil_append]
  | cons segment before ih =>
    cases hskipped : isSkipped segment with
    | true =>
      have hnone : component? segment = none := if_pos hskipped
      rw [List.filterMap_cons_none hnone]
      cases hcount : (before.filterMap component?).length with
      | zero =>
        rw [hcount] at ih
        rw [dropComponents, List.cons_append, List.dropWhile_cons_of_pos hskipped]
        rwa [dropComponents] at ih
      | succ count => rw [List.cons_append, dropComponents, if_pos hskipped, ← hcount, ih]
    | false =>
      obtain ⟨step, hstep⟩ := exists_component hskipped
      rw [List.filterMap_cons_some hstep, List.length_cons, List.cons_append, dropComponents, hskipped,
        if_neg Bool.false_ne_true, ih]

variable {root : String} {names : List String}

theorem join_empty (hne : names ≠ []) (hnames : ∀ name ∈ names, IsName name) :
    join "" (ofNames names) = ofNames names := by
  rw [join, isAbsolute_ofNames hne hnames]
  exact String.empty_append

/-- A path below a directory that is not empty: the directory, a slash and the rest. -/
theorem exists_join (hroot : root ≠ "") (hne : names ≠ []) (hnames : ∀ name ∈ names, IsName name) :
    ∃ directory, (join root (ofNames names)).toList = directory ++ '/' :: (ofNames names).toList ∧
      (root.toList = directory ∨ root.toList = directory ++ ['/']) := by
  have hempty : root.isEmpty = false := by simpa [String.isEmpty_iff] using hroot
  rw [join, isAbsolute_ofNames hne hnames, if_neg Bool.false_ne_true, hempty, Bool.false_or]
  split
  next hslash =>
    obtain ⟨directory, hdirectory⟩ : ∃ directory, root.toList = directory ++ ['/'] :=
      List.getLast?_eq_some_iff.mp (by simpa using hslash)
    exact ⟨directory, by simp [hdirectory], .inr hdirectory⟩
  next => exact ⟨root.toList, by simp, .inl rfl⟩

theorem leading?_congr {first second : String} (habsolute : isAbsolute first = isAbsolute second)
    (hsegments : (segments first).head? = (segments second).head?) : leading? first = leading? second := by
  rw [leading?, leading?, habsolute, hsegments]

/-- The segment that the leading step of a path is read from is no other step. -/
theorem filterMap_drop_leading {path : String} {segments : List (List Char)}
    (hhead : segments.head? = (Path.segments path).head?) :
    (segments.drop (leading? path).toList.length).filterMap component? = segments.filterMap component? := by
  have hdrop : ∀ {segment}, segments.head? = some segment → isSkipped segment = true →
      (segments.drop 1).filterMap component? = segments.filterMap component? := by
    intro segment hsegment hskipped
    obtain ⟨rest, rfl⟩ := List.head?_eq_some_iff.mp hsegment
    have hnone : component? segment = none := if_pos hskipped
    exact (List.filterMap_cons_none hnone).symm
  rw [leading?]
  split
  next habsolute =>
    rw [isAbsolute, beq_iff_eq] at habsolute
    obtain ⟨rest, hrest⟩ := List.head?_eq_some_iff.mp habsolute
    have hempty : (Path.segments path).head? = some [] := by
      rw [Path.segments, hrest, Text.pieces, if_pos rfl]
      rfl
    exact hdrop (hhead.trans hempty) rfl
  next =>
    split
    next hcurrent => exact hdrop (hhead.trans hcurrent) rfl
    next => rfl

/-- A path that is not empty has a first step. -/
theorem components_ne_nil {path : String} (hne : path ≠ "") : components path ≠ [] := by
  intro hnil
  rw [components, List.append_eq_nil_iff] at hnil
  obtain ⟨hleading, hsteps⟩ := hnil
  obtain ⟨c, rest, hchars⟩ : ∃ c rest, path.toList = c :: rest :=
    List.exists_cons_of_ne_nil (by simpa using hne)
  rw [Option.toList_eq_nil_iff, leading?] at hleading
  split_ifs at hleading with habsolute hcurrent
  have hslash : c ≠ '/' := by
    rintro rfl
    exact habsolute (by rw [isAbsolute, hchars]; rfl)
  obtain ⟨piece, others, hpieces⟩ : ∃ piece others, segments path = (c :: piece) :: others := by
    rw [segments, hchars, Text.pieces, if_neg hslash]
    split <;> exact ⟨_, _, rfl⟩
  rw [hpieces, List.head?_cons, Option.some.injEq] at hcurrent
  have hskipped : isSkipped (c :: piece) = false := by simpa [isSkipped] using hcurrent
  obtain ⟨step, hstep⟩ := exists_component hskipped
  rw [hpieces, List.filterMap_cons_some hstep] at hsteps
  cases hsteps

theorem isSkipped_toList (hnames : ∀ name ∈ names, IsName name) :
    ∀ segment ∈ names.map String.toList, isSkipped segment = false :=
  List.forall_mem_map.mpr fun name hmem => (hnames name hmem).notSkipped

theorem leading?_ofNames (hne : names ≠ []) (hnames : ∀ name ∈ names, IsName name) :
    leading? (ofNames names) = none := by
  rw [leading?, isAbsolute_ofNames hne hnames, if_neg Bool.false_ne_true, if_neg]
  rw [segments_ofNames hne hnames]
  intro hcurrent
  obtain ⟨rest, hrest⟩ := List.head?_eq_some_iff.mp hcurrent
  exact absurd (isSkipped_toList hnames ['.'] (hrest ▸ List.mem_cons_self)) (by decide)

/-- Where no directory is given, a path of names is seen as it is. -/
theorem relativeTo?_empty (hne : names ≠ []) (hnames : ∀ name ∈ names, IsName name) :
    relativeTo? "" (ofNames names) = some (ofNames names) := by
  have hbase : components "" = [] := by decide +kernel
  rw [relativeTo?, hbase]
  simp only [List.isPrefixOf_nil_left, if_pos, List.isEmpty_nil]
  rw [withoutTail, leading?_ofNames hne hnames, segments_ofNames hne hnames]
  simp only
  rw [trimSegments_eq (isSkipped_toList hnames), ofSegments_names]

/-- A path below a directory that is not empty has the segments of the directory in front of the names. A
    slash at the end of the directory adds no segment to it. -/
theorem exists_segments_join (hroot : root ≠ "") (hne : names ≠ [])
    (hnames : ∀ name ∈ names, IsName name) :
    ∃ directory, directory ≠ [] ∧
      segments (join root (ofNames names)) = directory ++ names.map String.toList ∧
      (segments root = directory ∨ segments root = directory ++ [[]]) := by
  obtain ⟨directory, hjoin, hdirectory⟩ := exists_join hroot hne hnames
  refine ⟨Text.pieces '/' directory, Text.pieces_ne_nil '/' directory, ?_, ?_⟩
  · rw [segments, hjoin, Text.pieces_append_cons, ← segments, segments_ofNames hne hnames]
  · rcases hdirectory with hdirectory | hdirectory
    · exact .inl (congrArg (Text.pieces '/') hdirectory)
    · rw [segments, hdirectory, Text.pieces_append_cons]
      exact .inr rfl

theorem isAbsolute_join (hroot : root ≠ "") (hne : names ≠ []) (hnames : ∀ name ∈ names, IsName name) :
    isAbsolute (join root (ofNames names)) = isAbsolute root := by
  obtain ⟨directory, hjoin, hdirectory⟩ := exists_join hroot hne hnames
  rw [isAbsolute, isAbsolute, hjoin]
  rcases hdirectory with hdirectory | hdirectory
  · obtain ⟨c, rest, hchars⟩ := List.exists_cons_of_ne_nil (mt String.toList_eq_nil_iff.mp hroot)
    rw [← hdirectory, hchars]
    rfl
  · rw [hdirectory]
    cases directory <;> rfl

/-- A path below a directory is seen from there as the names that lead to it. -/
theorem relativeTo?_join (root : String) (hne : names ≠ []) (hnames : ∀ name ∈ names, IsName name) :
    relativeTo? root (join root (ofNames names)) = some (ofNames names) := by
  by_cases hroot : root = ""
  · rw [hroot, join_empty hne hnames, relativeTo?_empty hne hnames]
  have hkept := isSkipped_toList hnames
  obtain ⟨directory, hnonempty, hsegments, hdirectory⟩ := exists_segments_join hroot hne hnames
  have hhead : (segments root).head? = directory.head? := by
    rcases hdirectory with hdirectory | hdirectory
    · rw [hdirectory]
    · rw [hdirectory, List.head?_append, List.head?_eq_some_head hnonempty, Option.some_or]
  have hsteps : (segments root).filterMap component? = directory.filterMap component? := by
    rcases hdirectory with hdirectory | hdirectory
    · rw [hdirectory]
    · rw [hdirectory, List.filterMap_append]
      exact List.append_nil _
  have hleading : leading? (join root (ofNames names)) = leading? root := by
    refine leading?_congr (isAbsolute_join hroot hne hnames) ?_
    rw [hsegments, hhead, List.head?_append, List.head?_eq_some_head hnonempty, Option.some_or]
  have hleads : components root <+: components (join root (ofNames names)) := by
    rw [components, components, hleading, hsteps, hsegments, List.filterMap_append, ← List.append_assoc]
    exact List.prefix_append _ _
  have hlength : (leading? root).toList.length ≤ directory.length :=
    Nat.le_trans Option.length_toList_le (List.length_pos_iff.mpr hnonempty)
  have hcount : (components root).length - (leading? root).toList.length =
      ((directory.drop (leading? root).toList.length).filterMap component?).length := by
    rw [filterMap_drop_leading hhead.symm, components, List.length_append, Nat.add_sub_cancel_left, hsteps]
  rw [relativeTo?]
  simp only [List.isPrefixOf_iff_prefix.mpr hleads, if_pos, hleading, hsegments]
  rw [if_neg (by simpa using components_ne_nil hroot), List.drop_append_of_le_length hlength, hcount,
    dropComponents_append, dropWhile_isSkipped hkept, trimSegments_eq hkept, ofSegments_names]

end Relative

end Path

end TemplateAnalysis
