import Mathlib.Data.List.Induction
import Mathlib.Data.List.TakeWhile
import TemplateAnalysis.Proofs.FileTree.Location
import TemplateAnalysis.Server.Address

namespace TemplateAnalysis

namespace Text

variable {pattern first rest text : List Char} {c : Char}

/-- A pattern is found where it occurs. -/
theorem includes_iff : includes pattern text = true ↔ pattern <:+: text := by
  induction text with
  | nil => simp [includes, splitAt?]
  | cons c rest ih =>
    rw [includes, splitAt?, List.infix_cons_iff, ← List.isPrefixOf_iff_prefix, ← ih, includes]
    split
    next hleads => simp [hleads]
    next hleads => simp [hleads]

/-- A pattern does not reach into a text that its last character does not occur in. -/
theorem infix_of_infix_append (hlast : pattern.getLast? = some c) (hrest : c ∉ rest)
    (hoccurs : pattern <:+: first ++ rest) : pattern <:+: first := by
  induction rest using List.reverseRecOn with
  | nil => rwa [List.append_nil] at hoccurs
  | append_singleton rest other ih =>
    rw [List.mem_append, not_or, List.mem_singleton] at hrest
    rw [← List.append_assoc, List.infix_concat_iff] at hoccurs
    rcases hoccurs with ⟨before, hsuffix⟩ | hoccurs
    · have hend := congrArg List.getLast? hsuffix
      rw [List.getLast?_append, hlast, List.getLast?_concat, Option.some_or] at hend
      exact absurd (Option.some.inj hend) hrest.2
    · exact ih hrest.1 hoccurs

/-- Between the separators nothing but the parts stands. -/
theorem mem_intercalate {separator : Char} {parts : List (List Char)} (hne : c ≠ separator) :
    c ∈ [separator].intercalate parts ↔ ∃ part ∈ parts, c ∈ part := by
  induction parts with
  | nil => simp
  | cons part others ih =>
    cases others with
    | nil => simp [List.intercalate_singleton]
    | cons next others =>
      rw [List.intercalate_cons_cons, List.mem_append, List.mem_append, ih, List.mem_singleton,
        or_iff_left hne]
      simp only [List.mem_cons, or_and_right, exists_or, exists_eq_left]

end Text

namespace Path

variable {directory name : String}

/-- The mark that stands behind the scheme of an address. A path that holds it is taken for an
    address. -/
def NamesScheme (path : String) : Prop :=
  Text.includes [':', '/', '/'] path.toList = true

instance : DecidablePred NamesScheme := fun path =>
  inferInstanceAs (Decidable (Text.includes [':', '/', '/'] path.toList = true))

theorem isAbsolute_of_isName (hname : IsName name) : isAbsolute name = false := by
  rw [isAbsolute, beq_eq_false_iff_ne]
  exact fun hslash => hname.noSlash (List.mem_of_head? hslash)

/-- Below a directory no path is taken for an address, if the directory is not. -/
theorem not_namesScheme_join (hdirectory : ¬NamesScheme directory) (hname : IsName name) :
    ¬NamesScheme (join directory name) := by
  rw [NamesScheme, Text.includes_iff] at hdirectory ⊢
  intro hoccurs
  rw [join, isAbsolute_of_isName hname, if_neg Bool.false_ne_true] at hoccurs
  split at hoccurs
  next => exact hdirectory (Text.infix_of_infix_append rfl hname.noSlash (by simpa using hoccurs))
  next hopen =>
    have hslash : "/".toList = ['/'] := rfl
    rw [String.toList_append, String.toList_append, hslash] at hoccurs
    rcases List.infix_concat_iff.mp (Text.infix_of_infix_append rfl hname.noSlash hoccurs) with
      ⟨before, hsuffix⟩ | hoccurs
    · have hbefore : before ++ [':', '/'] = directory.toList :=
        List.append_cancel_right ((List.append_assoc ..).trans hsuffix)
      simp [← hbefore] at hopen
    · exact hdirectory hoccurs

end Path

namespace Uri

variable {allowed : Char → Bool} {text : List Char} {c mark : Char}

theorem isEncoded_of_forall (hpercent : allowed '%' = false) (hall : ∀ c ∈ text, allowed c = true) :
    isEncoded allowed text = true := by
  induction text with
  | nil => rfl
  | cons c rest ih =>
    obtain ⟨hc, hrest⟩ := List.forall_mem_cons.mp hall
    have hne : c ≠ '%' := by
      rintro rfl
      rw [hpercent] at hc
      cases hc
    rw [isEncoded]
    · simp [hne, hc, ih hrest]
    · rintro _ _ _ rfl
      exact absurd rfl hne

theorem cut_of_not_mem (hmark : mark ∉ text) : cut mark text = (text, []) := by
  have hall : text.takeWhile (· ≠ mark) = text :=
    List.takeWhile_eq_self_iff.mpr fun c hmem => by
      simpa using fun hsame : c = mark => hmark (hsame ▸ hmem)
  rw [cut, hall, List.drop_of_length_le (Nat.le_succ _)]

/-- Every character stands before the mark, is the mark, or stands behind it. -/
theorem mem_cut (mark : Char) (hmem : c ∈ text) :
    c ∈ (cut mark text).1 ∨ c = mark ∨ c ∈ (cut mark text).2 := by
  induction text with
  | nil => cases hmem
  | cons other rest ih =>
    by_cases hsame : other = mark
    · rcases List.mem_cons.mp hmem with rfl | hrest
      · exact .inr (.inl hsame)
      · exact .inr (.inr (by simpa [cut, hsame] using hrest))
    · rcases List.mem_cons.mp hmem with rfl | hrest
      · exact .inl (by simp [cut, hsame])
      · have hlater := ih hrest
        simp only [cut] at hlater
        simpa [cut, hsame, or_assoc] using Or.inr (a := c = other) hlater

/-- A hexadecimal digit may stand in a path. -/
theorem isPathCharacter_of_isHexDigit (hdigit : isHexDigit c = true) : isPathCharacter c = true := by
  have hkinds : c.isAlphanum = (c.isUpper || c.isLower || c.isDigit) := rfl
  have hupper : c.isUpper = decide ('A'.val ≤ c.val ∧ c.val ≤ 'Z'.val) := rfl
  have hlower : c.isLower = (decide ('a'.val ≤ c.val) && decide (c.val ≤ 'z'.val)) := rfl
  have halphanum : c.isAlphanum = true := by
    simp only [isHexDigit, Bool.or_eq_true, Bool.and_eq_true, decide_eq_true_eq, Char.le_def] at hdigit
    rw [hkinds, hupper, hlower]
    grind
  simp [isPathCharacter, isUnreserved, halphanum]

theorem isHierarchy_slashes (path : List Char) :
    isHierarchy ('/' :: '/' :: '/' :: path) = isPath ('/' :: path) := by
  have hauthority : isAuthority [] = true := by decide
  simp [isHierarchy, hauthority]

/-- After the scheme of files and two slashes, an address has a path, a query and a fragment. -/
theorem isReference_file (path : List Char) :
    isReference (String.ofList ("file://".toList ++ '/' :: path)) =
      (isSuffix (cut '#' ('/' :: path)).2 && isSuffix (cut '?' (cut '#' ('/' :: path)).1).2 &&
        isPath (cut '?' (cut '#' ('/' :: path)).1).1) := by
  have hscheme : isScheme ['f', 'i', 'l', 'e'] = true := by decide
  have hchars : "file://".toList = ['f', 'i', 'l', 'e', ':', '/', '/'] := rfl
  rw [isReference, String.toList_ofList, hchars]
  simp [cut, hscheme, isHierarchy_slashes]

/-- Whether a character can stand in the address of a file. -/
def isFileCharacter (c : Char) : Bool :=
  isPathCharacter c || ['/', '?', '#', '%'].contains c

/-- A percent sign and the two digits after it stand for a character that is not allowed. -/
theorem isFileCharacter_of_isEncoded (hallowed : ∀ c, allowed c = true → isFileCharacter c = true)
    (hencoded : isEncoded allowed text = true) : ∀ c ∈ text, isFileCharacter c = true := by
  have hdigit : ∀ c, isHexDigit c = true → isFileCharacter c = true := fun c hdigit => by
    rw [isFileCharacter, isPathCharacter_of_isHexDigit hdigit, Bool.true_or]
  induction text using isEncoded.induct with
  | case1 => exact List.forall_mem_nil _
  | case2 first second rest ih =>
    rw [isEncoded, Bool.and_eq_true, Bool.and_eq_true] at hencoded
    obtain ⟨⟨hfirst, hsecond⟩, hrest⟩ := hencoded
    simp only [List.forall_mem_cons]
    exact ⟨by decide, hdigit first hfirst, hdigit second hsecond, ih hrest⟩
  | case3 c rest hplain ih =>
    rw [isEncoded, Bool.and_eq_true, Bool.and_eq_true] at hencoded
    · exact List.forall_mem_cons.mpr ⟨hallowed c hencoded.1.2, ih hencoded.2⟩
    · exact hplain

end Uri

namespace Server

variable {route : Route}

/-- The address of the file at a route. -/
def fileUri (route : Route) : String :=
  "file://" ++ FileTree.pathOf route

theorem fileUri_eq (route : Route) : fileUri route =
    String.ofList ("file://".toList ++ '/' :: ['/'].intercalate (route.map String.toList)) := by
  rw [fileUri, FileTree.pathOf, ← String.ofList_toList (s := "file://" ++ _), String.toList_append,
    String.toList_append, String.toList_intercalate]
  rfl

/-- A file has a valid address if its path has no characters but those that may stand in one. -/
theorem isReference_fileUri (hroute : ∀ name ∈ route, ∀ c ∈ name.toList, Uri.isPathCharacter c = true) :
    Uri.isReference (fileUri route) = true := by
  have hchars : ∀ c ∈ '/' :: ['/'].intercalate (route.map String.toList),
      Uri.isPathCharacter c = true ∨ c = '/' := by
    intro c hmem
    by_cases hslash : c = '/'
    · exact .inr hslash
    · have hbody := (List.mem_cons.mp hmem).resolve_left hslash
      obtain ⟨part, hpart, hc⟩ := (Text.mem_intercalate hslash).mp hbody
      obtain ⟨name, hname, rfl⟩ := List.mem_map.mp hpart
      exact .inl (hroute name hname c hc)
  have hmark : ∀ mark, Uri.isPathCharacter mark = false → mark ≠ '/' →
      mark ∉ '/' :: ['/'].intercalate (route.map String.toList) := by
    intro mark hpath hslash hmem
    rcases hchars mark hmem with hother | hother
    · rw [hpath] at hother
      cases hother
    · exact hslash hother
  rw [fileUri_eq, Uri.isReference_file, Uri.cut_of_not_mem (hmark '#' (by decide) (by decide)),
    Uri.cut_of_not_mem (hmark '?' (by decide) (by decide)), Uri.isPath,
    Uri.isEncoded_of_forall (by decide) fun c hmem => by simpa using hchars c hmem]
  rfl

/-- A file with another character in its path has no valid address. -/
theorem isFileCharacter_of_isReference (hreference : Uri.isReference (fileUri route) = true) :
    ∀ name ∈ route, ∀ c ∈ name.toList, Uri.isFileCharacter c = true := by
  intro name hname c hc
  rw [fileUri_eq, Uri.isReference_file, Bool.and_eq_true, Bool.and_eq_true] at hreference
  obtain ⟨⟨hfragment, hquery⟩, hpath⟩ := hreference
  by_cases hslash : c = '/'
  · rw [hslash]
    decide
  have hmem : c ∈ '/' :: ['/'].intercalate (route.map String.toList) :=
    List.mem_cons_of_mem _ ((Text.mem_intercalate hslash).mpr ⟨_, List.mem_map_of_mem hname, hc⟩)
  rcases Uri.mem_cut '#' hmem with hbefore | rfl | hafter
  · rcases Uri.mem_cut '?' hbefore with hbefore | rfl | hafter
    · exact Uri.isFileCharacter_of_isEncoded (by grind [Uri.isFileCharacter]) hpath c hbefore
    · decide
    · exact Uri.isFileCharacter_of_isEncoded (by grind [Uri.isFileCharacter]) hquery c hafter
  · decide
  · exact Uri.isFileCharacter_of_isEncoded (by grind [Uri.isFileCharacter]) hfragment c hafter

theorem fileName?_fileUri {name : String} (hname : Path.fileName? (FileTree.pathOf route) = some name) :
    Path.fileName? (fileUri route) = some name := by
  have hsegments : Path.segments (fileUri route) =
      Text.pieces '/' "file:/".toList ++ Path.segments (FileTree.pathOf route) := by
    rw [fileUri, Path.segments, Path.segments, String.toList_append]
    exact Text.pieces_append_cons "file:/".toList _
  rw [Path.fileName?, Path.components, hsegments, List.filterMap_append, List.getLast?_append,
    List.getLast?_append, FileTree.getLast?_steps hname, Option.some_or, Option.some_or]

/-- What a file holds is told by its address as well as by its path. -/
theorem languageOf?_fileUri {settings : Settings} {language : Language}
    (hlanguage : settings.languageOf? (FileTree.pathOf route) = some language) :
    settings.languageOf? (fileUri route) = some language := by
  obtain ⟨extension, hextension, _⟩ := Option.bind_eq_some_iff.mp hlanguage
  obtain ⟨name, hname, _⟩ := Option.bind_eq_some_iff.mp hextension
  rw [← hlanguage, Settings.languageOf?, Settings.languageOf?, Path.extension?, Path.extension?, hname,
    fileName?_fileUri hname]

/-- Two files have different addresses. -/
theorem eq_of_fileUri {other : Route} (hproper : Route.Proper route) (hother : Route.Proper other)
    (hsame : fileUri route = fileUri other) : route = other :=
  FileTree.eq_of_pathOf hproper hother (String.append_right_inj "file://" |>.mp hsame)

/-- The address of a path that leads to a file is that of the file, if it is valid. -/
theorem uriOf?_of_locate {files : FileTree} {path : String} (hplain : ¬Path.NamesScheme path)
    (hlocate : files.locate path = .ok route) :
    uriOf? files path = if Uri.isReference (fileUri route) then some (fileUri route) else none := by
  have hcanonical : files.canonical path = .ok (FileTree.pathOf route) := by
    rw [FileTree.canonical, hlocate]
    rfl
  rw [Path.NamesScheme] at hplain
  simp only [uriOf?, if_neg hplain, hcanonical, Option.map_some, Option.filter_some]
  rfl

end Server

end TemplateAnalysis
