import TemplateAnalysis.Proofs.Checker.Runs
import TemplateAnalysis.Proofs.Diagnostic
import TemplateAnalysis.Proofs.Template.Spelling
import TemplateAnalysis.Proofs.Text
import TemplateAnalysis.Proofs.Workspace.Agreement

namespace TemplateAnalysis

open Template (Outline Reference)

theorem Template.Lexer.not_isBlank_of_isNamePart {c : Char} (hpart : isNamePart c = true) :
    Text.isBlank c = false := by
  refine Bool.eq_false_of_not_eq_true fun hblank => ?_
  have hother : isNamePart c = false :=
    Text.of_isBlank (P := fun c => isNamePart c = false) hblank (by decide +kernel)
  rw [hother] at hpart
  cases hpart

/-- A reference of a template stands on a line of it, and its name is a word. -/
theorem Template.Outline.exists_standsOn {source : Source} {reference : Reference} {identifier : Identifier}
    (hmem : reference ∈ (Outline.ofSource source).references) (hname : identifier.name = reference.text)
    (hrange : identifier.range = reference.range) :
    identifier.name ≠ "" ∧ (∀ c ∈ identifier.name.toList, Text.isBlank c = false) ∧
      ∃ line front rest, identifier.StandsOn source line front rest := by
  obtain ⟨state, tag, hread⟩ := exists_evaluatedAt hmem
  obtain ⟨before, previous, word, after, htokens, hkind, hsame, _⟩ := hread.exists_word
  have hword : word ∈ tokenize source.chars := by simp [htokens]
  have hisWord : word.kind.isWord = true := by
    rw [TokenKind.isName, Bool.and_eq_true] at hkind
    exact hkind.1
  have htext : word.text = identifier.name := (congrArg Name.text hsame).trans hname.symm
  have hplain : ∀ c ∈ identifier.name.toList, Text.isBlank c = false := fun c hc =>
    Lexer.not_isBlank_of_isNamePart (Lexer.isNamePart_of_mem hword hisWord c (htext ▸ hc))
  have hne : identifier.name ≠ "" := by
    obtain ⟨c, rest, hcons, _⟩ := Lexer.exists_cons_of_mem hword
      (fun hother => by rw [hother] at hisWord; cases hisWord)
      (fun hother => by rw [hother] at hisWord; cases hisWord)
    rw [← htext]
    rintro hempty
    rw [hempty] at hcons
    cases hcons
  obtain ⟨earlier, later, hchars, hstart⟩ := (tokenize_covers source.chars).cut word hword
  have hplaced : identifier.range = (Place.past {} earlier).rangeOf identifier.name.toList := by
    rw [hrange, ← htext, ← hstart]
    exact (congrArg Name.range hsame).symm
  have hunbroken : '\n' ∉ identifier.name.toList := fun hmem => by
    have hblank := hplain '\n' hmem
    cases hblank
  have hcut : source.chars = earlier ++ (identifier.name.toList ++ later) := by
    rw [hchars, htext, List.append_assoc]
  exact ⟨hne, hplain, Identifier.exists_standsOn hcut hunbroken hplaced⟩

/-- A file that the settings take for a template is read as one. -/
theorem Source.content_of_template {settings : Settings} {source : Source}
    (hlanguage : settings.languageOf? source.name = some .template) :
    source.content = .template (Outline.ofSource source) := by
  rw [Source.content, Settings.ofExtension_of_languageOf? hlanguage]
  rfl

namespace Checker

open Diagnostic (PointsAt)

/-- The references of a template that have no declaration, with the files that a checker has written. -/
def Undefined (checker : Checker) (source : Source) (identifier : Identifier) : Prop :=
  ∃ reference ∈ (Outline.ofSource source).references, ∃ reason,
    Analysis.resolve (Outline.ofSource source).scopes checker.workspace.corpus.index
        checker.workspace.corpus.family reference = .unresolved reason ∧
      identifier = Analysis.identifierOf { name := reference.text, range := reference.range, reason }

variable {settings : Settings} {tree : FileTree} {names : List String} {checker : Checker}

/-- What a checker reports about a template are the diagnostics of its undefined references. -/
theorem Knows.mem_report_iff (hknows : Knows settings tree names checker) {source : Source}
    (hsource : source ∈ checker.sources.sources) (hname : source.name ∈ names)
    (hlanguage : settings.languageOf? source.name = some .template) {diagnostic : String} :
    diagnostic ∈ report checker source.name ↔
      ∃ identifier, Undefined checker source identifier ∧
        diagnostic = Diagnostic.ofUndefined source identifier := by
  obtain ⟨uploads, hcontains⟩ := hknows.contains
  obtain ⟨document, hdocument, found, hfound, hsame, hcontent⟩ := hcontains.document_of_name hname
  obtain rfl := hknows.reads.eq_of_name hknows.reads hfound hsource hsame
  rw [Source.content_of_template hlanguage] at hcontent
  rw [report, find?_eq_some hknows.reads hfound]
  simp only [hcontains.holds.undefined?_eq hdocument hcontent, Option.getD_some, List.mem_map, List.mem_filter,
    beq_iff_eq, Analysis.mem_undefined_iff]
  exact exists_congr fun identifier => and_congr_right fun _ => eq_comm

/-- The diagnostics of a run are those of the undefined references of its templates. -/
theorem Knows.mem_found_iff (hknows : Knows settings tree names checker) (hproper : tree.Proper)
    {paths found : List String} (hfound : (checker.check tree paths).1 = .ok found) {diagnostic : String} :
    diagnostic ∈ found ↔ ∃ source ∈ (checker.check tree paths).2.sources.sources,
      source.name ∈ templatesAt settings tree paths ∧
        ∃ identifier, Undefined (checker.check tree paths).2 source identifier ∧
          diagnostic = Diagnostic.ofUndefined source identifier := by
  obtain ⟨_, hnext, hperm⟩ := hknows.check_eq_ok hproper hfound
  have hknown : ∀ {name}, name ∈ templatesAt settings tree paths →
      name ∈ names ++ namesAt settings tree paths :=
    fun hname => List.mem_append_right _ (namesAt_of_mem_templatesAt hname)
  have hlanguage : ∀ {name}, name ∈ templatesAt settings tree paths →
      settings.languageOf? name = some .template := by
    intro name hname
    obtain ⟨file, hfile, rfl⟩ := List.mem_map.mp (mem_distinctBy_id.mp hname)
    obtain ⟨hmem, htemplate⟩ := List.mem_filter.mp hfile
    rw [← beq_iff_eq.mp htemplate]
    exact languageOf?_of_mem_namesOf hproper (fun _ => languageOf?_of_mem_filesAt) hmem
  rw [hperm.mem_iff, List.mem_flatMap]
  constructor
  · rintro ⟨name, hname, hreported⟩
    obtain ⟨_, hcontains⟩ := hnext.contains
    obtain ⟨_, _, source, hsource, rfl, _⟩ := hcontains.document_of_name (hknown hname)
    exact ⟨source, hsource, hname,
      (hnext.mem_report_iff hsource (hknown hname) (hlanguage hname)).mp hreported⟩
  · rintro ⟨source, hsource, hname, hreported⟩
    exact ⟨source.name, hname,
      (hnext.mem_report_iff hsource (hknown hname) (hlanguage hname)).mpr hreported⟩

/-- The diagnostics of a run are those of the undefined references of its templates. Each of them tells the
    file, the line and the byte of the line at which the reference begins, and shows the line. Below the line
    there is a blank for each byte before the name and a caret for each byte of the name, so the carets
    stand below the name where the line has only ASCII up to the end of the name and is one of the first 999. -/
theorem check_points (hproper : tree.Proper) (settings : Settings) (runs : List (List String))
    {paths found : List String} (hfound : ((after settings tree runs).check tree paths).1 = .ok found) :
    let loaded := ((after settings tree runs).check tree paths).2
    (∀ diagnostic, diagnostic ∈ found ↔ ∃ source ∈ loaded.sources.sources,
      source.name ∈ templatesAt settings tree paths ∧ ∃ identifier, Undefined loaded source identifier ∧
        diagnostic = Diagnostic.ofUndefined source identifier) ∧
    ∀ source identifier, Undefined loaded source identifier → ∃ reason line front rest,
      identifier.error = some reason ∧ identifier.StandsOn source line front rest ∧
      Diagnostic.ofUndefined source identifier =
        Diagnostic.printed source.name reason (line + 1) front identifier.name rest ∧
      (PointsAt (line + 1) front identifier.name.toList ↔
        Text.byteLength front + 3 = front.length + max 3 (toString (line + 1)).length ∧
          Text.byteLength identifier.name.toList = identifier.name.toList.length) ∧
      (line + 1 < 1000 → (∀ c ∈ front ++ identifier.name.toList, c.utf8Size = 1) →
        PointsAt (line + 1) front identifier.name.toList) := by
  intro loaded
  obtain ⟨_, hknows⟩ := Knows.after hproper settings runs
  refine ⟨fun diagnostic => hknows.mem_found_iff hproper hfound, ?_⟩
  rintro source identifier ⟨reference, hreference, reason, _, hidentifier⟩
  have herror : identifier.error = some reason.message := congrArg Identifier.error hidentifier
  obtain ⟨hne, hplain, line, front, rest, hstands⟩ := Outline.exists_standsOn hreference
    (congrArg Identifier.name hidentifier) (congrArg Identifier.range hidentifier)
  have hprinted := Diagnostic.ofUndefined_eq hstands hne hplain
  rw [herror, Option.getD_some] at hprinted
  exact ⟨reason.message, line, front, rest, herror, hstands, hprinted, Diagnostic.pointsAt_iff,
    Diagnostic.pointsAt_of_ascii⟩

/-- A page whose reference stands on its second line. -/
theorem check_points_second_line :
    let tree : FileTree := {
      workingDirectory := ["srv"], files := [(["srv", "i.html"], "é\r\n\x7b\x7b usr \x7d\x7d\r\n")] }
    let diagnostic := Diagnostic.printed "/srv/i.html" "no binding for `usr` in scope" 2
      ['\x7b', '\x7b', ' '] "usr" [' ', '\x7d', '\x7d']
    tree.Proper ∧ ((after {} tree []).check tree ["i.html"]).1 = .ok [diagnostic] ∧
      ∃ source ∈ ((after {} tree []).check tree ["i.html"]).2.sources.sources,
        ∃ identifier, Undefined ((after {} tree []).check tree ["i.html"]).2 source identifier ∧
          diagnostic = Diagnostic.ofUndefined source identifier := by
  intro tree diagnostic
  have hproper : tree.Proper := List.forall_mem_singleton.mpr (by decide +kernel)
  have hfound : ((after {} tree []).check tree ["i.html"]).1 = .ok [diagnostic] := by decide +kernel
  obtain ⟨source, hsource, _, hundefined⟩ :=
    ((check_points hproper {} [] hfound).1 diagnostic).mp (List.mem_singleton_self _)
  exact ⟨hproper, hfound, source, hsource, hundefined⟩

/-- Behind a letter of two bytes the carets stand one place too far. -/
theorem carets_shifted :
    let tree : FileTree := {
      workingDirectory := ["srv"], files := [(["srv", "i.html"], "é \x7b\x7b usr \x7d\x7d")] }
    let front := ['é', ' ', '\x7b', '\x7b', ' ']
    ((after {} tree []).check tree ["i.html"]).1 = .ok [Diagnostic.printed "/srv/i.html"
        "no binding for `usr` in scope" 1 front "usr" [' ', '\x7d', '\x7d']] ∧
      ¬ PointsAt 1 front "usr".toList := by
  decide +kernel

end Checker

end TemplateAnalysis
