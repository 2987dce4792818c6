import TemplateAnalysis.Proofs.Cursor.TemplateNames
import TemplateAnalysis.Proofs.Scope.Agreement
import TemplateAnalysis.Proofs.Template.Strings
import TemplateAnalysis.Proofs.Workspace.Agreement

namespace TemplateAnalysis

namespace Cursor

/-- Where a completion goes: it is inserted or it replaces, and not both. -/
def Edit.Places (edit : Edit) (item : Completion) : Prop :=
  match edit with
  | .insert range => item.insertRange = some range ∧ item.replaceRange = none
  | .replace range => item.insertRange = none ∧ item.replaceRange = some range

namespace Completion

open Template (Outline Token tokenize)

variable {workspace : Workspace} {document : Document} {outline : Outline} {position : Position}
  {edit : Edit} {items : List Completion}

theorem withEdit_places {item : Completion} (hinsert : item.insertRange = none)
    (hreplace : item.replaceRange = none) : edit.Places (item.withEdit edit) := by
  cases edit with
  | insert range => exact ⟨rfl, hreplace⟩
  | replace range => exact ⟨hinsert, rfl⟩

theorem filters_places (edit : Edit) : ∀ item ∈ filters edit, edit.Places item := by
  simp only [filters, List.forall_mem_map]
  exact fun _ _ => withEdit_places rfl rfl

theorem snippets_places (edit : Edit) (spaced : Bool) : ∀ item ∈ snippets edit spaced, edit.Places item := by
  simp only [snippets, List.forall_mem_map]
  exact fun _ _ => withEdit_places rfl rfl

theorem identifiers_places (workspace : Workspace) (outline : Outline) (position : Position) (edit : Edit) :
    ∀ item ∈ identifiers workspace outline position edit, edit.Places item := by
  simp only [identifiers, List.forall_mem_map]
  intro item hmem
  have hlisted := mem_of_mem_distinctBy hmem
  simp only [List.mem_append, List.mem_map] at hlisted
  rcases hlisted with (⟨_, _, rfl⟩ | ⟨_, _, rfl⟩) | ⟨_, _, rfl⟩
  all_goals exact withEdit_places rfl rfl

theorem templates_places (workspace : Workspace) (document : Document) (edit : Edit) :
    ∀ item ∈ templates workspace document edit, edit.Places item := by
  simp only [templates, List.forall_mem_map]
  exact fun _ _ => withEdit_places rfl rfl

theorem links_places (workspace : Workspace) (edit : Edit) :
    ∀ item ∈ links workspace edit, edit.Places item := by
  simp only [links, List.forall_mem_map]
  exact fun _ _ => withEdit_places rfl rfl

/-- Where the completions within a literal go: they replace what has been typed of its content. -/
def typedEdit (source : Source) (token : Token) (offset : Nat) : Edit :=
  let start := token.start.offset + 1
  let typed : Span := { start, stop := max offset start }
  if (typed.text source).isEmpty then .insert (.empty (source.positionAt offset))
  else .replace (source.rangeOf typed)

/-- Where the completions at an offset go, given the last token that begins before it. -/
def editAt (source : Source) (token : Token) (offset : Nat) (position : Position) : Edit :=
  if token.kind = .string ∧ isInside token offset = true then typedEdit source token offset
  else if token.kind.isWord = true ∧ offset ≤ token.stop.offset then .replace token.range
  else .insert (.empty position)

theorem inString_eq (workspace : Workspace) (document : Document) (token : Token) (earlier : List Token)
    (offset : Nat) :
    inString workspace document token earlier offset =
      let start := token.start.offset + 1
      let typed : Span := { start, stop := max offset start }
      if (tagHead? token earlier).any namesTemplates then
        some (templates workspace document (typedEdit document.source token offset))
      else if (typed.text document.source).toList.head? = some '/' then
        some (links workspace (typedEdit document.source token offset))
      else none := rfl

theorem inString_places {token : Token} {earlier : List Token} {offset : Nat}
    (hitems : inString workspace document token earlier offset = some items) :
    ∀ item ∈ items, (typedEdit document.source token offset).Places item := by
  rw [inString_eq] at hitems
  simp only at hitems
  split_ifs at hitems <;> cases hitems
  · exact templates_places _ _ _
  · exact links_places _ _

theorem atWord_places {kind? : Option Template.TokenKind}
    (hitems : atWord workspace outline position edit kind? = some items) :
    ∀ item ∈ items, edit.Places item := by
  unfold atWord at hitems
  split at hitems <;> cases hitems
  · exact snippets_places _ _
  · exact filters_places _
  · exact identifiers_places _ _ _ _

/-- Within a template the last token before the cursor tells where completions go. -/
theorem inTemplate_places {token : Token} {earlier : List Token} {offset : Nat}
    (hitems : inTemplate workspace document outline offset position (token :: earlier) = some items) :
    ∀ item ∈ items, (editAt document.source token offset position).Places item := by
  unfold inTemplate at hitems
  simp only at hitems
  unfold editAt
  split at hitems
  next => cases hitems
  next => cases hitems
  next hkind =>
    cases hitems
    rw [hkind]
    exact snippets_places _ _
  next hkind =>
    cases hitems
    rw [hkind]
    exact filters_places _
  next => cases hitems
  next =>
    simp only [decide_eq_true_eq] at hitems
    split_ifs at hitems ⊢
    · exact inString_places hitems
    · exact atWord_places hitems
    · cases hitems
      exact identifiers_places _ _ _ _

/-- The last token that begins before an offset. -/
structure IsLastBefore (source : Source) (offset : Nat) (token : Token) : Prop where
  mem : token ∈ tokenize source.chars
  start : token.start.offset < offset
  only : ∀ other ∈ tokenize source.chars, other.kind ≠ .endOfFile → other.start.offset < offset →
    offset ≤ other.stop.offset → other = token

/-- Within a template completions go where the last token before the cursor tells. -/
theorem exists_editAt {source : Source} {offset : Nat} (hcontent : document.content = .template (.ofSource source))
    (hoffset : document.source.offsetAt position = some offset)
    (hitems : at? workspace document position = some items) :
    ∃ token, IsLastBefore source offset token ∧
      ∀ item ∈ items, (editAt document.source token offset position).Places item := by
  rw [at?, hoffset, Option.bind_some, hcontent] at hitems
  have htokens : (Outline.ofSource source).tokens = tokenize source.chars := rfl
  simp only [htokens] at hitems
  generalize hbefore : (tokenize source.chars).filter (fun token =>
    token.kind != .endOfFile && decide (token.start.offset < offset)) = before at hitems
  rcases before.eq_nil_or_concat with rfl | ⟨earlier, token, rfl⟩
  · cases hitems
  · rw [List.concat_eq_append, List.reverse_append, List.reverse_singleton, List.singleton_append] at hitems
    have hmem : token ∈ (tokenize source.chars).filter (fun token =>
        token.kind != .endOfFile && decide (token.start.offset < offset)) := by
      rw [hbefore]
      simp
    obtain ⟨hlisted, hstart⟩ := List.mem_filter.mp hmem
    rw [Bool.and_eq_true, decide_eq_true_eq] at hstart
    refine ⟨token, ⟨hlisted, hstart.2, fun other hother hkind hfirst hlast => ?_⟩, inTemplate_places hitems⟩
    obtain ⟨front, back, hsplit⟩ := List.append_of_mem hother
    have hsame := Template.filter_before hsplit hkind hfirst hlast
    rw [hbefore, List.concat_eq_append] at hsame
    exact (List.append_singleton_inj.mp hsame).2.symm

/-- Within a literal what has been typed of its content is replaced. Nothing is replaced if nothing has
    been typed. -/
theorem typedEdit_eq {source : Source} {offset : Nat} {token : Token} {front back : List Char}
    (hcut : token.Cut source offset front back) (hmem : token ∈ tokenize source.chars)
    (hstring : token.kind = .string) :
    typedEdit source token offset =
      if offset = token.start.offset + 1 then .insert (.empty (source.positionAt offset))
      else .replace { start := token.content.range.start, stop := source.positionAt offset } := by
  obtain ⟨quote, typed, rfl, hquote, hsplit⟩ := hcut.exists_typed hmem hstring
  obtain ⟨earlier, later, htext, hstart⟩ := Template.exists_placed hmem
  have hsize : quote.utf8Size = 1 := by rcases hquote with rfl | rfl <;> decide
  have hfirst : token.start.offset + 1 = Text.byteLength (earlier ++ [quote]) := by
    rw [hstart, Place.offset_past, Nat.zero_add, Text.byteLength_append, Text.byteLength_cons, hsize]
    rfl
  have hlast : offset = token.start.offset + 1 + Text.byteLength typed := by
    rw [hcut.offset_eq, Place.offset_past, Text.byteLength_cons, hsize, Nat.add_assoc]
  have hcut' : source.chars = earlier ++ [quote] ++ (typed ++ (back ++ later)) := by
    rw [htext, hsplit]
    simp
  have hslice := Text.slice?_append (earlier ++ [quote]) typed (back ++ later)
  rw [← hcut', ← hfirst, ← hlast] at hslice
  have hposition : source.positionAt (token.start.offset + 1) = token.content.range.start := by
    rw [hfirst, Source.positionAt_eq hcut', Token.content_range hsplit hquote, Place.past_append, ← hstart]
    rfl
  -- The quote mark is one byte, so nothing has been typed exactly at the offset behind it.
  have hempty : (String.ofList typed).isEmpty = true ↔ offset = token.start.offset + 1 := by
    rw [hlast]
    cases typed with
    | nil => simp
    | cons c typed =>
      have hpos := c.utf8Size_pos
      simp
      omega
  have hmax : max offset (token.start.offset + 1) = offset := by omega
  unfold typedEdit
  simp only [hmax, Span.text, hslice, Option.getD_some, hempty, Source.rangeOf, hposition]

end Completion

end Cursor

/-- A range lies within a token of the template, or within the name of a template that the program
    mentions. -/
def Document.Underlies (document : Document) (range : Range) : Prop :=
  match document.content with
  | .template outline => ∃ token ∈ outline.tokens,
    token.range.start ≤ range.start ∧ range.stop ≤ token.range.stop
  | .program _ identifiers => ∃ identifier ∈ identifiers, identifier.kind = .templateRef ∧
    identifier.range.start ≤ range.start ∧ range.stop ≤ identifier.range.stop

namespace Cursor

/-- Completions at an offset of a document touch only what stands there. -/
structure EditsAt (document : Document) (offset : Nat) (items : List Completion) : Prop where
  /-- A completion is inserted or it replaces, and not both. -/
  exclusive : ∀ item ∈ items, item.insertRange.isSome = !item.replaceRange.isSome
  /-- What is inserted is inserted at the cursor. -/
  insert : ∀ item ∈ items, ∀ range, item.insertRange = some range →
    range = .empty (document.source.positionAt offset)
  /-- What is replaced begins before the cursor, ends there or behind it, and does not go beyond one
      token. -/
  replace : ∀ item ∈ items, ∀ range, item.replaceRange = some range →
    range.start < document.source.positionAt offset ∧
      document.source.positionAt offset ≤ range.stop ∧ document.Underlies range
  /-- Within a word and at its end the word is replaced. -/
  word : ∀ outline, document.content = .template outline → ∀ token ∈ outline.tokens,
    token.kind.isWord = true → token.start.offset < offset → offset ≤ token.stop.offset →
    ∀ item ∈ items, item.replaceRange = some token.range
  /-- Of a literal only the content before the cursor is replaced. -/
  string : ∀ outline, document.content = .template outline → ∀ token ∈ outline.tokens,
    token.kind = .string → token.start.offset < offset → offset ≤ token.stop.offset →
    ∀ item ∈ items, ∀ range, item.replaceRange = some range →
      range = { start := token.content.range.start, stop := document.source.positionAt offset }
  /-- Within a literal it is replaced, unless there is none. -/
  inside : ∀ outline, document.content = .template outline → ∀ token ∈ outline.tokens,
    token.kind = .string → token.start.offset < offset → offset < token.stop.offset →
    document.source.positionAt offset ≤ token.content.range.stop ∧
      ∀ item ∈ items, document.source.positionAt offset = token.content.range.start ∨
        item.replaceRange =
          some { start := token.content.range.start, stop := document.source.positionAt offset }

/-- A completion goes to the cursor if it is inserted there or replaces what stands there. -/
def Edit.AtCursor (document : Document) (offset : Nat) (edit : Edit) : Prop :=
  let position := document.source.positionAt offset
  edit = .insert (.empty position) ∨ ∃ range, edit = .replace range ∧
    range.start < position ∧ position ≤ range.stop ∧ document.Underlies range

namespace Edit.Places

variable {document : Document} {offset : Nat} {edit : Edit} {item : Completion} {range : Range}

theorem exclusive (hplaces : edit.Places item) :
    item.insertRange.isSome = !item.replaceRange.isSome := by
  cases edit <;> rw [hplaces.1, hplaces.2] <;> rfl

theorem insert (hplaces : edit.Places item) (hcursor : edit.AtCursor document offset)
    (hinsert : item.insertRange = some range) : range = .empty (document.source.positionAt offset) := by
  rcases hcursor with rfl | ⟨_, rfl, _⟩
  · exact (Option.some.inj (hplaces.1.symm.trans hinsert)).symm
  · rw [hplaces.1] at hinsert
    cases hinsert

theorem replace (hplaces : edit.Places item) (hreplace : item.replaceRange = some range) :
    edit = .replace range := by
  cases edit with
  | insert =>
    rw [hplaces.2] at hreplace
    cases hreplace
  | replace other => rw [Option.some.inj (hplaces.2.symm.trans hreplace)]

theorem within (hplaces : edit.Places item) (hcursor : edit.AtCursor document offset)
    (hreplace : item.replaceRange = some range) :
    range.start < document.source.positionAt offset ∧
      document.source.positionAt offset ≤ range.stop ∧ document.Underlies range := by
  obtain rfl := hplaces.replace hreplace
  rcases hcursor with hinsert | ⟨other, hsame, hrange⟩
  · cases hinsert
  · cases hsame
    exact hrange

end Edit.Places

namespace Completion

open Template (Outline Token tokenize)

variable {workspace : Workspace} {document : Document} {items : List Completion} {offset : Nat}

/-- The completions of a program replace what stands of a name before the cursor. -/
theorem editsAt_program {language : HostLanguage} {identifiers : List Identifier}
    (hcontent : document.content = .program language identifiers)
    (hitems : inProgram workspace document identifiers (document.source.positionAt offset) = some items) :
    EditsAt document offset items := by
  obtain ⟨identifier, hfound, rfl⟩ := Option.map_eq_some_iff.mp hitems
  have hmem := List.mem_of_find?_eq_some hfound
  have htouches := List.find?_some hfound
  simp only [Bool.and_eq_true, beq_iff_eq, Range.touches, decide_eq_true_eq] at htouches
  obtain ⟨hkind, hstart, hstop⟩ := htouches
  simp only
  generalize hedit : (if (Range.isEmpty { start := identifier.range.start
                                          stop := document.source.positionAt offset }) = true
    then Edit.insert (.empty (document.source.positionAt offset))
    else .replace { start := identifier.range.start, stop := document.source.positionAt offset }) = edit
  have hcursor : edit.AtCursor document offset := by
    subst hedit
    split
    next => exact .inl rfl
    next hwide =>
      refine .inr ⟨_, rfl, ?_, le_refl _, ?_⟩
      · simpa [Range.isEmpty] using hwide
      · rw [Document.Underlies, hcontent]
        exact ⟨identifier, hmem, hkind, le_refl _, hstop⟩
  have hplaces := templates_places workspace document edit
  refine ⟨fun item hmem => (hplaces item hmem).exclusive,
    fun item hmem range => (hplaces item hmem).insert hcursor,
    fun item hmem range => (hplaces item hmem).within hcursor, ?_, ?_, ?_⟩
  all_goals
    intro outline htemplate
    rw [hcontent] at htemplate
    cases htemplate

theorem le_stop_of_isInside {token : Token} (hinside : isInside token offset = true) :
    offset ≤ token.stop.offset := by
  simp only [isInside, Bool.and_eq_true, Bool.or_eq_true, decide_eq_true_eq] at hinside
  omega

theorem isInside_of_lt {token : Token} (hstart : token.start.offset < offset)
    (hstop : offset < token.stop.offset) : isInside token offset = true := by
  simp [isInside, hstart, hstop]

section LastToken

variable {source : Source} {token : Token}

theorem editAt_word (position : Position) (hword : token.kind.isWord = true)
    (hstop : offset ≤ token.stop.offset) : editAt source token offset position = .replace token.range := by
  have hstring : ¬ (token.kind = .string ∧ isInside token offset = true) := by
    rintro ⟨hkind, -⟩
    rw [hkind] at hword
    cases hword
  rw [editAt, if_neg hstring, if_pos ⟨hword, hstop⟩]

theorem editAt_inside (position : Position) (hstring : token.kind = .string)
    (hinside : isInside token offset = true) :
    editAt source token offset position = typedEdit source token offset := by
  rw [editAt, if_pos ⟨hstring, hinside⟩]

/-- What is replaced of a literal is its content before the cursor. -/
theorem editAt_string {position : Position} {range : Range} (hmem : token ∈ tokenize source.chars)
    (hboundary : source.IsBoundary offset) (hstring : token.kind = .string)
    (hstart : token.start.offset < offset) (hstop : offset ≤ token.stop.offset)
    (hreplace : editAt source token offset position = .replace range) :
    range = { start := token.content.range.start, stop := source.positionAt offset } := by
  obtain ⟨front, back, hcut⟩ := Token.exists_cut hmem hboundary hstart hstop
  have hword : ¬ (token.kind.isWord = true ∧ offset ≤ token.stop.offset) := by
    rintro ⟨hword, -⟩
    rw [hstring] at hword
    cases hword
  rw [editAt, typedEdit_eq hcut hmem hstring, if_neg hword] at hreplace
  split_ifs at hreplace
  cases hreplace
  rfl

/-- Completions go to the cursor, whatever the last token before it is. -/
theorem editAt_atCursor (hcontent : document.content = .template (.ofSource document.source))
    (hmem : token ∈ tokenize document.source.chars) (hboundary : document.source.IsBoundary offset)
    (hstart : token.start.offset < offset) :
    (editAt document.source token offset (document.source.positionAt offset)).AtCursor document offset := by
  have hunderlies : ∀ range, token.range.start ≤ range.start → range.stop ≤ token.range.stop →
      document.Underlies range := by
    intro range hfirst hlast
    rw [Document.Underlies, hcontent]
    exact ⟨token, hmem, hfirst, hlast⟩
  unfold editAt
  split_ifs with hstring hword
  · obtain ⟨front, back, hcut⟩ := Token.exists_cut hmem hboundary hstart (le_stop_of_isInside hstring.2)
    rw [typedEdit_eq hcut hmem hstring.1]
    split_ifs with hempty
    · exact .inl rfl
    · refine .inr ⟨_, rfl, ?_, le_refl _, hunderlies _ token.content_within.1 hcut.le_stop⟩
      exact ((hcut.content_start_cases hmem hstring.1).resolve_left (hempty ·.1)).2
  · obtain ⟨front, back, hcut⟩ := Token.exists_cut hmem hboundary hstart hword.2
    exact .inr ⟨_, rfl, hcut.start_lt, hcut.le_stop, hunderlies _ (le_refl _) (le_refl _)⟩
  · exact .inl rfl

end LastToken

/-- The completions of a template touch the last token before the cursor only. -/
theorem editsAt_template (hcontent : document.content = .template (.ofSource document.source))
    (hboundary : document.source.IsBoundary offset) {last : Token}
    (hlast : IsLastBefore document.source offset last)
    (hplaces : ∀ item ∈ items, (editAt document.source last offset
      (document.source.positionAt offset)).Places item) : EditsAt document offset items := by
  have hcursor := editAt_atCursor hcontent hlast.mem hboundary hlast.start
  -- Any word or literal at the cursor is the last token before it.
  have honly : ∀ outline, document.content = .template outline → ∀ token ∈ outline.tokens,
      token.kind ≠ .endOfFile → token.start.offset < offset → offset ≤ token.stop.offset →
      token = last := by
    intro outline htemplate
    rw [hcontent] at htemplate
    cases htemplate
    exact hlast.only
  exact {
    exclusive item hmem := (hplaces item hmem).exclusive
    insert item hmem range := (hplaces item hmem).insert hcursor
    replace item hmem range := (hplaces item hmem).within hcursor
    word outline htemplate token htoken hword hstart hstop item hmem := by
      have hkind : token.kind ≠ .endOfFile := by
        intro hkind
        rw [hkind] at hword
        cases hword
      obtain rfl := honly outline htemplate token htoken hkind hstart hstop
      have hplace := hplaces item hmem
      rw [editAt_word _ hword hstop] at hplace
      exact hplace.2
    string outline htemplate token htoken hstring hstart hstop item hmem range hreplace := by
      obtain rfl := honly outline htemplate token htoken (by simp [hstring]) hstart hstop
      exact editAt_string hlast.mem hboundary hstring hstart hstop ((hplaces item hmem).replace hreplace)
    inside outline htemplate token htoken hstring hstart hstop := by
      obtain rfl := honly outline htemplate token htoken (by simp [hstring]) hstart hstop.le
      obtain ⟨front, back, hcut⟩ := Token.exists_cut hlast.mem hboundary hstart hstop.le
      refine ⟨hcut.le_content_stop hlast.mem hstring (hcut.back_ne_nil hstop), fun item hmem => ?_⟩
      have hplace := hplaces item hmem
      rw [editAt_inside _ hstring (isInside_of_lt hstart hstop), typedEdit_eq hcut hlast.mem hstring] at hplace
      split_ifs at hplace with hempty
      · exact .inl (((hcut.content_start_cases hlast.mem hstring).resolve_right (·.1 hempty)).2).symm
      · exact .inr hplace.2 }

end Completion

end Cursor

namespace Workspace

open Cursor (Completion EditsAt)
open Host (DocumentId)

/-- Completions touch only what is under the cursor: in every workspace that can be reached, and at every
    offset of a document that has a position of its own. -/
theorem complete?_edits (settings : Settings) (hints : LinkHints) (operations : List Operation)
    (arrangement : Arrangement) {id : DocumentId} {filename : String} {document : Document} {offset : Nat}
    {items : List Completion}
    (hfind : (after settings hints operations arrangement).corpus.find? id filename = some document)
    (hboundary : document.source.IsBoundary offset) (hreturn : ¬ document.source.FollowsReturn offset)
    (hitems : (after settings hints operations arrangement).complete? id filename
      (document.source.positionAt offset) = some items) : EditsAt document offset items := by
  have hholds := Holds.after settings hints operations arrangement
  have hoffset := Source.offsetAt_positionAt hboundary hreturn
  rw [complete?, hfind, Option.bind_some] at hitems
  cases hcontent : document.content with
  | template outline =>
    obtain rfl := hholds.outline_eq (hholds.mem_stored_of_find? hfind) hcontent
    obtain ⟨last, hlast, hplaces⟩ := Completion.exists_editAt hcontent hoffset hitems
    exact Completion.editsAt_template hcontent hboundary hlast hplaces
  | program language identifiers =>
    rw [Completion.at?, hoffset, Option.bind_some, hcontent] at hitems
    exact Completion.editsAt_program hcontent hitems

/-- In a page that extends a layout, the completion of its name replaces what has been typed of it. -/
theorem layout_edited : ∃ document items,
    (after templateSettings {} layoutUploads).corpus.find? 2 "/srv/page.html" = some document ∧
      document.source.IsBoundary 15 ∧ ¬ document.source.FollowsReturn 15 ∧
      (after templateSettings {} layoutUploads).complete? 2 "/srv/page.html"
        (document.source.positionAt 15) = some items ∧ EditsAt document 15 items := by
  let source : Source := { name := "/srv/page.html", text := "\x7b% extends \"mail/base.html\" %\x7d" }
  obtain ⟨document, hfind, hsource⟩ : ∃ document,
      (after templateSettings {} layoutUploads).corpus.find? 2 "/srv/page.html" = some document ∧
      document.source = source := by
    refine ⟨Option.get ((after templateSettings {} layoutUploads).corpus.find? 2 "/srv/page.html") ?_,
      (Option.some_get _).symm, ?_⟩ <;> decide +kernel
  have hboundary : document.source.IsBoundary 15 := by
    rw [hsource]
    exact ⟨source.chars.take 15, source.chars.drop 15, by decide +kernel, by decide +kernel⟩
  have hreturn : ¬ document.source.FollowsReturn 15 := by
    rw [hsource]
    rintro ⟨earlier, later, hchars, -⟩
    have hplain : '\r' ∉ source.chars := by decide +kernel
    exact hplain (by simp [hchars])
  obtain ⟨items, hitems⟩ : ∃ items, (after templateSettings {} layoutUploads).complete? 2
      "/srv/page.html" (document.source.positionAt 15) = some items := by
    rw [hsource]
    exact Option.isSome_iff_exists.mp (by decide +kernel)
  exact ⟨document, items, hfind, hboundary, hreturn, hitems,
    complete?_edits templateSettings {} layoutUploads {} hfind hboundary hreturn hitems⟩

end Workspace

end TemplateAnalysis
