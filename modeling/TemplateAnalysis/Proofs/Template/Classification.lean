import Mathlib.Data.List.Pairwise
import TemplateAnalysis.Proofs.Template.Moved
import TemplateAnalysis.Proofs.Template.Records

namespace TemplateAnalysis.Template

/-- Tags take up tokens from the front to the back: a token stands outside of all tags, or it opens a
    tag, with the tokens up to the next one that cannot stand in it. -/
inductive Tag.Partitions (stop : Position) : List Token → List Tag → Prop
  | nil : Partitions stop [] []
  | outside {token : Token} {rest : List Token} {tags : List Tag}
      (hkind : token.kind.isTagBegin = false) (hrest : Partitions stop rest tags) :
      Partitions stop (token :: rest) tags
  | tag {opening : Token} {form : TagForm} {body later : List Token} {tags : List Tag}
      (hopens : opening.kind = .tagBegin form)
      (hinside : ∀ token ∈ body, token.kind.isInsideTag = true)
      (hstops : ∀ token ∈ later.head?, token.kind.isInsideTag = false)
      (hlater : Partitions stop later tags) :
      Partitions stop (opening :: (body ++ later))
        ({ form, start := opening.start.position, body, after := stopBefore stop later } :: tags)

namespace Tag.Partitions

variable {stop : Position} {tokens : List Token} {tags : List Tag}

theorem ofTokens (stop : Position) (tokens : List Token) :
    Partitions stop tokens (Tag.ofTokens stop tokens) := by
  fun_induction Tag.ofTokens stop tokens with
  | case1 => exact .nil
  | case2 token rest form hkind later ih =>
    have hrest : rest = rest.takeWhile (·.kind.isInsideTag) ++ later :=
      List.takeWhile_append_dropWhile.symm
    have hinside : ∀ other ∈ rest.takeWhile (·.kind.isInsideTag), other.kind.isInsideTag = true :=
      fun other hother => List.all_eq_true.mp List.all_takeWhile other hother
    have hstops : ∀ other ∈ later.head?, other.kind.isInsideTag = false := by
      intro other hother
      rcases takeWhile_break rest with hnil | ⟨first, others, hcons, houtside⟩
      · rw [show later = [] from hnil] at hother
        cases hother
      · rw [show later = first :: others from hcons] at hother
        exact Option.some.inj hother ▸ houtside
    have htag := Partitions.tag hkind hinside hstops ih
    rwa [← hrest] at htag
  | case3 token rest hkind ih =>
    refine .outside ?_ ih
    cases hbegin : token.kind with
    | tagBegin form => exact absurd hbegin (hkind form)
    | _ => rfl

/-- No token belongs to two tags. -/
theorem bodies_sublist (hpartitions : Partitions stop tokens tags) :
    (tags.flatMap (·.body)).Sublist tokens := by
  induction hpartitions with
  | nil => exact List.Sublist.slnil
  | outside _ _ ih => exact ih.cons _
  | tag _ _ _ _ ih => exact ((List.Sublist.refl _).append ih).cons _

end Tag.Partitions

/-- The part of a token that is recorded. Of the name of a template and of a link it is what stands
    between the quote marks. -/
def Use.range (use : Use) (token : Token) : Range :=
  match use with
  | .template | .link => token.content.range
  | _ => token.range

theorem Token.content_within (token : Token) :
    token.start.position ≤ token.content.range.start ∧
      token.content.range.stop ≤ token.stop.position := by
  obtain ⟨rest, hrest⟩ := Token.Moved.opening_append_unquote token.text.toList
  refine ⟨Place.position_le_past token.start _, ?_⟩
  rw [Token.stop, ← hrest, Place.past_append, Place.past_append]
  exact Place.position_le_past _ rest

theorem Use.range_within (use : Use) (token : Token) :
    token.start.position ≤ (use.range token).start ∧
      (use.range token).stop ≤ token.stop.position := by
  cases use with
  | template | link => exact token.content_within
  | reference | filter | declaration => exact ⟨le_refl _, le_refl _⟩

/-- The opening quote mark of a text and what stands behind it are not both empty. -/
theorem opening_append_unquote_ne_nil {text : List Char} (htext : text ≠ []) :
    ((text.take 1).filter fun c => c = '"' || c = '\'') ++ unquote text ≠ [] := by
  obtain ⟨c, rest, rfl⟩ := List.exists_cons_of_ne_nil htext
  by_cases hquote : (c = '"' || c = '\'')
  · simp [hquote]
  · refine List.append_ne_nil_of_right_ne_nil _ ?_
    cases rest with
    | nil => simp_all [unquote]
    | cons next others =>
      simp only [unquote, hquote, Bool.false_eq_true, if_false]
      split <;> simp

theorem Token.start_lt_content_stop {token : Token}
    (hwide : token.start.position < token.stop.position) :
    token.start.position < token.content.range.stop := by
  have htext : token.text.toList ≠ [] := by
    intro hempty
    rw [Token.stop, hempty] at hwide
    exact hwide.ne rfl
  have hpast := token.start.position_lt_past (opening_append_unquote_ne_nil htext)
  rwa [Place.past_append] at hpast

/-- The recorded part of a token ends behind the beginning of the token, also where nothing stands
    between the quote marks. -/
theorem Use.start_lt_stop (use : Use) {token : Token}
    (hwide : token.start.position < token.stop.position) :
    token.start.position < (use.range token).stop := by
  cases use with
  | template | link => exact Token.start_lt_content_stop hwide
  | reference | filter | declaration => exact hwide

/-- What is recorded of each use of a token. -/
def recordedRanges (uses : List (Token × Use)) : List Range :=
  uses.map fun used => used.2.range used.1

/-- Ranges of recorded tokens have no position in common. -/
theorem recordedRanges_pairwise {high low : Position} {tokens : List Token}
    {uses : List (Token × Use)} (hbetween : Token.Between high low tokens)
    (huses : (uses.map (·.1)).Sublist tokens) : (recordedRanges uses).Pairwise Range.Apart := by
  have htokens := List.pairwise_map.mp (hbetween.pairwise.sublist huses)
  refine List.pairwise_map.mpr (htokens.imp fun {first second} hle => Range.apart_of_le ?_)
  calc (first.2.range first.1).stop ≤ first.1.stop.position := (first.2.range_within first.1).2
    _ ≤ second.1.start.position := hle
    _ ≤ (second.2.range second.1).start := (second.2.range_within second.1).1

/-- No two recorded tokens have the same range if none of them is empty. -/
theorem recordedRanges_nodup {high low : Position} {tokens : List Token}
    {uses : List (Token × Use)} (hbetween : Token.Between high low tokens)
    (huses : (uses.map (·.1)).Sublist tokens)
    (hwide : ∀ used ∈ uses, used.1.start.position < used.1.stop.position) :
    (recordedRanges uses).Nodup := by
  have htokens := List.pairwise_map.mp (hbetween.pairwise.sublist huses)
  refine List.pairwise_map.mpr (htokens.imp_of_mem fun {first second} _ hsecond hle hsame => ?_)
  have hlt : (first.2.range first.1).stop < (second.2.range second.1).stop :=
    calc (first.2.range first.1).stop ≤ first.1.stop.position := (first.2.range_within first.1).2
      _ ≤ second.1.start.position := hle
      _ < (second.2.range second.1).stop := second.2.start_lt_stop (hwide second hsecond)
  exact hlt.ne (congrArg Range.stop hsame)

/-- The recorded ranges, by the kind of the record. -/
theorem coe_recordedRanges (uses : List (Token × Use)) : (↑(recordedRanges uses) : Multiset Range) =
    ↑((Use.reference.among uses).map Token.range) + ↑((Use.filter.among uses).map Token.range) +
      (↑((Use.declaration.among uses).map Token.range) +
        ↑((Use.template.among uses).map fun token => token.content.range) +
        ↑((Use.link.among uses).map fun token => token.content.range)) := by
  induction uses with
  | nil => rfl
  | cons used rest ih =>
    obtain ⟨token, use⟩ := used
    rw [recordedRanges, List.map_cons, ← Multiset.cons_coe, ← recordedRanges, ih]
    cases use <;> simp [Use.among, Use.range, ← Multiset.cons_coe]

namespace Outline

/-- The records of an outline come from its tokens. Each token gives rise to one of them at most, in the
    order of the text: a reference, a filter, the name of a template, a link, or a declaration that
    stands in the text. -/
structure Classified (outline : Outline) (uses : List (Token × Use)) : Prop where
  tokens : (uses.map (·.1)).Sublist outline.tokens
  recorded : Recorded uses outline.mentions (Use.declaration.among uses)
  declarations : outline.scopes.ranges ≤ ↑((Use.declaration.among uses).map Token.range)

/-- Every declaration, every reference and every other mention of an outline is recorded for a token of
    its own. -/
theorem Classified.ranges_le {outline : Outline} {uses : List (Token × Use)}
    (hclassified : outline.Classified uses) :
    (↑(outline.references.map (·.range)) : Multiset Range) + ↑(outline.filters.map (·.range)) +
        (outline.scopes.ranges + ↑(outline.templates.map (·.range)) +
          ↑(outline.links.map (·.range))) ≤ ↑(recordedRanges uses) := by
  have hnames : ∀ tokens : List Token,
      (tokens.map Token.name).map (·.range) = tokens.map Token.range := fun _ => List.map_map
  have hcontents : ∀ tokens : List Token,
      (tokens.map Token.content).map (·.range) = tokens.map fun token => token.content.range :=
    fun _ => List.map_map
  have hidentifiers : ∀ identifiers : List Identifier,
      (identifiers.map nameOf).map (·.range) = identifiers.map (·.range) := fun _ => List.map_map
  have hreferences := congrArg (List.map (·.range)) hclassified.recorded.references
  have hfilters := congrArg (List.map (·.range)) hclassified.recorded.filters
  have htemplates := congrArg (List.map (·.range)) hclassified.recorded.templates
  have hlinks := congrArg (List.map (·.range)) hclassified.recorded.links
  rw [hnames, mentions, List.map_map] at hreferences
  rw [hnames] at hfilters
  rw [hcontents, mentions, hidentifiers] at htemplates hlinks
  rw [coe_recordedRanges, ← hreferences, ← hfilters, ← htemplates, ← hlinks]
  have hdeclarations := hclassified.declarations
  exact add_le_add (le_refl _) (add_le_add (add_le_add hdeclarations (le_refl _)) (le_refl _))

/-- The tokens that are recorded stand in tags. -/
theorem exists_classified_inside (source : Source) : ∃ uses, (ofSource source).Classified uses ∧
    (uses.map (·.1)).Sublist
      ((Tag.ofTokens source.endPosition (tokenize source.chars)).flatMap (·.body)) := by
  let stop := source.endPosition
  let initial : State := { scopes := .ofEnd stop }
  let tags := Tag.ofTokens stop (tokenize source.chars)
  obtain ⟨uses, mentions, declared, huses, hrecorded, hmentions, hranges⟩ :=
    exists_recorded initial tags
  have hdeclared : Use.declaration.among uses = declared := hrecorded.declared.symm
  refine ⟨uses, ⟨huses.trans (Tag.Partitions.ofTokens stop _).bodies_sublist, ?_, ?_⟩, huses⟩
  · have hfinished : (ofSource source).mentions = initial.mentions ++ mentions :=
      (mentions_ofTokens stop _).trans hmentions
    rw [hfinished, hdeclared]
    exact (Mentions.empty_append mentions).symm ▸ hrecorded
  · have hinitial : initial.ranges = 0 := rfl
    rw [hinitial, add_zero] at hranges
    rw [hdeclared]
    exact (ranges_finish_le stop (tags.foldl step initial)).trans hranges

/-- Every token of a template is recorded once at most. -/
theorem exists_classified (source : Source) : ∃ uses, (ofSource source).Classified uses :=
  (exists_classified_inside source).imp fun _ hclassified => hclassified.1

/-- What is recorded for tokens of tags stands in different places. -/
theorem recordedRanges_nodup_of_tags {source : Source} {tags later : List Tag}
    (htags : Tag.ofTokens source.endPosition (tokenize source.chars) = tags ++ later)
    {uses : List (Token × Use)} (huses : (uses.map (·.1)).Sublist (tags.flatMap (·.body))) :
    (recordedRanges uses).Nodup := by
  have hall := (Tag.Partitions.ofTokens source.endPosition (tokenize source.chars)).bodies_sublist
  rw [htags, List.flatMap_append] at hall
  refine recordedRanges_nodup (tokens_between source)
    ((huses.trans (List.sublist_append_left _ _)).trans hall) fun used hused => ?_
  obtain ⟨tag, htag, hmem⟩ := List.mem_flatMap.mp (huses.subset (List.mem_map_of_mem hused))
  exact (tags_bounded source tag (htags ▸ List.mem_append_left later htag)).start_lt_stop hmem

/-- No two of the declarations, references and other mentions of a template stand in the same place. -/
theorem ranges_recorded_nodup (source : Source) :
    ((ofSource source).scopes.ranges + ↑((ofSource source).templates.map (·.range)) +
        ↑((ofSource source).links.map (·.range)) +
          ↑((ofSource source).references.map (·.range))).Nodup := by
  obtain ⟨uses, hclassified, hinside⟩ := exists_classified_inside source
  have hnodup := recordedRanges_nodup_of_tags (List.append_nil _).symm hinside
  refine Multiset.nodup_of_le ?_ (Multiset.coe_nodup.mpr hnodup)
  refine le_trans ?_ hclassified.ranges_le
  rw [add_comm]
  exact add_le_add (le_add_of_nonneg_right (Multiset.zero_le _)) (le_refl _)

/-- No name is declared where a reference stands. -/
theorem reference_apart {source : Source} {reference : Reference}
    (hreference : reference ∈ (ofSource source).references) {range : Range}
    (hrange : range ∈ (ofSource source).scopes.ranges) : reference.range.Apart range := by
  obtain ⟨uses, htokens, hrecorded, hdeclarations⟩ := exists_classified source
  have hpairwise := recordedRanges_pairwise (tokens_between source) htokens
  have hname : reference.toName ∈ (Use.reference.among uses).map Token.name :=
    hrecorded.references ▸ List.mem_map_of_mem hreference
  obtain ⟨used, hused, hsame⟩ := List.mem_map.mp hname
  obtain ⟨name, hdeclared, rfl⟩ := List.mem_map.mp
    (Multiset.mem_coe.mp (Multiset.mem_of_le hdeclarations hrange))
  have hsymm : Std.Symm fun first second : Token × Use =>
      (first.2.range first.1).Apart (second.2.range second.1) := ⟨fun _ _ => Range.Apart.symm⟩
  have happart : used.range.Apart name.range := (List.pairwise_map.mp hpairwise).forall
    (Use.mem_among.mp hused) (Use.mem_among.mp hdeclared) (by simp)
  rwa [show used.range = reference.range from congrArg Name.range hsame] at happart

end Outline

end TemplateAnalysis.Template
