import TemplateAnalysis.Proofs.Syntax.Parsing

namespace TemplateAnalysis.Syntax

open Template (Mentions Statement Token TokenKind)
open Template.Mentions
open Template.Statement

section Actions

variable {marked : List (Token × Role)}

theorem ofBody_assign {targets : List Target} {value : Expr}
    (hspells : Part.Spells marked (Action.assign targets value).parts) :
    ∃ found mentions, ofBody (marked.map (·.1)) = .assign found mentions ∧ Clause marked found mentions := by
  obtain ⟨word, later, rfl, hword, _, hlater⟩ := spells_word hspells
  obtain ⟨before, later, rfl, hbefore, hlater⟩ := spells_append hlater
  obtain ⟨sign, later, rfl, hsign, _, hlater⟩ := spells_mark hlater
  have hends : ∀ token ∈ (sign :: later.map (·.1)).head?, token.kind.isName = false ∧
      token.kind ≠ .symbol .comma ∧ token.kind ≠ .symbol .dot := by
    rintro token ⟨⟩
    rw [hsign]
    exact ⟨rfl, by rintro ⟨⟩, by rintro ⟨⟩⟩
  obtain ⟨found, mentions, htargets, hclause⟩ := setTargets_spelled targets hbefore hends
  have hvalue := clause_expression value hlater
  refine ⟨found, mentions ++ (expression [] (later.map (·.1))).1, ?_,
    (hclause.append_expression (hvalue.cons_plain sign)).cons_plain word⟩
  have hstarts : startsWith (.symbol .assign) (sign :: later.map (·.1)) = true := by
    rw [startsWith_cons, hsign]
    rfl
  rw [List.map_cons, List.map_append, List.map_cons, ofBody, hword]
  simp only [setHead, htargets, hstarts, if_true, List.tail_cons]

theorem ofBody_capture {targets : List Target} {filters : List Filter}
    (hspells : Part.Spells marked (.word .setKw :: (separated (targets.map Target.parts) ++ pipeline filters))) :
    ∃ found mentions, ofBody (marked.map (·.1)) = .beginSet found mentions ∧ Clause marked found mentions := by
  obtain ⟨word, later, rfl, hword, _, hlater⟩ := spells_word hspells
  obtain ⟨before, later, rfl, hbefore, hlater⟩ := spells_append hlater
  have hpipe : ∀ token ∈ (later.map (·.1)).head?, token.kind = .symbol .pipe := by
    intro token htoken
    have hhead := head?_of_spells hlater []
    rw [List.append_nil, htoken] at hhead
    cases filters with
    | nil => cases hhead
    | cons filter filters => exact Option.some.inj hhead
  have hends : ∀ token ∈ (later.map (·.1)).head?, token.kind.isName = false ∧
      token.kind ≠ .symbol .comma ∧ token.kind ≠ .symbol .dot := by
    intro token htoken
    rw [hpipe token htoken]
    exact ⟨rfl, by rintro ⟨⟩, by rintro ⟨⟩⟩
  obtain ⟨found, mentions, htargets, hclause⟩ := setTargets_spelled targets hbefore hends
  have hfilters := clause_filters .none filters hlater
  refine ⟨found, mentions ++ (expression [] (later.map (·.1))).1, ?_,
    (hclause.append_expression hfilters).cons_plain word⟩
  have hstarts : startsWith (.symbol .assign) (later.map (·.1)) = false :=
    startsWith_eq_false fun token htoken => by
      rw [hpipe token htoken]
      rintro ⟨⟩
  rw [List.map_cons, List.map_append, ofBody, hword]
  simp only [setHead, htargets, hstarts, Bool.false_eq_true, if_false]

theorem ofBody_filter {first : Filter} {others : List Filter}
    (hspells : Part.Spells marked (.word .filterKw :: (first.parts ++ pipeline others))) :
    ∃ mentions, ofBody (marked.map (·.1)) = .beginFilter mentions ∧ Clause marked [] mentions := by
  obtain ⟨word, later, rfl, hword, _, hlater⟩ := spells_word hspells
  obtain ⟨name, later, rfl, hname, _, hlater⟩ := spells_name hlater
  have hclause := clause_filters first.arguments others hlater
  have hfilter : Clause ((name, .filter) :: later) [] (expression [] (later.map (·.1))).1 :=
    ⟨hclause.declared, hclause.references, hclause.inside, hclause.title⟩
  have hfound : Statement.name? (name :: later.map (·.1)) = some name := by
    rw [Statement.name?, List.head?_cons, Option.filter_some, if_pos (isName_of_identifier hname)]
  have hskip : skipName (name :: later.map (·.1)) = later.map (·.1) := by
    rw [skipName, hfound]
    rfl
  refine ⟨{ filters := [name.name] } ++ (expression [] (later.map (·.1))).1, ?_,
    (hfilter.congr ?_).cons_plain word⟩
  · rw [List.map_cons, List.map_cons, ofBody, hword]
    simp only [filterHead, hfound, hskip]
    rfl
  · rw [Template.Mentions.references_append, List.nil_append]

theorem ofBody_inherit {template : Expr} (hspells : Part.Spells marked (Action.inherit template).parts) :
    ∃ mentions, ofBody (marked.map (·.1)) = .evaluate mentions ∧ Clause marked [] mentions := by
  obtain ⟨word, later, rfl, hword, _, hlater⟩ := spells_word hspells
  have hends : ∀ token ∈ ([] : List Token).head?,
      (["ignore", "with", "without"].contains token.text || closesBracket token.kind) = true ∧
        token.kind ≠ .symbol .assign := by
    rintro token ⟨⟩
  obtain ⟨mentions, hscan, hclause⟩ := clause_guarded template (by decide) hlater hends .template
  rw [List.append_nil] at hscan
  refine ⟨mentions, ?_, hclause.cons_plain word⟩
  rw [List.map_cons, ofBody, hword]
  simp only [templateNames, hscan]

/-- The words after the name of a template that is inserted. -/
theorem insert_ends {ignoresMissing : Bool} {sharing : Sharing}
    (hspells : Part.Spells marked
      ((if ignoresMissing then [.name .plain .ignore, .name .plain .missing] else []) ++ sharing.parts)) :
    Clause marked [] {} ∧ ∀ token ∈ (marked.map (·.1)).head?,
      (["ignore", "with", "without"].contains token.text || closesBracket token.kind) = true ∧
        token.kind ≠ .symbol .assign := by
  constructor
  · refine .of_plain hspells ?_
    cases ignoresMissing <;> cases sharing <;> simp [Sharing.parts, Part.name, Part.word]
  · intro token htoken
    cases ignoresMissing with
    | true =>
      obtain ⟨ignore, later, rfl, hkind, htext, _⟩ := spells_name hspells
      obtain rfl := Option.some.inj htoken
      rw [hkind, htext]
      exact ⟨by decide, by rintro ⟨⟩⟩
    | false =>
      cases sharing with
      | unspecified =>
        obtain rfl := spells_nil hspells
        cases htoken
      | shared =>
        obtain ⟨word, later, rfl, hkind, htext, _⟩ := spells_word hspells
        obtain rfl := Option.some.inj htoken
        rw [hkind, htext]
        exact ⟨by decide, by rintro ⟨⟩⟩
      | separate =>
        obtain ⟨without, later, rfl, hkind, htext, _⟩ := spells_name hspells
        obtain rfl := Option.some.inj htoken
        rw [hkind, htext]
        exact ⟨by decide, by rintro ⟨⟩⟩

theorem ofBody_insert {template : Expr} {ignoresMissing : Bool} {sharing : Sharing}
    (hspells : Part.Spells marked (Action.insert template ignoresMissing sharing).parts) :
    ∃ mentions, ofBody (marked.map (·.1)) = .evaluate mentions ∧ Clause marked [] mentions := by
  obtain ⟨word, later, rfl, hword, _, hlater⟩ := spells_word hspells
  obtain ⟨before, later, rfl, hbefore, hlater⟩ := spells_append hlater
  obtain ⟨hplain, hends⟩ := insert_ends hlater
  obtain ⟨mentions, hscan, hclause⟩ := clause_guarded template (by decide) hbefore hends .template
  have hall := hclause.append hplain
  rw [append_empty] at hall
  refine ⟨mentions, ?_, hall.cons_plain word⟩
  rw [List.map_cons, List.map_append, ofBody, hword]
  simp only [templateNames, hscan]

theorem sharing_plain {sharing : Sharing} (hspells : Part.Spells marked sharing.parts) : Clause marked [] {} := by
  refine .of_plain hspells ?_
  cases sharing <;> simp [Sharing.parts, Part.name, Part.word]

theorem ofBody_importAs {template : Expr} {name : Ident} {sharing : Sharing}
    (hspells : Part.Spells marked (Action.importAs template name sharing).parts) :
    ∃ found mentions, ofBody (marked.map (·.1)) = .importTemplate mentions (some found) ∧
      Clause marked [found] mentions := by
  obtain ⟨word, later, rfl, hword, _, hlater⟩ := spells_word hspells
  obtain ⟨before, later, rfl, hbefore, hlater⟩ := spells_append hlater
  obtain ⟨asWord, later, rfl, has, htext, hlater⟩ := spells_word hlater
  obtain ⟨found, later, rfl, hfound, _, hlater⟩ := spells_name hlater
  have hends : ∀ token ∈ (asWord :: found :: later.map (·.1)).head?,
      (["as"].contains token.text || closesBracket token.kind) = true ∧ token.kind ≠ .symbol .assign := by
    rintro token ⟨⟩
    rw [has, htext]
    exact ⟨by decide, by rintro ⟨⟩⟩
  obtain ⟨mentions, hscan, hclause⟩ := clause_guarded template (by decide) hbefore hends .template
  have hname : Clause ((asWord, .plain) :: (found, .declared) :: later) [found] {} :=
    ((sharing_plain hlater).cons_declared found).cons_plain asWord
  have hall := hclause.append hname
  rw [append_empty] at hall
  refine ⟨found, mentions, ?_, hall.cons_plain word⟩
  have hstarts : startsWith (.keyword .asKw) (asWord :: found :: later.map (·.1)) = true := by
    rw [startsWith_cons, has]
    rfl
  have hlocal : Statement.name? (found :: later.map (·.1)) = some found := by
    rw [Statement.name?, List.head?_cons, Option.filter_some, if_pos (isName_of_identifier hfound)]
  rw [List.map_cons, List.map_append, List.map_cons, List.map_cons, ofBody, hword]
  simp only [importHead, templateNames, hscan, hstarts, if_true, List.tail_cons, hlocal]

theorem ofBody_importNames {template : Expr} {names : List Import} {sharing : Sharing}
    (hspells : Part.Spells marked (Action.importNames template names sharing).parts)
    (hfree : ∀ imported ∈ names, imported.original ≠ .without) :
    ∃ found mentions, ofBody (marked.map (·.1)) = .importNames mentions found ∧
      Clause marked found mentions := by
  obtain ⟨word, later, rfl, hword, _, hlater⟩ := spells_word hspells
  obtain ⟨before, later, rfl, hbefore, hlater⟩ := spells_append hlater
  obtain ⟨importWord, later, rfl, himport, htext, hlater⟩ := spells_word hlater
  obtain ⟨imported, ending, rfl, himported, hending⟩ := spells_append hlater
  have hends : ∀ token ∈ (importWord :: (imported ++ ending).map (·.1)).head?,
      (["import"].contains token.text || closesBracket token.kind) = true ∧
        token.kind ≠ .symbol .assign := by
    rintro token ⟨⟩
    rw [himport, htext]
    exact ⟨by decide, by rintro ⟨⟩⟩
  obtain ⟨mentions, hscan, hclause⟩ := clause_guarded template (by decide) hbefore hends .template
  have hnames := importedNames_spelled names himported hending hfree
  have hlist := (hnames.append (sharing_plain hending)).cons_plain importWord
  have hall := hclause.append hlist
  rw [append_empty, append_empty, List.nil_append, List.append_nil, ← List.map_append] at hall
  refine ⟨_, mentions, ?_, hall.cons_plain word⟩
  have hstarts : startsWith (.keyword .importKw) (importWord :: (imported ++ ending).map (·.1)) = true := by
    rw [startsWith_cons, himport]
    rfl
  rw [List.map_cons, List.map_append, List.map_cons, ofBody, hword]
  simp only [fromHead, templateNames, hscan, hstarts, if_true, List.tail_cons]

end Actions

section Openings

variable {marked : List (Token × Role)}

/-- Parameters in parentheses are read up to their end. -/
theorem parameterList_bracketed (rest : List Token) (list : List Parameter)
    (hspells : Part.Spells marked (bracketed (list.map Parameter.parts))) :
    ∃ found mentions, parameterList (marked.map (·.1) ++ rest) = (found, mentions, rest) ∧
      Clause marked found mentions := by
  obtain ⟨opening, later, rfl, hopening, _, hlater⟩ := spells_mark hspells
  obtain ⟨before, later, rfl, hbefore, hlater⟩ := spells_append hlater
  obtain ⟨close, later, rfl, hclose, _, hlater⟩ := spells_mark hlater
  obtain rfl := spells_nil hlater
  obtain ⟨found, mentions, hfound, hclause⟩ := parameters_spelled hclose rest list hbefore
  have hall := (hclause.append_expression (Clause.nil.cons_plain close)).cons_plain opening
  rw [append_empty] at hall
  refine ⟨found, mentions, ?_, hall⟩
  have hstarts : startsWith (.symbol .leftParen) (opening :: (before.map (·.1) ++ close :: rest)) = true := by
    rw [startsWith_cons, hopening]
    rfl
  rw [List.map_cons, List.map_append, List.map_cons, List.map_nil, List.cons_append, List.append_assoc,
    List.singleton_append, parameterList, if_pos hstarts, List.tail_cons, hfound]

theorem ofBody_with {assignments : List Assignment}
    (hspells : Part.Spells marked (Opening.withBlock assignments).parts) :
    ∃ word found mentions, ofBody (marked.map (·.1)) = .beginWith word found mentions ∧
      Clause marked found mentions := by
  obtain ⟨word, later, rfl, hword, _, hlater⟩ := spells_word hspells
  obtain ⟨found, mentions, hfound, hclause⟩ := withVariables_spelled assignments hlater
  refine ⟨word, found, mentions, ?_, hclause.cons_plain word⟩
  rw [List.map_cons, ofBody, hword]
  simp only [withHead, hfound]

theorem ofBody_macro {name : Ident} {list : List Parameter}
    (hspells : Part.Spells marked (Opening.macroBody name list).parts) :
    ∃ word title later found mentions, marked = (word, .plain) :: (title, .title) :: later ∧
      ofBody (marked.map (·.1)) = .beginMacro word (some title) found mentions ∧
      Clause later found mentions := by
  obtain ⟨word, later, rfl, hword, _, hlater⟩ := spells_word hspells
  obtain ⟨title, later, rfl, htitle, _, hlater⟩ := spells_name hlater
  obtain ⟨found, mentions, hfound, hclause⟩ := parameterList_bracketed [] list hlater
  rw [List.append_nil] at hfound
  refine ⟨word, title, later, found, mentions, rfl, ?_, hclause⟩
  have hname : Statement.name? (title :: later.map (·.1)) = some title := by
    rw [Statement.name?, List.head?_cons, Option.filter_some, if_pos (isName_of_identifier htitle)]
  have hskip : skipName (title :: later.map (·.1)) = later.map (·.1) := by
    rw [skipName, hname]
    rfl
  rw [List.map_cons, List.map_cons, ofBody, hword]
  simp only [macroHead, hskip, hfound, hname]

theorem ofBody_call {list : List Parameter} {callee : Expr}
    (hspells : Part.Spells marked (Opening.call list callee).parts) :
    ∃ word found mentions, ofBody (marked.map (·.1)) = .beginCall word found mentions ∧
      Clause marked found mentions := by
  obtain ⟨word, later, rfl, hword, _, hlater⟩ := spells_word hspells
  obtain ⟨before, later, rfl, hbefore, hcalleeSpells⟩ := spells_append hlater
  have hcallee := clause_expression callee hcalleeSpells
  obtain ⟨found, mentions, hfound, hclause⟩ : ∃ found mentions,
      parameterList (before.map (·.1) ++ later.map (·.1)) = (found, mentions, later.map (·.1)) ∧
        Clause before found mentions := by
    unfold Opening.signature at hbefore
    split at hbefore
    next hplain =>
      obtain rfl := spells_nil hbefore
      rw [Bool.and_eq_true] at hplain
      have hhead := head?_of_spells hcalleeSpells []
      rw [List.append_nil] at hhead
      have hstarts : startsWith (.symbol .leftParen) (later.map (·.1)) = false := by
        refine startsWith_eq_false fun token htoken hkind => ?_
        have hcalleeHead := hplain.2
        rw [htoken, Option.map_some, hkind] at hhead
        cases hparts : callee.parts.head? with
        | none => rw [hparts] at hhead; cases hhead
        | some part =>
          rw [hparts] at hhead hcalleeHead
          have hpart : part.kind = .symbol .leftParen := (Option.some.inj hhead).symm
          rw [Option.all_some, hpart] at hcalleeHead
          cases hcalleeHead
      exact ⟨[], {}, by rw [List.map_nil, List.nil_append, parameterList, hstarts, if_neg Bool.false_ne_true],
        .nil⟩
    next => exact parameterList_bracketed _ list hbefore
  refine ⟨word, found, mentions ++ (expression [] (later.map (·.1))).1, ?_,
    (hclause.append_expression hcallee).cons_plain word⟩
  rw [List.map_cons, List.map_append, ofBody, hword]
  simp only [callHead, hfound]

theorem ofBody_block {name : Ident} {modifiers : List Ident}
    (hspells : Part.Spells marked (Opening.block name modifiers).parts) :
    ∃ word title later, marked = (word, .plain) :: (title, .title) :: later ∧
      ofBody (marked.map (·.1)) = .beginBlock word (some title) ∧ Clause later [] {} := by
  obtain ⟨word, later, rfl, hword, _, hlater⟩ := spells_word hspells
  obtain ⟨title, later, rfl, htitle, _, hlater⟩ := spells_name hlater
  refine ⟨word, title, later, rfl, ?_, .of_plain hlater fun part hpart => ?_⟩
  · rw [List.map_cons, List.map_cons, ofBody, hword]
    simp only [Statement.name?, List.head?_cons, Option.filter_some, if_pos (isName_of_identifier htitle)]
  · obtain ⟨ident, _, rfl⟩ := List.mem_map.mp hpart
    rfl

theorem ofBody_if {condition : Expr} (hspells : Part.Spells marked (.word .ifKw :: condition.parts)) :
    ∃ mentions, ofBody (marked.map (·.1)) = .beginIf mentions ∧ Clause marked [] mentions := by
  obtain ⟨word, later, rfl, hword, _, hlater⟩ := spells_word hspells
  refine ⟨_, ?_, (clause_expression condition hlater).cons_plain word⟩
  rw [List.map_cons, ofBody, hword]

theorem ofBody_elif {condition : Expr} (hspells : Part.Spells marked (.word .elifKw :: condition.parts)) :
    ∃ mentions, ofBody (marked.map (·.1)) = .evaluate mentions ∧ Clause marked [] mentions := by
  obtain ⟨word, later, rfl, hword, _, hlater⟩ := spells_word hspells
  refine ⟨_, ?_, (clause_expression condition hlater).cons_plain word⟩
  rw [List.map_cons, ofBody, hword]

end Openings

/-- An expression that is evaluated inside a statement declares and reads nothing around it. -/
structure Inner (marked : List (Token × Role)) (mentions : Mentions) : Prop where
  declared : select .declared marked = []
  references : mentions.references = (select .readInside marked).map Token.name
  read : select .read marked = []
  title : select .title marked = []

section Loops

variable {marked : List (Token × Role)} {words : List String} {rest : List Token}

/-- The role that a lexeme of an expression has where the expression is not evaluated inside a statement. -/
def Role.outer : Role → Role
  | .readInside => .read
  | role => role

theorem Role.outer_inner {role : Role} (hcode : role.isCode = true) : role.inner.outer = role := by
  cases role <;> first | rfl | cases hcode

theorem Role.inner_ne {role : Role} (hcode : role.isCode = true) :
    role.inner ≠ .declared ∧ role.inner ≠ .read ∧ role.inner ≠ .title := by
  cases role <;> first | decide | cases hcode

theorem Role.isRead_outer {role : Role} (hread : role ≠ .read) : role.outer.isRead = (role == .readInside) := by
  cases role <;> first | rfl | exact absurd rfl hread

theorem inner_guarded (expr : Expr) (hparen : words.contains "(" = false)
    (hspells : Part.Spells marked (inside (expr.guarded words)))
    (hends : ∀ token ∈ rest.head?,
      (words.contains token.text || closesBracket token.kind) = true ∧ token.kind ≠ .symbol .assign) :
    ∃ mentions, expression words (marked.map (·.1) ++ rest) = (mentions, rest) ∧ Inner marked mentions := by
  have hcode := expr.builds_guarded builds_isCode words
  -- The expression is scanned as one outside of the block. Only the roles of its names differ.
  let outer := marked.map fun pair => (pair.1, pair.2.outer)
  have hsame : outer.map (·.1) = marked.map (·.1) := by simp [outer, Function.comp_def]
  have houter : Part.Spells outer (expr.guarded words) := by
    have hview : marked.map (fun pair => (pair.1.kind, pair.1.text, pair.2.outer)) =
        (inside (expr.guarded words)).map fun part => (part.kind, part.text, part.role.outer) := by
      simpa [Function.comp_def] using
        congrArg (List.map fun (view : TokenKind × String × Role) => (view.1, view.2.1, view.2.2.outer)) hspells
    rw [Part.Spells, List.map_map]
    refine hview.trans ?_
    rw [inside, List.map_map]
    refine List.map_congr_left fun part hpart => ?_
    rw [Function.comp_apply, Role.outer_inner (hcode part hpart)]
    rfl
  obtain ⟨mentions, hscan, hreferences⟩ := scan_guarded expr hparen houter hends .value
  rw [hsame] at hscan
  have hroles : ∀ pair ∈ marked, pair.2 ≠ .declared ∧ pair.2 ≠ .read ∧ pair.2 ≠ .title := by
    intro pair hpair
    obtain ⟨part, hpart, hrole⟩ := exists_part hspells hpair
    obtain ⟨original, horiginal, rfl⟩ := List.mem_map.mp hpart
    rw [← hrole]
    exact Role.inner_ne (hcode original horiginal)
  refine ⟨mentions, hscan, select_eq_nil fun pair hpair => (hroles pair hpair).1, ?_,
    select_eq_nil fun pair hpair => (hroles pair hpair).2.1,
    select_eq_nil fun pair hpair => (hroles pair hpair).2.2⟩
  rw [hreferences, readNames, select, List.map_map, List.filter_map, List.map_map]
  refine congrArg _ (List.filter_congr fun pair hpair => ?_)
  exact Role.isRead_outer (hroles pair hpair).2.1

namespace Inner

variable {mentions : Mentions}

theorem of_clause (hclause : Clause marked [] mentions) (hread : select .read marked = []) :
    Inner marked mentions := by
  refine ⟨hclause.declared, ?_, hread, hclause.title⟩
  rw [hclause.references, hread, hclause.inside]

theorem cons_plain (hinner : Inner marked mentions) (token : Token) :
    Inner ((token, .plain) :: marked) mentions :=
  ⟨hinner.declared, hinner.references, hinner.read, hinner.title⟩

theorem append_plain (hinner : Inner marked mentions) {ending : List (Token × Role)}
    (hending : Inner ending {}) : Inner (marked ++ ending) mentions where
  declared := by rw [select_append, hinner.declared, hending.declared, List.append_nil]
  references := by
    have hnone : (select .readInside ending).map Token.name = [] := hending.references.symm
    rw [select_append, List.map_append, hnone, List.append_nil, hinner.references]
  read := by rw [select_append, hinner.read, hending.read, List.append_nil]
  title := by rw [select_append, hinner.title, hending.title, List.append_nil]

end Inner

/-- The targets of a loop are read up to the word before its sequence. -/
theorem loopNames_spelled (loop : Loop) (hspells : Part.Spells marked loop.names)
    (hends : ∀ token ∈ rest.head?, token.kind = .keyword .inKw) :
    ∃ found middle, Statement.names (skip (.symbol .leftParen) (marked.map (·.1) ++ rest)) = (found, middle) ∧
      (if startsWith (.symbol .leftParen) (marked.map (·.1) ++ rest) then skip (.symbol .rightParen) middle
        else middle) = rest ∧ Clause marked found {} := by
  rw [Loop.names] at hspells
  split at hspells
  next =>
    obtain ⟨opening, later, rfl, hopening, _, hlater⟩ := spells_mark hspells
    obtain ⟨before, later, rfl, hbefore, hlater⟩ := spells_append hlater
    obtain ⟨close, later, rfl, hclose, _, hlater⟩ := spells_mark hlater
    obtain rfl := spells_nil hlater
    have hcloseEnds : ∀ token ∈ (close :: rest).head?, token.kind.isName = false ∧
        token.kind ≠ .symbol .comma := by
      rintro token ⟨⟩
      rw [hclose]
      exact ⟨rfl, by rintro ⟨⟩⟩
    obtain ⟨found, hfound, hclause⟩ := names_spelled loop.targets hbefore hcloseEnds
    have hall := (hclause.append_expression (Clause.nil.cons_plain close)).cons_plain opening
    refine ⟨found, close :: rest, ?_, ?_, hall⟩
    · rw [List.map_cons, List.map_append, List.map_cons, List.map_nil, List.cons_append, List.append_assoc,
        List.singleton_append, skip, startsWith_cons, hopening, if_pos (beq_self_eq_true _), List.tail_cons,
        hfound]
    · rw [List.map_cons, List.cons_append, startsWith_cons, hopening, if_pos (beq_self_eq_true _), skip,
        startsWith_cons, hclose, if_pos (beq_self_eq_true _), List.tail_cons]
  next =>
    have hnameEnds : ∀ token ∈ rest.head?, token.kind.isName = false ∧ token.kind ≠ .symbol .comma := by
      intro token htoken
      rw [hends token htoken]
      exact ⟨rfl, by rintro ⟨⟩⟩
    obtain ⟨found, hfound, hclause⟩ := names_spelled loop.targets hspells hnameEnds
    -- Without parentheses the first token is a name or the word before the sequence.
    have hhead := head?_of_spells hspells rest
    have hstarts : startsWith (.symbol .leftParen) (marked.map (·.1) ++ rest) = false := by
      refine startsWith_eq_false fun token htoken hkind => ?_
      rw [htoken, Option.map_some, hkind] at hhead
      have hin : ∀ kind ∈ rest.head?.map Token.kind, kind = .keyword .inKw := by
        intro kind hmem
        obtain ⟨token, htoken, rfl⟩ := Option.map_eq_some_iff.mp hmem
        exact hends token htoken
      match htargets : loop.targets with
      | [] =>
        rw [htargets] at hhead
        cases hin _ hhead.symm
      | [target] =>
        rw [htargets] at hhead
        cases hhead
      | target :: second :: targets =>
        rw [htargets] at hhead
        cases hhead
    refine ⟨found, rest, ?_, ?_, hclause⟩
    · rw [skip, hstarts, if_neg Bool.false_ne_true, hfound]
    · rw [hstarts, if_neg Bool.false_ne_true]

/-- The condition of a loop and the word for recursion are read up to the end of the statement. -/
theorem loopEnding_spelled (loop : Loop) (hspells : Part.Spells marked loop.ending) :
    ∃ mentions, (if startsWith (.keyword .ifKw) (marked.map (·.1)) then
        (expression ["recursive"] (marked.map (·.1)).tail).1 else {}) = mentions ∧ Inner marked mentions ∧
      ∀ token ∈ (marked.map (·.1)).head?,
        (["if", "recursive"].contains token.text || closesBracket token.kind) = true ∧
          token.kind ≠ .symbol .assign := by
  obtain ⟨before, ending, rfl, hbefore, hending⟩ := spells_append hspells
  -- The word for recursion ends the condition, and where there is none it ends the sequence.
  have hrecursive : Inner ending {} ∧ ∀ token ∈ (ending.map (·.1)).head?,
      token.text = "recursive" ∧ token.kind = .keyword .recursiveKw := by
    split at hending
    next =>
      obtain ⟨token, later, rfl, hkind, htext, hlater⟩ := spells_word hending
      obtain rfl := spells_nil hlater
      refine ⟨.of_clause (Clause.nil.cons_plain token) rfl, ?_⟩
      rintro token ⟨⟩
      exact ⟨htext, hkind⟩
    next =>
      obtain rfl := spells_nil hending
      exact ⟨.of_clause .nil rfl, by rintro token ⟨⟩⟩
  obtain ⟨hinner, hlast⟩ := hrecursive
  have hends : ∀ words : List String, words.contains "recursive" = true →
      ∀ token ∈ (ending.map (·.1)).head?, (words.contains token.text || closesBracket token.kind) = true ∧
        token.kind ≠ .symbol .assign := by
    intro words hwords token htoken
    obtain ⟨htext, hkind⟩ := hlast token htoken
    rw [htext, hkind, hwords]
    exact ⟨rfl, by rintro ⟨⟩⟩
  cases hcondition : loop.condition with
  | none =>
    rw [hcondition] at hbefore
    obtain rfl := spells_nil hbefore
    refine ⟨{}, ?_, hinner, hends _ (by decide)⟩
    rw [List.nil_append, startsWith_eq_false, if_neg Bool.false_ne_true]
    intro token htoken
    rw [(hlast token htoken).2]
    rintro ⟨⟩
  | some condition =>
    rw [hcondition] at hbefore
    obtain ⟨word, later, rfl, hword, htext, hlater⟩ := spells_word hbefore
    obtain ⟨mentions, hscan, hcode⟩ :=
      inner_guarded condition (by decide) hlater (hends ["recursive"] (by decide))
    refine ⟨mentions, ?_, (hcode.append_plain hinner).cons_plain word, ?_⟩
    · rw [List.cons_append, List.map_cons, List.map_append, startsWith_cons, hword, if_pos (beq_self_eq_true _),
        List.tail_cons, hscan]
    · rintro token ⟨⟩
      rw [hword, htext]
      exact ⟨by decide, by rintro ⟨⟩⟩

theorem ofBody_loop {loop : Loop} (hspells : Part.Spells marked (Opening.loop loop).parts) :
    ∃ word header ending found sequence filter, marked = (word, .title) :: (header ++ ending) ∧
      ofBody (marked.map (·.1)) = .beginFor word found sequence filter ∧ Clause header found sequence ∧
      Inner ending filter := by
  obtain ⟨word, later, rfl, hword, _, hlater⟩ := spells_cons hspells
  obtain ⟨names, later, rfl, hnames, hlater⟩ := spells_append hlater
  obtain ⟨inWord, later, rfl, hin, _, hlater⟩ := spells_word hlater
  obtain ⟨before, ending, rfl, hbefore, hending⟩ := spells_append hlater
  have hinEnds : ∀ token ∈ (inWord :: (before ++ ending).map (·.1)).head?, token.kind = .keyword .inKw := by
    rintro token ⟨⟩
    exact hin
  obtain ⟨found, middle, hfound, hmiddle, hclause⟩ := loopNames_spelled loop hnames hinEnds
  obtain ⟨filter, hfilter, hinner, hends⟩ := loopEnding_spelled loop hending
  obtain ⟨sequence, hscan, hsequence⟩ := clause_guarded loop.sequence (by decide) hbefore hends .value
  have hheader := hclause.append (hsequence.cons_plain inWord)
  rw [List.append_nil] at hheader
  refine ⟨word, names ++ (inWord, .plain) :: before, ending, found, sequence, filter, ?_, ?_, hheader, hinner⟩
  · rw [List.append_assoc, List.cons_append]
  · have hstarts : startsWith (.keyword .inKw) (inWord :: (before ++ ending).map (·.1)) = true := by
      rw [startsWith_cons, hin]
      rfl
    have hkind : word.kind = .keyword .forKw := hword
    have hexpression : expression ["if", "recursive"] ((before ++ ending).map (·.1)) =
        (sequence, ending.map (·.1)) := by
      rw [List.map_append]
      exact hscan
    rw [List.map_cons, List.map_append, List.map_cons, ofBody, hkind]
    simp only [forHead, hfound, hmiddle, hstarts, if_true, List.tail_cons, hexpression]
    rw [← hfilter]

end Loops

end TemplateAnalysis.Syntax
