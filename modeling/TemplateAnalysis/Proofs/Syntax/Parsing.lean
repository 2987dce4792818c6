import TemplateAnalysis.Proofs.Syntax.Clause

namespace TemplateAnalysis.Syntax

open Template (Mentions Statement Token TokenKind)
open Template.Mentions
open Template.Statement

section Lists

variable {marked : List (Token × Role)} {after rest : List Token}

theorem startsWith_cons (kind : TokenKind) (token : Token) (rest : List Token) :
    startsWith kind (token :: rest) = (token.kind == kind) := rfl

theorem startsWith_eq_false {kind : TokenKind} (hne : ∀ token ∈ rest.head?, token.kind ≠ kind) :
    startsWith kind rest = false := by
  cases rest with
  | nil => rfl
  | cons token rest => exact beq_eq_false_iff_ne.mpr (hne token rfl)

theorem isName_of_identifier {token : Token} (hkind : token.kind = .identifier) : token.kind.isName = true := by
  rw [hkind]
  rfl

/-- The targets of a loop are read up to a token that is neither a name nor a comma. -/
theorem names_spelled (targets : List Ident)
    (hspells : Part.Spells marked (separated (targets.map fun target => [.name .declared target])))
    (hends : ∀ token ∈ rest.head?, token.kind.isName = false ∧ token.kind ≠ .symbol .comma) :
    ∃ found, Statement.names (marked.map (·.1) ++ rest) = (found, rest) ∧ Clause marked found {} := by
  induction targets generalizing marked with
  | nil =>
    obtain rfl := spells_nil hspells
    refine ⟨[], ?_, .nil⟩
    match rest with
    | [] => rfl
    | [token] => rw [List.map_nil, List.nil_append, Statement.names, (hends token rfl).1, if_neg Bool.false_ne_true]
    | token :: next :: rest =>
      rw [List.map_nil, List.nil_append, Statement.names, (hends token rfl).1, if_neg Bool.false_ne_true]
  | cons target targets ih =>
    cases targets with
    | nil =>
      obtain ⟨token, later, rfl, hkind, _, hlater⟩ := spells_name hspells
      obtain rfl := spells_nil hlater
      refine ⟨[token], ?_, Clause.nil.cons_declared token⟩
      have hname := isName_of_identifier hkind
      cases rest with
      | nil => rw [List.map_cons, List.map_nil, List.append_nil, Statement.names, if_pos hname]
      | cons next rest =>
        rw [List.map_cons, List.map_nil, List.singleton_append, Statement.names, if_pos hname,
          if_neg (hends next rfl).2]
    | cons second targets =>
      obtain ⟨token, later, rfl, hkind, _, hlater⟩ := spells_name hspells
      obtain ⟨comma, later, rfl, hcomma, _, hlater⟩ := spells_mark hlater
      obtain ⟨found, hfound, hclause⟩ := ih hlater
      refine ⟨token :: found, ?_, (hclause.cons_plain comma).cons_declared token⟩
      rw [List.map_cons, List.map_cons, List.cons_append, List.cons_append, Statement.names,
        if_pos (isName_of_identifier hkind), if_pos hcomma, hfound]

/-- One target of an assignment is read, and then what follows it. -/
theorem setTargets_target (target : Target) (hspells : Part.Spells marked target.parts)
    (hdot : startsWith (.symbol .dot) after = false) :
    ∃ found mentions, Clause marked found mentions ∧ ∀ later,
      (if startsWith (.symbol .comma) after then setTargets after.tail else ([], {}, after)) = later →
        setTargets (marked.map (·.1) ++ after) = (found ++ later.1, mentions ++ later.2.1, later.2.2) := by
  cases target with
  | name ident =>
    obtain ⟨token, later, rfl, hkind, _, hlater⟩ := spells_name hspells
    obtain rfl := spells_nil hlater
    refine ⟨[token], {}, Clause.nil.cons_declared token, fun later hlater => ?_⟩
    rw [List.map_cons, List.map_nil, List.singleton_append, setTargets, if_pos (isName_of_identifier hkind)]
    simp only [hdot, Bool.false_eq_true, if_false]
    rw [← hlater]
    rfl
  | member object field =>
    obtain ⟨token, later, rfl, hkind, _, hlater⟩ := spells_name hspells
    obtain ⟨dot, later, rfl, hdotKind, _, hlater⟩ := spells_mark hlater
    obtain ⟨attribute', later, rfl, hfield, _, hlater⟩ := spells_name hlater
    obtain rfl := spells_nil hlater
    refine ⟨[], { references := [token.name] }, ?_, fun later hlater => ?_⟩
    · exact ((Clause.nil.cons_plain attribute').cons_plain dot).cons_read token
    · have hskip : skipName (attribute' :: after) = after := by
        have hname : Statement.name? (attribute' :: after) = some attribute' := by
          rw [Statement.name?, List.head?_cons, Option.filter_some, if_pos (isName_of_identifier hfield)]
        rw [skipName, hname]
        rfl
      have hstarts : startsWith (.symbol .dot) (dot :: attribute' :: after) = true := by
        rw [startsWith_cons, hdotKind]
        rfl
      simp only [List.map_cons, List.map_nil, List.cons_append, List.nil_append]
      rw [setTargets, if_pos (isName_of_identifier hkind)]
      simp only [hstarts, if_true, List.tail_cons, hskip]
      rw [← hlater]

/-- The targets of an assignment are read up to a token that continues none of them. -/
theorem setTargets_spelled (targets : List Target)
    (hspells : Part.Spells marked (separated (targets.map Target.parts)))
    (hends : ∀ token ∈ rest.head?, token.kind.isName = false ∧ token.kind ≠ .symbol .comma ∧
      token.kind ≠ .symbol .dot) :
    ∃ found mentions, setTargets (marked.map (·.1) ++ rest) = (found, mentions, rest) ∧
      Clause marked found mentions := by
  have hcommaFree : startsWith (.symbol .comma) rest = false :=
    startsWith_eq_false fun token htoken => (hends token htoken).2.1
  have hdotFree : startsWith (.symbol .dot) rest = false :=
    startsWith_eq_false fun token htoken => (hends token htoken).2.2
  induction targets generalizing marked with
  | nil =>
    obtain rfl := spells_nil hspells
    refine ⟨[], {}, ?_, .nil⟩
    cases rest with
    | nil => rw [List.map_nil, List.nil_append, setTargets]
    | cons token rest =>
      rw [List.map_nil, List.nil_append, setTargets, (hends token rfl).1, if_neg Bool.false_ne_true]
  | cons target targets ih =>
    cases targets with
    | nil =>
      obtain ⟨found, mentions, hclause, hfound⟩ := setTargets_target target hspells hdotFree
      refine ⟨found, mentions, ?_, hclause⟩
      rw [hfound ([], {}, rest) (by rw [hcommaFree]; rfl), List.append_nil, append_empty]
    | cons second targets =>
      obtain ⟨before, later, rfl, hbefore, hlater⟩ := spells_append hspells
      obtain ⟨comma, later, rfl, hcomma, _, hlater⟩ := spells_mark hlater
      obtain ⟨found', mentions', hrest, hclause'⟩ := ih hlater
      have hstarts : startsWith (.symbol .comma) (comma :: (later.map (·.1) ++ rest)) = true := by
        rw [startsWith_cons, hcomma]
        rfl
      have hdot : startsWith (.symbol .dot) (comma :: (later.map (·.1) ++ rest)) = false := by
        rw [startsWith_cons, hcomma]
        rfl
      obtain ⟨found, mentions, hclause, hfound⟩ := setTargets_target target hbefore hdot
      refine ⟨found ++ found', mentions ++ mentions', ?_, hclause.append (hclause'.cons_plain comma)⟩
      rw [List.map_append, List.map_cons, List.append_assoc, List.cons_append,
        hfound (found', mentions', rest) (by rw [hstarts, if_pos rfl, List.tail_cons, hrest])]

/-- A value with the comma or the bracket after it is read up to there. -/
theorem clause_value (value : Expr) (hspells : Part.Spells marked (value.guarded [","]))
    (hends : ∀ token ∈ after.head?, (token.text == "," || closesBracket token.kind) = true ∧
      token.kind ≠ .symbol .assign) :
    ∃ mentions, expression [","] (marked.map (·.1) ++ after) = (mentions, after) ∧
      Clause marked [] mentions := by
  refine clause_guarded value (by decide) hspells (fun token htoken => ?_) .value
  rw [List.contains_cons, List.contains_nil, Bool.or_false]
  exact hends token htoken

/-- One variable of a block is read with its value, and then what follows it. -/
theorem withVariables_assignment (assignment : Assignment) (hspells : Part.Spells marked assignment.parts)
    (hends : ∀ token ∈ after.head?, token.kind = .symbol .comma ∧ token.text = ",") :
    ∃ token mentions, Clause marked [token] mentions ∧ ∀ later,
      (if startsWith (.symbol .comma) after then withVariables after.tail else ([], {})) = later →
        withVariables (marked.map (·.1) ++ after) = (token :: later.1, mentions ++ later.2) := by
  obtain ⟨token, marked', rfl, hkind, _, hspells⟩ := spells_name hspells
  obtain ⟨sign, marked', rfl, hsign, _, hspells⟩ := spells_mark hspells
  obtain ⟨mentions, hvalue, hclause⟩ := clause_value assignment.value hspells fun token htoken =>
    ⟨by rw [(hends token htoken).2]; rfl, by rw [(hends token htoken).1]; rintro ⟨⟩⟩
  refine ⟨token, mentions, (hclause.cons_plain sign).cons_declared token, fun later hlater => ?_⟩
  have hword : token.kind.isWord = true := by rw [hkind]; rfl
  rw [List.map_cons, List.map_cons, List.cons_append, List.cons_append, withVariables,
    if_pos ⟨hword, hsign⟩]
  simp only [hvalue]
  rw [← hlater]
  split
  · rfl
  · rw [append_empty]

theorem withVariables_spelled (assignments : List Assignment)
    (hspells : Part.Spells marked (separated (assignments.map Assignment.parts))) :
    ∃ found mentions, withVariables (marked.map (·.1)) = (found, mentions) ∧ Clause marked found mentions := by
  induction assignments generalizing marked with
  | nil =>
    obtain rfl := spells_nil hspells
    refine ⟨[], {}, ?_, .nil⟩
    rw [List.map_nil, withVariables]
    rintro token sign rest ⟨⟩
  | cons assignment assignments ih =>
    cases assignments with
    | nil =>
      have hends : ∀ token ∈ ([] : List Token).head?, token.kind = .symbol .comma ∧ token.text = "," := by
        rintro token ⟨⟩
      obtain ⟨token, mentions, hclause, hfound⟩ := withVariables_assignment assignment hspells hends
      refine ⟨[token], mentions, ?_, hclause⟩
      have hlast := hfound ([], {}) rfl
      rwa [List.append_nil, append_empty] at hlast
    | cons second assignments =>
      obtain ⟨before, later, rfl, hbefore, hlater⟩ := spells_append hspells
      obtain ⟨comma, later, rfl, hcomma, htext, hlater⟩ := spells_mark hlater
      obtain ⟨found, mentions, hrest, hclause⟩ := ih hlater
      have hends : ∀ token ∈ (comma :: later.map (·.1)).head?, token.kind = .symbol .comma ∧ token.text = "," := by
        rintro token ⟨⟩
        exact ⟨hcomma, htext⟩
      obtain ⟨token, mentions', hfirst, hfound⟩ := withVariables_assignment assignment hbefore hends
      refine ⟨token :: found, mentions' ++ mentions, ?_, hfirst.append (hclause.cons_plain comma)⟩
      have hstarts : startsWith (.symbol .comma) (comma :: later.map (·.1)) = true := by
        rw [startsWith_cons, hcomma]
        rfl
      rw [List.map_append, List.map_cons,
        hfound (found, mentions) (by rw [hstarts, if_pos rfl, List.tail_cons, hrest])]

/-- One parameter is read with its value by default, and then what follows it. -/
theorem parameters_parameter (parameter : Parameter) (hspells : Part.Spells marked parameter.parts)
    (hends : ∀ token ∈ after.head?, (token.text == "," || closesBracket token.kind) = true ∧
      token.kind ≠ .symbol .assign) :
    ∃ token mentions, Clause marked [token] mentions ∧ parameters (marked.map (·.1) ++ after) =
      (token :: (parameters after).1, mentions ++ (parameters after).2.1, (parameters after).2.2) := by
  obtain ⟨name, default⟩ := parameter
  obtain ⟨token, marked', rfl, hkind, _, hspells⟩ := spells_name hspells
  cases default with
  | none =>
    obtain rfl := spells_nil hspells
    refine ⟨token, {}, Clause.nil.cons_declared token, ?_⟩
    have hplain : startsWith (.symbol .assign) after = false :=
      startsWith_eq_false fun token htoken => (hends token htoken).2
    rw [List.map_cons, List.map_nil, List.singleton_append, parameters, if_pos (isName_of_identifier hkind)]
    simp only [hplain, Bool.false_eq_true, if_false]
  | some value =>
    obtain ⟨sign, marked', rfl, hsign, _, hspells⟩ := spells_mark hspells
    obtain ⟨mentions, hvalue, hclause⟩ := clause_value value hspells hends
    refine ⟨token, mentions, (hclause.cons_plain sign).cons_declared token, ?_⟩
    have hstarts : startsWith (.symbol .assign) (sign :: (marked'.map (·.1) ++ after)) = true := by
      rw [startsWith_cons, hsign]
      rfl
    rw [List.map_cons, List.map_cons, List.cons_append, List.cons_append, parameters,
      if_pos (isName_of_identifier hkind)]
    simp only [hstarts, if_true, List.tail_cons, hvalue]

/-- Parameters are read up to the bracket that closes them. -/
theorem parameters_spelled {close : Token} (hclose : close.kind = .symbol .rightParen) (rest : List Token)
    (list : List Parameter)
    (hspells : Part.Spells marked (separated (list.map Parameter.parts))) :
    ∃ found mentions, parameters (marked.map (·.1) ++ close :: rest) = (found, mentions, rest) ∧
      Clause marked found mentions := by
  have hlast : parameters (close :: rest) = ([], {}, rest) := by
    rw [parameters, if_neg (by rw [hclose]; exact Bool.false_ne_true), if_pos hclose]
  have hcloseEnds : ∀ token ∈ (close :: rest).head?,
      (token.text == "," || closesBracket token.kind) = true ∧ token.kind ≠ .symbol .assign := by
    rintro token ⟨⟩
    rw [hclose]
    exact ⟨Bool.or_true _, by rintro ⟨⟩⟩
  induction list generalizing marked with
  | nil =>
    obtain rfl := spells_nil hspells
    exact ⟨[], {}, hlast, .nil⟩
  | cons parameter list ih =>
    cases list with
    | nil =>
      obtain ⟨token, mentions, hclause, hfound⟩ := parameters_parameter parameter hspells hcloseEnds
      refine ⟨[token], mentions, ?_, hclause⟩
      rw [hfound, hlast, append_empty]
    | cons second list =>
      obtain ⟨before, later, rfl, hbefore, hlater⟩ := spells_append hspells
      obtain ⟨comma, later, rfl, hcomma, htext, hlater⟩ := spells_mark hlater
      obtain ⟨found, mentions, hrest, hclause⟩ := ih hlater
      have hends : ∀ token ∈ (comma :: (later.map (·.1) ++ close :: rest)).head?,
          (token.text == "," || closesBracket token.kind) = true ∧ token.kind ≠ .symbol .assign := by
        rintro token ⟨⟩
        rw [hcomma, htext]
        exact ⟨rfl, by rintro ⟨⟩⟩
      have hskip : parameters (comma :: (later.map (·.1) ++ close :: rest)) = (found, mentions, rest) := by
        rw [parameters, if_neg (by rw [hcomma]; exact Bool.false_ne_true),
          if_neg (by rw [hcomma]; rintro ⟨⟩), hrest]
      obtain ⟨token, mentions', hfirst, hfound⟩ := parameters_parameter parameter hbefore hends
      refine ⟨token :: found, mentions' ++ mentions, ?_, hfirst.append (hclause.cons_plain comma)⟩
      rw [List.map_append, List.map_cons, List.append_assoc, List.cons_append, hfound, hskip]

/-- No name is spelled like a keyword. -/
theorem Ident.chars_ne (ident : Ident) (word : Template.Keyword) : String.ofList ident.chars ≠ word.text := by
  intro hsame
  have hkeyword : Template.Lexer.wordKind word.text.toList = .keyword word := by cases word <;> decide
  have hfree : Template.Lexer.wordKind ident.chars = .identifier := ident.free
  rw [← hsame, String.toList_ofList, hfree] at hkeyword
  cases hkeyword

theorem Ident.chars_ne_without {ident : Ident} (hne : ident ≠ .without) :
    String.ofList ident.chars ≠ "without" := by
  intro hsame
  have hchars : ident.chars = Ident.without.chars := by
    rw [← String.toList_ofList (l := ident.chars), hsame]
    rfl
  obtain ⟨first, rest, _, _, _⟩ := ident
  obtain ⟨rfl, rfl⟩ := List.cons.inj hchars
  exact hne rfl

/-- One name is imported, and then what follows it. -/
theorem importedNames_import (imported : Import) (hspells : Part.Spells marked imported.parts)
    (hfree : imported.original ≠ .without) (has : startsWith (.keyword .asKw) after = false) :
    ∃ token, Clause marked [token] {} ∧ importedNames (marked.map (·.1) ++ after) =
      token :: if startsWith (.symbol .comma) after then importedNames after.tail else [] := by
  obtain ⟨original, localName⟩ := imported
  cases localName with
  | none =>
    obtain ⟨token, later, rfl, hkind, htext, hlater⟩ := spells_name hspells
    obtain rfl := spells_nil hlater
    have hwith : token.text ≠ "with" := htext ▸ original.chars_ne .withKw
    have hwithout : token.text ≠ "without" := htext ▸ Ident.chars_ne_without hfree
    refine ⟨token, Clause.nil.cons_declared token, ?_⟩
    rw [List.map_cons, List.map_nil, List.singleton_append, importedNames,
      if_pos ⟨isName_of_identifier hkind, hwith, hwithout⟩]
    simp only [has, Bool.false_eq_true, if_false]
  | some name =>
    obtain ⟨token, later, rfl, hkind, htext, hlater⟩ := spells_name hspells
    obtain ⟨word, later, rfl, hword, _, hlater⟩ := spells_word hlater
    obtain ⟨localToken, later, rfl, hlocal, _, hlater⟩ := spells_name hlater
    obtain rfl := spells_nil hlater
    have hwith : token.text ≠ "with" := htext ▸ original.chars_ne .withKw
    have hwithout : token.text ≠ "without" := htext ▸ Ident.chars_ne_without hfree
    refine ⟨localToken, ((Clause.nil.cons_declared localToken).cons_plain word).cons_plain token, ?_⟩
    have hname : Statement.name? (localToken :: after) = some localToken := by
      rw [Statement.name?, List.head?_cons, Option.filter_some, if_pos (isName_of_identifier hlocal)]
    have hskip : skipName (localToken :: after) = after := by
      rw [skipName, hname]
      rfl
    have hstarts : startsWith (.keyword .asKw) (word :: localToken :: after) = true := by
      rw [startsWith_cons, hword]
      rfl
    simp only [List.map_cons, List.map_nil, List.cons_append, List.nil_append]
    rw [importedNames, if_pos ⟨isName_of_identifier hkind, hwith, hwithout⟩]
    simp only [hstarts, if_true, List.tail_cons, hname, hskip, Option.getD_some]

/-- The words about sharing end the list of imported names. -/
theorem sharing_ends {sharing : Sharing} (hspells : Part.Spells marked sharing.parts) :
    importedNames (marked.map (·.1)) = [] ∧ startsWith (.keyword .asKw) (marked.map (·.1)) = false ∧
      startsWith (.symbol .comma) (marked.map (·.1)) = false := by
  cases sharing with
  | unspecified =>
    obtain rfl := spells_nil hspells
    exact ⟨by rw [List.map_nil, importedNames], rfl, rfl⟩
  | shared =>
    obtain ⟨token, later, rfl, hkind, htext, _⟩ := spells_word hspells
    rw [List.map_cons, startsWith_cons, startsWith_cons, hkind, importedNames, htext,
      if_neg fun hcontinues => hcontinues.2.1 rfl]
    exact ⟨rfl, rfl, rfl⟩
  | separate =>
    obtain ⟨token, later, rfl, hkind, htext, _⟩ := spells_name hspells
    rw [List.map_cons, startsWith_cons, startsWith_cons, hkind, importedNames, htext,
      if_neg fun hcontinues => hcontinues.2.2 rfl]
    exact ⟨rfl, rfl, rfl⟩

/-- Imported names are read up to the words about sharing. -/
theorem importedNames_spelled {sharing : Sharing} {ending : List (Token × Role)} (names : List Import)
    (hspells : Part.Spells marked (separated (names.map Import.parts)))
    (hending : Part.Spells ending sharing.parts) (hfree : ∀ imported ∈ names, imported.original ≠ .without) :
    Clause marked (importedNames (marked.map (·.1) ++ ending.map (·.1))) {} := by
  obtain ⟨hnone, has, hcomma⟩ := sharing_ends hending
  induction names generalizing marked with
  | nil =>
    obtain rfl := spells_nil hspells
    rw [List.map_nil, List.nil_append, hnone]
    exact .nil
  | cons imported names ih =>
    obtain ⟨hfirst, hfree⟩ := List.forall_mem_cons.mp hfree
    cases names with
    | nil =>
      obtain ⟨token, hclause, hfound⟩ := importedNames_import imported hspells hfirst has
      rwa [hfound, hcomma, if_neg Bool.false_ne_true]
    | cons second names =>
      obtain ⟨before, later, rfl, hbefore, hlater⟩ := spells_append hspells
      obtain ⟨comma, later, rfl, hcommaKind, _, hlater⟩ := spells_mark hlater
      have hasFree : startsWith (.keyword .asKw) (comma :: (later.map (·.1) ++ ending.map (·.1))) = false := by
        rw [startsWith_cons, hcommaKind]
        rfl
      have hstarts : startsWith (.symbol .comma) (comma :: (later.map (·.1) ++ ending.map (·.1))) = true := by
        rw [startsWith_cons, hcommaKind]
        rfl
      obtain ⟨token, hclause, hfound⟩ := importedNames_import imported hbefore hfirst hasFree
      rw [List.map_append, List.map_cons, List.append_assoc, List.cons_append, hfound, hstarts, if_pos rfl]
      exact hclause.append_names ((ih hlater hfree).cons_plain comma)

end Lists

end TemplateAnalysis.Syntax
