import TemplateAnalysis.Proofs.Syntax.Markup
import TemplateAnalysis.Proofs.Syntax.Scanning

namespace TemplateAnalysis.Syntax

open Template (Mentions Name StringMeaning Token TokenKind)
open Template.Mentions

section Spelled

variable {marked : List (Token × Role)} {parts first second rest : List Part} {part : Part} {role : Role}

theorem spells_cons (hspells : Part.Spells marked (part :: rest)) : ∃ token later,
    marked = (token, part.role) :: later ∧ token.kind = part.kind ∧ token.text = part.text ∧
      Part.Spells later rest := by
  obtain ⟨⟨token, role⟩, later, rfl, hview, hlater⟩ := List.map_eq_cons_iff.mp hspells
  obtain ⟨hkind, htext, rfl⟩ : token.kind = part.kind ∧ token.text = part.text ∧ role = part.role := by
    simpa using hview
  exact ⟨token, later, rfl, hkind, htext, hlater⟩

theorem spells_mark {mark : Template.Symbol} (hspells : Part.Spells marked (.mark mark :: rest)) :
    ∃ token later, marked = (token, .plain) :: later ∧ token.kind = .symbol mark ∧ token.text = mark.text ∧
      Part.Spells later rest := by
  obtain ⟨token, later, hmarked, hkind, htext, hlater⟩ := spells_cons hspells
  exact ⟨token, later, hmarked, hkind, htext.trans String.ofList_toList, hlater⟩

theorem spells_word {word : Template.Keyword} (hspells : Part.Spells marked (.word word :: rest)) :
    ∃ token later, marked = (token, .plain) :: later ∧ token.kind = .keyword word ∧ token.text = word.text ∧
      Part.Spells later rest := by
  obtain ⟨token, later, hmarked, hkind, htext, hlater⟩ := spells_cons hspells
  exact ⟨token, later, hmarked, hkind, htext.trans String.ofList_toList, hlater⟩

theorem spells_name {ident : Ident} (hspells : Part.Spells marked (.name role ident :: rest)) :
    ∃ token later, marked = (token, role) :: later ∧ token.kind = .identifier ∧
      token.text = String.ofList ident.chars ∧ Part.Spells later rest :=
  spells_cons hspells

theorem spells_append (hspells : Part.Spells marked (first ++ second)) : ∃ before after,
    marked = before ++ after ∧ Part.Spells before first ∧ Part.Spells after second := by
  rw [Part.Spells, List.map_append] at hspells
  obtain ⟨before, after, rfl, hbefore, hafter⟩ := List.map_eq_append_iff.mp hspells
  exact ⟨before, after, rfl, hbefore, hafter⟩

theorem spells_nil (hspells : Part.Spells marked []) : marked = [] :=
  List.map_eq_nil_iff.mp hspells

theorem exists_part (hspells : Part.Spells marked parts) {pair : Token × Role} (hmem : pair ∈ marked) :
    ∃ part ∈ parts, part.role = pair.2 := by
  have hview := List.mem_map_of_mem (f := fun (pair : Token × Role) => (pair.1.kind, pair.1.text, pair.2)) hmem
  rw [show marked.map _ = _ from hspells] at hview
  obtain ⟨part, hpart, hsame⟩ := List.mem_map.mp hview
  exact ⟨part, hpart, (Prod.mk.inj (Prod.mk.inj hsame).2).2⟩

@[simp] theorem select_append (first second : List (Token × Role)) :
    select role (first ++ second) = select role first ++ select role second := by
  simp [select]

@[simp] theorem select_cons_self (token : Token) (marked : List (Token × Role)) :
    select role ((token, role) :: marked) = token :: select role marked := by
  simp [select]

theorem select_cons_of_ne {other : Role} (token : Token) (marked : List (Token × Role))
    (hne : other ≠ role) : select role ((token, other) :: marked) = select role marked := by
  simp [select, hne]

theorem select_eq_nil (hnone : ∀ pair ∈ marked, pair.2 ≠ role) : select role marked = [] := by
  rw [select, List.map_eq_nil_iff, List.filter_eq_nil_iff]
  intro pair hpair
  rw [beq_iff_eq]
  exact hnone pair hpair

theorem select_eq_nil_of_code (hcode : ∀ pair ∈ marked, pair.2.isCode = true) (hrole : role.isCode = false) :
    select role marked = [] :=
  select_eq_nil fun pair hpair hsame => by
    have hpairCode := hcode pair hpair
    rw [hsame, hrole] at hpairCode
    cases hpairCode

/-- Outside of a body, what is read is exactly what has the role for it. -/
theorem readNames_eq (hinside : select .readInside marked = []) :
    readNames marked = (select .read marked).map Token.name := by
  have hnone : ∀ pair ∈ marked, pair.2 ≠ .readInside := by
    intro pair hpair hsame
    rw [select, List.map_eq_nil_iff, List.filter_eq_nil_iff] at hinside
    exact hinside pair hpair (by rw [hsame]; rfl)
  rw [readNames, select, List.map_map]
  refine congrArg _ (List.filter_congr fun pair hpair => ?_)
  have hpairRole := hnone pair hpair
  revert hpairRole
  cases pair.2 <;> simp [Role.isRead]

end Spelled

/-- A clause of a statement declares names and evaluates expressions around the statement. -/
structure Clause (marked : List (Token × Role)) (names : List Token) (mentions : Mentions) : Prop where
  declared : select .declared marked = names
  references : mentions.references = (select .read marked).map Token.name
  inside : select .readInside marked = []
  title : select .title marked = []

namespace Clause

variable {marked first second : List (Token × Role)} {names names' : List Token}
  {mentions mentions' : Mentions}

theorem nil : Clause [] [] {} :=
  ⟨rfl, rfl, rfl, rfl⟩

theorem append (hfirst : Clause first names mentions) (hsecond : Clause second names' mentions') :
    Clause (first ++ second) (names ++ names') (mentions ++ mentions') where
  declared := by rw [select_append, hfirst.declared, hsecond.declared]
  references := by
    rw [Template.Mentions.references_append, hfirst.references, hsecond.references, select_append,
      List.map_append]
  inside := by rw [select_append, hfirst.inside, hsecond.inside, List.append_nil]
  title := by rw [select_append, hfirst.title, hsecond.title, List.append_nil]

theorem append_expression (hfirst : Clause first names mentions) (hsecond : Clause second [] mentions') :
    Clause (first ++ second) names (mentions ++ mentions') := by
  have hboth := hfirst.append hsecond
  rwa [List.append_nil] at hboth

theorem append_names (hfirst : Clause first names {}) (hsecond : Clause second names' mentions) :
    Clause (first ++ second) (names ++ names') mentions :=
  hfirst.append hsecond

theorem cons_plain (hclause : Clause marked names mentions) (token : Token) :
    Clause ((token, .plain) :: marked) names mentions :=
  ⟨hclause.declared, hclause.references, hclause.inside, hclause.title⟩

theorem cons_declared (hclause : Clause marked names mentions) (token : Token) :
    Clause ((token, .declared) :: marked) (token :: names) mentions where
  declared := by rw [select_cons_self, hclause.declared]
  references := hclause.references
  inside := hclause.inside
  title := hclause.title

theorem cons_read (hclause : Clause marked names mentions) (token : Token) :
    Clause ((token, .read) :: marked) names ({ references := [token.name] } ++ mentions) where
  declared := hclause.declared
  references := by
    rw [Template.Mentions.references_append, select_cons_self, List.map_cons, hclause.references]
    rfl
  inside := hclause.inside
  title := hclause.title

/-- Only the references of what is evaluated matter. -/
theorem congr (hclause : Clause marked names mentions) (hsame : mentions'.references = mentions.references) :
    Clause marked names mentions' :=
  ⟨hclause.declared, hsame.trans hclause.references, hclause.inside, hclause.title⟩

theorem of_code (hcode : ∀ pair ∈ marked, pair.2.isCode = true)
    (hreferences : mentions.references = readNames marked) : Clause marked [] mentions where
  declared := select_eq_nil_of_code hcode rfl
  references := hreferences.trans (readNames_eq (select_eq_nil_of_code hcode rfl))
  inside := select_eq_nil_of_code hcode rfl
  title := select_eq_nil_of_code hcode rfl

/-- Words that a statement passes over declare and evaluate nothing. -/
theorem of_plain {parts : List Part} (hspells : Part.Spells marked parts)
    (hplain : ∀ part ∈ parts, part.role = .plain) : Clause marked [] {} := by
  have hroles : ∀ pair ∈ marked, pair.2 = .plain := by
    intro pair hpair
    obtain ⟨part, hpart, hsame⟩ := exists_part hspells hpair
    rw [← hsame, hplain part hpart]
  have hnone : ∀ {role : Role}, role ≠ .plain → select role marked = [] := fun hrole =>
    select_eq_nil fun pair hpair hsame => hrole (hsame.symm.trans (hroles pair hpair))
  refine ⟨hnone (by decide), ?_, hnone (by decide), hnone (by decide)⟩
  rw [hnone (by decide)]
  rfl

end Clause

section Expressions

variable {marked : List (Token × Role)} {words : List String} {rest : List Token}

theorem exposes_nil (depth : Nat) (parts : List Part) : exposes [] depth parts = false := by
  induction parts generalizing depth with
  | nil => rfl
  | cons part rest ih => rw [exposes, ih, List.contains_nil, Bool.and_false, Bool.false_or]

theorem guarded_nil (expr : Expr) : expr.guarded [] = expr.parts := by
  rw [Expr.guarded, exposes_nil, if_neg Bool.false_ne_true]

/-- The tokens of an expression are read as a clause that declares nothing. -/
theorem clause_guarded (expr : Expr) (hparen : words.contains "(" = false)
    (hspells : Part.Spells marked (expr.guarded words))
    (hends : ∀ token ∈ rest.head?,
      (words.contains token.text || closesBracket token.kind) = true ∧ token.kind ≠ .symbol .assign)
    (meaning : StringMeaning) :
    ∃ mentions, scan words meaning {} (marked.map (·.1) ++ rest) = (mentions, rest) ∧
      Clause marked [] mentions := by
  obtain ⟨mentions, hscan, hreferences⟩ := scan_guarded expr hparen hspells hends meaning
  refine ⟨mentions, hscan, .of_code (fun pair hpair => ?_) hreferences⟩
  obtain ⟨part, hpart, hsame⟩ := exists_part hspells hpair
  rw [← hsame]
  exact expr.builds_guarded builds_isCode words part hpart

/-- An expression at the end of a statement. -/
theorem clause_expression (expr : Expr) (hspells : Part.Spells marked expr.parts) :
    Clause marked [] (expression [] (marked.map (·.1))).1 := by
  rw [← guarded_nil expr] at hspells
  have hends : ∀ token ∈ ([] : List Token).head?,
      (([] : List String).contains token.text || closesBracket token.kind) = true ∧
        token.kind ≠ .symbol .assign := by
    rintro token ⟨⟩
  obtain ⟨mentions, hscan, hclause⟩ := clause_guarded expr rfl hspells hends .value
  rw [List.append_nil] at hscan
  rwa [expression, hscan]

/-- Filters are scanned after an operand and also where no operand stands before them. -/
theorem pipeline_scans (filters : List Filter) (left : Left) :
    Scans 0 left none (pipeline filters) fun _ => True := by
  induction filters generalizing left with
  | nil => trivial
  | cons filter filters ih =>
    rw [pipeline, List.flatMap_cons, List.cons_append, Filter.parts, List.cons_append]
    refine ⟨fits_symbol .pipe, by rintro ⟨⟩, fits_filter rfl filter.name, by rintro ⟨⟩, ?_⟩
    exact filter.arguments.scans ⟨rfl, _, rfl, rfl⟩ (Nat.zero_le _) fun after _ => ih after

theorem filters_scans (arguments : Arguments) (filters : List Filter) :
    Scans 0 {} none (arguments.parts ++ pipeline filters) fun _ => True := by
  cases arguments with
  | none => exact pipeline_scans filters {}
  | some items =>
    simp only [Arguments.parts, List.append_assoc, List.cons_append, List.nil_append]
    refine scans_opening .round fun inner hinner hdepth => ?_
    refine items.scans (.inl ⟨rfl, hinner⟩) (by omega) (by rintro ⟨⟩) fun last hlast => ?_
    exact scans_closing .round (Nat.le_refl 0) (hlast.trans hdepth) fun after _ => pipeline_scans filters after

theorem pipeline_isCode (filters : List Filter) : ∀ part ∈ pipeline filters, part.role.isCode = true := by
  intro part hpart
  obtain ⟨filter, _, hmem⟩ := List.mem_flatMap.mp hpart
  simp only [Filter.parts, List.mem_cons] at hmem
  rcases hmem with rfl | rfl | hmem
  · rfl
  · rfl
  · exact filter.arguments.builds builds_isCode part hmem

/-- Filters with the arguments of another one before them, at the end of a statement. -/
theorem clause_filters (arguments : Arguments) (filters : List Filter)
    (hspells : Part.Spells marked (arguments.parts ++ pipeline filters)) :
    Clause marked [] (expression [] (marked.map (·.1))).1 := by
  have hend : ([] : List Token).head?.map Token.kind = none := rfl
  obtain ⟨after, _, hreferences, _⟩ :=
    (filters_scans arguments filters).scan hspells (exposes_nil _ _) hend .value
  rw [List.append_nil] at hreferences
  refine .of_code (fun pair hpair => ?_) (hreferences.trans (List.append_nil _))
  obtain ⟨part, hpart, hsame⟩ := exists_part hspells hpair
  rw [← hsame]
  rcases List.mem_append.mp hpart with hmem | hmem
  · exact arguments.builds builds_isCode part hmem
  · exact pipeline_isCode filters part hmem

end Expressions

end TemplateAnalysis.Syntax
