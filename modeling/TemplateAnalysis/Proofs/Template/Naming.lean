import TemplateAnalysis.Proofs.Template.Usage

namespace TemplateAnalysis.Template.Statement

/-- The tokens that a statement takes for the names of declarations. -/
def declaredNames : Statement → List Token
  | .beginFor _ names _ _ | .assign names _ | .beginSet names _ | .beginWith _ names _
  | .beginCall _ names _ | .importNames _ names => names
  | .beginMacro _ name parameters _ => name.toList ++ parameters
  | .beginBlock _ name | .importTemplate _ name => name.toList
  | .other | .evaluate _ | .beginIf _ | .otherwise | .beginFilter _ | .beginRaw | .endRaw
  | .endBlock _ => []

variable {tokens : List Token}

theorem names_sublist (tokens : List Token) : (names tokens).1.Sublist tokens := by
  fun_induction names tokens with
  | case1 => exact List.Sublist.slnil
  | case2 => exact List.Sublist.refl _
  | case3 => exact List.nil_sublist _
  | case4 token next rest _ _ later after hrest ih =>
    rw [hrest] at ih
    exact (ih.cons next).cons_cons token
  | case5 token next rest => exact (List.nil_sublist _).cons_cons token
  | case6 => exact List.nil_sublist _

theorem name?_append_skipName (tokens : List Token) :
    (name? tokens).toList ++ skipName tokens = tokens := by
  cases tokens with
  | nil => rfl
  | cons token rest =>
    cases hname : token.kind.isName <;> simp [skipName, name?, Option.filter, hname]

theorem name?_sublist (tokens : List Token) : (name? tokens).toList.Sublist tokens := by
  have hsublist := List.sublist_append_left (name? tokens).toList (skipName tokens)
  rwa [name?_append_skipName] at hsublist

theorem skipName_sublist (tokens : List Token) : (skipName tokens).Sublist tokens :=
  (skipName_suffix tokens).sublist

theorem expression_sublist (stops : List String) (tokens : List Token) :
    (Mentions.expression stops tokens).2.Sublist tokens :=
  (Mentions.expression_suffix stops tokens).sublist

theorem withVariables_sublist (tokens : List Token) : (withVariables tokens).1.Sublist tokens := by
  fun_induction withVariables tokens with
  | case1 token sign rest hsign value hcomma names later hrest ih =>
    rw [hrest] at ih
    have hvalue : value.2.tail.Sublist (sign :: rest) :=
      (List.tail_sublist _).trans ((expression_sublist [","] rest).cons sign)
    exact (ih.trans hvalue).cons_cons token
  | case2 token sign rest => exact (List.nil_sublist _).cons_cons token
  | case3 => exact List.nil_sublist _
  | case4 => exact List.nil_sublist _

theorem parameters_sublist (tokens : List Token) : (parameters tokens).1.Sublist tokens := by
  fun_induction parameters tokens with
  | case1 => exact List.Sublist.slnil
  | case2 token rest hname default names later after hrest ih =>
    rw [hrest] at ih
    have hdefault : default.2.Sublist rest := by
      simp only [default]
      split
      · exact (expression_sublist [","] rest.tail).trans (List.tail_sublist _)
      · exact List.Sublist.refl _
    exact (ih.trans hdefault).cons_cons token
  | case3 => exact List.nil_sublist _
  | case4 token rest _ _ ih => exact ih.cons token

theorem parameterList_sublist (tokens : List Token) : (parameterList tokens).1.Sublist tokens := by
  unfold parameterList
  split
  · exact (parameters_sublist _).trans (List.tail_sublist _)
  · exact List.nil_sublist _

theorem templateNames_sublist (stops : List String) (tokens : List Token) :
    (Mentions.templateNames stops tokens).2.Sublist tokens := by
  obtain ⟨passed, hpassed, _⟩ := Mentions.templateNames_reads stops tokens
  exact List.IsSuffix.sublist ⟨passed, hpassed.symm⟩

/-- An imported name stands for itself, or the name that it is given stands behind it. -/
theorem renamed_sublist (token : Token) {rest after : List Token} {localName : Token}
    (hrenamed : localName = token ∧ after = rest ∨
      localName = (name? rest.tail).getD token ∧ after = skipName rest.tail) :
    (localName :: after).Sublist (token :: rest) := by
  rcases hrenamed with ⟨rfl, rfl⟩ | ⟨rfl, rfl⟩
  · exact List.Sublist.refl _
  · have htail := name?_append_skipName rest.tail
    cases hname : name? rest.tail with
    | none => exact ((skipName_sublist _).trans (List.tail_sublist rest)).cons_cons token
    | some other =>
      rw [hname, Option.toList_some, List.singleton_append] at htail
      rw [Option.getD_some, htail]
      exact (List.tail_sublist rest).cons token

theorem importedNames_sublist (tokens : List Token) : (importedNames tokens).Sublist tokens := by
  fun_induction importedNames tokens with
  | case1 => exact List.Sublist.slnil
  | case2 token rest hname renamed localName after ih =>
    have hrest : (localName :: after).Sublist (token :: rest) := by
      apply renamed_sublist
      by_cases hrenamed : renamed = true
      · exact .inr ⟨dif_pos hrenamed, dif_pos hrenamed⟩
      · exact .inl ⟨dif_neg hrenamed, dif_neg hrenamed⟩
    refine List.Sublist.trans (List.Sublist.cons_cons localName ?_) hrest
    split
    · exact ih.trans (List.tail_sublist _)
    · exact List.nil_sublist _
  | case3 => exact List.nil_sublist _

theorem forHead_sublist (word : Token) (tokens : List Token) :
    (forHead word tokens).declaredNames.Sublist tokens := by
  have hnames : (names (skip (.symbol .leftParen) tokens)).1.Sublist tokens :=
    (names_sublist _).trans (skip_suffix _ _).sublist
  exact hnames

theorem importHead_sublist (tokens : List Token) :
    (importHead tokens).declaredNames.Sublist tokens := by
  have hafter := templateNames_sublist ["as"] tokens
  simp only [importHead, declaredNames]
  split
  · exact (name?_sublist _).trans ((List.tail_sublist _).trans hafter)
  · exact List.nil_sublist _

theorem fromHead_sublist (tokens : List Token) :
    (fromHead tokens).declaredNames.Sublist tokens := by
  have hafter := templateNames_sublist ["import"] tokens
  simp only [fromHead, declaredNames]
  split
  · exact (importedNames_sublist _).trans ((List.tail_sublist _).trans hafter)
  · exact List.nil_sublist _

theorem setHead_sublist (tokens : List Token) : (setHead tokens).declaredNames.Sublist tokens := by
  have htargets := (setTargets_readsTargets tokens).sublist
  simp only [setHead]
  split <;> exact htargets

/-- The names that a statement declares stand in its body, in this order. -/
theorem ofBody_sublist (tokens : List Token) : (ofBody tokens).declaredNames.Sublist tokens := by
  cases tokens with
  | nil => exact List.nil_sublist _
  | cons token rest =>
    suffices hrest : (ofBody (token :: rest)).declaredNames.Sublist rest from hrest.cons token
    rw [ofBody]
    split
    case h_1 => exact forHead_sublist token rest
    case h_5 => exact setHead_sublist rest
    case h_6 => exact withVariables_sublist rest
    case h_7 =>
      have hmacro := (List.Sublist.refl (name? rest).toList).append
        (parameterList_sublist (skipName rest))
      rwa [name?_append_skipName] at hmacro
    case h_8 => exact parameterList_sublist rest
    case h_9 => exact name?_sublist rest
    case h_14 => exact importHead_sublist rest
    case h_15 => exact fromHead_sublist rest
    case h_25 => split <;> exact List.nil_sublist _
    all_goals exact List.nil_sublist _

theorem ofTag_declaredNames (tag : Tag) : (ofTag tag).declaredNames.Sublist tag.body := by
  rw [ofTag]
  split
  · exact List.nil_sublist _
  · exact ofBody_sublist tag.body

/-- The name of the macro that a statement opens. -/
def title? : Statement → Option Token
  | .beginMacro _ title _ _ => title
  | _ => none

theorem title?_setHead (tokens : List Token) : (setHead tokens).title? = none := by
  simp only [setHead]
  split <;> rfl

theorem title?_ofBody {token : Token} (hkind : token.kind ≠ .keyword .macroKw) (rest : List Token) :
    (ofBody (token :: rest)).title? = none := by
  rw [ofBody]
  split
  case h_5 => exact title?_setHead rest
  case h_7 hmacro => exact absurd hmacro hkind
  case h_25 => split <;> rfl
  all_goals rfl

theorem macroHead_sublist (word : Token) (tokens : List Token) :
    ((macroHead word tokens).title?.toList.map Token.name ++
      (macroHead word tokens).mentions.references).Sublist (wordNames tokens) := by
  have hname : wordNames (name? tokens).toList = (name? tokens).toList.map Token.name := by
    cases hname : name? tokens with
    | none => rfl
    | some token =>
      obtain ⟨_, hkind⟩ := Option.filter_eq_some_iff.mp hname
      rw [TokenKind.isName, Bool.and_eq_true] at hkind
      simp [wordNames, hkind.1]
  have hdefaults := (parameterList_reads (skipName tokens)).sublist
  have hwhole := (List.Sublist.refl (wordNames (name? tokens).toList)).append hdefaults
  rwa [← wordNames_append, name?_append_skipName, hname] at hwhole

/-- The name of a macro stands before the default values of its parameters. -/
theorem ofBody_title_sublist (tokens : List Token) : ((ofBody tokens).title?.toList.map Token.name ++
    (ofBody tokens).mentions.references).Sublist (wordNames tokens) := by
  obtain ⟨_, hreads⟩ := ofBody_reads tokens
  cases tokens with
  | nil => exact hreads.sublist
  | cons token rest =>
    by_cases hkind : token.kind = .keyword .macroKw
    · have hbody : ofBody (token :: rest) = macroHead token rest := by
        simp only [ofBody, hkind]
      rw [hbody, ← List.singleton_append, wordNames_append]
      exact (macroHead_sublist token rest).trans (List.sublist_append_right _ _)
    · rw [title?_ofBody hkind]
      exact hreads.sublist

theorem ofTag_title_sublist (tag : Tag) : ((ofTag tag).title?.toList.map Token.name ++
    (ofTag tag).mentions.references).Sublist (wordNames tag.body) := by
  rw [ofTag]
  split
  · exact (Mentions.expression_reads _ _).sublist
  · exact ofBody_title_sublist tag.body

end TemplateAnalysis.Template.Statement
