import TemplateAnalysis.Proofs.Template.Naming

namespace TemplateAnalysis.Template

namespace Header

open Mentions (closesBracket opensBracket)

/-- An expression within a number of open brackets, up to the tokens that come after it. It ends outside
    of all brackets, before a word that the statement gives a meaning of its own or before a bracket that
    closes something around it. -/
inductive Value (stops : List String) : Nat → List Token → List Token → Prop
  | ends {token : Token} {rest : List Token}
      (hends : token.text ∈ stops ∨ closesBracket token.kind = true) :
      Value stops 0 (token :: rest) (token :: rest)
  | opens {depth : Nat} {token : Token} {rest after : List Token}
      (hinside : depth = 0 → token.text ∉ stops) (hbracket : opensBracket token.kind = true)
      (hrest : Value stops (depth + 1) rest after) : Value stops depth (token :: rest) after
  | closes {depth : Nat} {token : Token} {rest after : List Token}
      (hbracket : closesBracket token.kind = true) (hrest : Value stops depth rest after) :
      Value stops (depth + 1) (token :: rest) after
  | passes {depth : Nat} {token : Token} {rest after : List Token}
      (hinside : depth = 0 → token.text ∉ stops) (hopens : opensBracket token.kind = false)
      (hcloses : closesBracket token.kind = false) (hrest : Value stops depth rest after) :
      Value stops depth (token :: rest) after

/-- A name in a list of names between commas. -/
inductive Listed : List Token → Token → Prop
  | here {name : Token} {rest : List Token} (hname : name.kind.isName = true) :
      Listed (name :: rest) name
  | later {first comma name : Token} {rest : List Token} (hfirst : first.kind.isName = true)
      (hcomma : comma.kind = .symbol .comma) (hlater : Listed rest name) :
      Listed (first :: comma :: rest) name

/-- A name among the targets of an assignment. A target with an attribute declares nothing. -/
inductive Target : List Token → Token → Prop
  | here {name : Token} {rest : List Token} (hname : name.kind.isName = true)
      (hplain : Statement.startsWith (.symbol .dot) rest = false) : Target (name :: rest) name
  | later {first comma name : Token} {rest after : List Token} (hfirst : first.kind.isName = true)
      (hcomma : comma.kind = .symbol .comma) (hrest : Statement.behindTarget rest = comma :: after)
      (hlater : Target after name) : Target (first :: rest) name

/-- A variable of a block, in front of its value. -/
inductive Variable : List Token → Token → Prop
  | here {name sign : Token} {rest : List Token} (hname : name.kind.isWord = true)
      (hsign : sign.kind = .symbol .assign) : Variable (name :: sign :: rest) name
  | later {first sign comma name : Token} {rest after : List Token}
      (hfirst : first.kind.isWord = true) (hsign : sign.kind = .symbol .assign)
      (hvalue : Value [","] 0 rest (comma :: after)) (hcomma : comma.kind = .symbol .comma)
      (hlater : Variable after name) : Variable (first :: sign :: rest) name

/-- A parameter in a list that has been opened by a bracket. Parameters can have default values, and what
    is no parameter does not matter. -/
inductive Parameter : List Token → Token → Prop
  | here {name : Token} {rest : List Token} (hname : name.kind.isName = true) :
      Parameter (name :: rest) name
  | behindName {first name : Token} {rest : List Token} (hfirst : first.kind.isName = true)
      (hplain : Statement.startsWith (.symbol .assign) rest = false) (hlater : Parameter rest name) :
      Parameter (first :: rest) name
  | behindDefault {first sign name : Token} {rest after : List Token}
      (hfirst : first.kind.isName = true) (hsign : sign.kind = .symbol .assign)
      (hvalue : Value [","] 0 rest after) (hlater : Parameter after name) :
      Parameter (first :: sign :: rest) name
  | behindOther {other name : Token} {rest : List Token} (hother : other.kind.isName = false)
      (hopen : other.kind ≠ .symbol .rightParen) (hlater : Parameter rest name) :
      Parameter (other :: rest) name

/-- What comes after an imported name. Another name can be given to it. -/
def behindImport (rest : List Token) : List Token :=
  if Statement.startsWith (.keyword .asKw) rest then Statement.skipName rest.tail else rest

/-- Whether a token is an imported name. The imports end where the context is told. -/
def IsImport (token : Token) : Prop :=
  token.kind.isName = true ∧ token.text ≠ "with" ∧ token.text ≠ "without"

/-- The local name of something that is imported. -/
inductive Imported : List Token → Token → Prop
  | plain {name : Token} {rest : List Token} (hname : IsImport name)
      (hplain : ∀ word after, rest = word :: after → word.kind = .keyword .asKw →
        Statement.name? after = none) : Imported (name :: rest) name
  | renamed {first word name : Token} {rest : List Token} (hfirst : IsImport first)
      (hword : word.kind = .keyword .asKw) (hname : name.kind.isName = true) :
      Imported (first :: word :: name :: rest) name
  | later {first comma name : Token} {rest after : List Token} (hfirst : IsImport first)
      (hrest : behindImport rest = comma :: after) (hcomma : comma.kind = .symbol .comma)
      (hlater : Imported after name) : Imported (first :: rest) name

/-- The names that the body of a statement tag declares, each with the kind of its declaration. -/
inductive Declares : List Token → Token → IdentifierKind → Prop
  | loopKey {word key : Token} {rest values : List Token} (hword : word.kind = .keyword .forKw)
      (htargets : Statement.skip (.symbol .leftParen) rest = key :: values)
      (hkey : key.kind.isName = true) : Declares (word :: rest) key .forLoopKey
  | loopValue {word key comma value : Token} {rest values : List Token}
      (hword : word.kind = .keyword .forKw)
      (htargets : Statement.skip (.symbol .leftParen) rest = key :: comma :: values)
      (hkey : key.kind.isName = true) (hcomma : comma.kind = .symbol .comma)
      (hvalue : Listed values value) : Declares (word :: rest) value .forLoopValue
  | assigned {word name : Token} {rest : List Token} (hword : word.kind = .keyword .setKw)
      (htarget : Target rest name) : Declares (word :: rest) name .setVariable
  | withName {word name : Token} {rest : List Token} (hword : word.kind = .keyword .withKw)
      (hvariable : Variable rest name) : Declares (word :: rest) name .withVariable
  | macroName {word name : Token} {rest : List Token} (hword : word.kind = .keyword .macroKw)
      (hname : name.kind.isName = true) : Declares (word :: name :: rest) name .macroName
  | macroParameter {word bracket name : Token} {rest inner : List Token}
      (hword : word.kind = .keyword .macroKw) (hrest : Statement.skipName rest = bracket :: inner)
      (hbracket : bracket.kind = .symbol .leftParen) (hparameter : Parameter inner name) :
      Declares (word :: rest) name .macroParameter
  | callParameter {word bracket name : Token} {inner : List Token}
      (hword : word.kind = .keyword .callKw) (hbracket : bracket.kind = .symbol .leftParen)
      (hparameter : Parameter inner name) : Declares (word :: bracket :: inner) name .macroParameter
  | blockName {word name : Token} {rest : List Token} (hword : word.kind = .keyword .blockKw)
      (hname : name.kind.isName = true) : Declares (word :: name :: rest) name .templateBlock
  | importAlias {word sign name : Token} {rest after : List Token}
      (hword : word.kind = .keyword .importKw) (hvalue : Value ["as"] 0 rest (sign :: name :: after))
      (hsign : sign.kind = .keyword .asKw) (hname : name.kind.isName = true) :
      Declares (word :: rest) name .setVariable
  | importName {word sign name : Token} {rest names : List Token}
      (hword : word.kind = .keyword .fromKw) (hvalue : Value ["import"] 0 rest (sign :: names))
      (hsign : sign.kind = .keyword .importKw) (hname : Imported names name) :
      Declares (word :: rest) name .macroName

section Values

open Mentions (Left endsAt scan)

variable {stops : List String} {depth : Nat} {tokens after : List Token} {left : Left}

theorem endsAt_eq_true {token : Token} (hdepth : left.depth = 0)
    (hends : token.text ∈ stops ∨ closesBracket token.kind = true) : endsAt stops left token = true := by
  simpa [endsAt, hdepth] using hends

theorem endsAt_eq_false {token : Token} (hinside : left.depth = 0 → token.text ∉ stops)
    (hcloses : left.depth = 0 → closesBracket token.kind = false) : endsAt stops left token = false := by
  by_cases hdepth : left.depth = 0
  · simp [endsAt, hinside hdepth, hcloses hdepth]
  · simp [endsAt, hdepth]

theorem closesBracket_of_opensBracket {kind : TokenKind} (hopens : opensBracket kind = true) :
    closesBracket kind = false := by
  unfold opensBracket at hopens
  split at hopens <;> first | rfl | cases hopens

theorem snd_scan (meaning : StringMeaning) {token : Token} {rest : List Token}
    (hends : endsAt stops left token = false) : (scan stops meaning left (token :: rest)).2 =
      (scan stops meaning (left.push token.kind) rest).2 := by
  rw [scan, hends]
  rfl

/-- The reader of expressions stops where they end. -/
theorem scan_of_value (hvalue : Value stops depth tokens after) (meaning : StringMeaning)
    (hdepth : left.depth = depth) : (scan stops meaning left tokens).2 = after ∧ after ≠ [] := by
  induction hvalue generalizing left with
  | ends hends =>
    rw [scan, if_pos (endsAt_eq_true hdepth hends)]
    exact ⟨rfl, List.cons_ne_nil _ _⟩
  | opens hinside hbracket _ ih =>
    rw [snd_scan meaning (endsAt_eq_false (hdepth ▸ hinside)
      fun _ => closesBracket_of_opensBracket hbracket)]
    exact ih (by simp [Left.push, hbracket, hdepth])
  | closes hbracket _ ih =>
    rw [snd_scan meaning (endsAt_eq_false (fun hzero => by omega) fun hzero => by omega)]
    have hopens := mt closesBracket_of_opensBracket (ne_true_of_eq_false · hbracket)
    exact ih (by simp [Left.push, hbracket, hopens, hdepth])
  | passes hinside hopens hcloses _ ih =>
    rw [snd_scan meaning (endsAt_eq_false (hdepth ▸ hinside) fun _ => hcloses)]
    exact ih (by simp [Left.push, hopens, hcloses, hdepth])

theorem value_of_scan {meaning : StringMeaning} (hscan : (scan stops meaning left tokens).2 = after)
    (hafter : after ≠ []) : Value stops left.depth tokens after := by
  induction tokens generalizing left with
  | nil => exact absurd hscan.symm hafter
  | cons token rest ih =>
    cases hends : endsAt stops left token with
    | true =>
      rw [scan, if_pos hends] at hscan
      subst hscan
      simp only [endsAt, Bool.and_eq_true, beq_iff_eq, Bool.or_eq_true, List.contains_iff_mem] at hends
      rw [hends.1]
      exact .ends hends.2
    | false =>
      rw [snd_scan meaning hends] at hscan
      have hrest := ih hscan
      have hinside : left.depth = 0 → token.text ∉ stops ∧ closesBracket token.kind = false := by
        intro hdepth
        simpa [endsAt, hdepth] using hends
      cases hopens : opensBracket token.kind with
      | true =>
        refine .opens (fun hdepth => (hinside hdepth).1) hopens ?_
        simpa [Left.push, hopens] using hrest
      | false =>
        cases hcloses : closesBracket token.kind with
        | false =>
          refine .passes (fun hdepth => (hinside hdepth).1) hopens hcloses ?_
          simpa [Left.push, hopens, hcloses] using hrest
        | true =>
          obtain ⟨depth, hdepth⟩ : ∃ depth, left.depth = depth + 1 :=
            Nat.exists_eq_succ_of_ne_zero fun hzero => by simp [(hinside hzero).2] at hcloses
          rw [hdepth]
          refine .closes hcloses ?_
          simpa [Left.push, hopens, hcloses, hdepth] using hrest

/-- An expression ends where its reader stops, if anything comes after it. -/
theorem value_iff (meaning : StringMeaning) :
    Value stops 0 tokens after ↔ (scan stops meaning {} tokens).2 = after ∧ after ≠ [] :=
  ⟨fun hvalue => scan_of_value hvalue meaning rfl, fun ⟨hscan, hafter⟩ => value_of_scan hscan hafter⟩

end Values

open Statement

variable {tokens : List Token} {name : Token}

theorem listed_iff : Listed tokens name ↔ name ∈ (names tokens).1 := by
  constructor
  · intro hlisted
    induction hlisted with
    | @here name rest hname =>
      cases rest with
      | nil => simp [names, hname]
      | cons next rest => by_cases hcomma : next.kind = .symbol .comma <;> simp [names, hname, hcomma]
    | later hfirst hcomma _ ih => simp [names, hfirst, hcomma, ih]
  · fun_induction names tokens with
    | case1 => intro hmem; cases hmem
    | case2 token hname =>
      intro hmem
      rw [List.mem_singleton.mp hmem]
      exact .here hname
    | case3 => intro hmem; cases hmem
    | case4 token next rest hname hcomma later after hrest ih =>
      intro hmem
      rcases List.mem_cons.mp hmem with rfl | hlater
      · exact .here hname
      · exact .later hname hcomma (ih (by rwa [hrest]))
    | case5 token next rest hname =>
      intro hmem
      rw [List.mem_singleton.mp hmem]
      exact .here hname
    | case6 => intro hmem; cases hmem

theorem startsWith_of_kind {kind : TokenKind} {token : Token} {rest : List Token}
    (hkind : token.kind = kind) : startsWith kind (token :: rest) = true :=
  beq_iff_eq.mpr hkind

theorem mem_setTargets_cons {token : Token} {rest : List Token} (hname : token.kind.isName = true) :
    name ∈ (setTargets (token :: rest)).1 ↔
      (startsWith (.symbol .dot) rest = false ∧ name = token) ∨
        (startsWith (.symbol .comma) (behindTarget rest) = true ∧
          name ∈ (setTargets (behindTarget rest).tail).1) := by
  rw [setTargets, behindTarget]
  cases hdot : startsWith (.symbol .dot) rest with
  | true => by_cases hcomma : startsWith (.symbol .comma) (skipName rest.tail) = true <;> simp [hname, hcomma]
  | false => by_cases hcomma : startsWith (.symbol .comma) rest = true <;> simp [hname, hcomma]

theorem target_cons {token : Token} {rest : List Token} (hname : token.kind.isName = true)
    (hmem : name ∈ (setTargets (token :: rest)).1)
    (hbehind : name ∈ (setTargets (behindTarget rest).tail).1 → Target (behindTarget rest).tail name) :
    Target (token :: rest) name := by
  rcases (mem_setTargets_cons hname).mp hmem with ⟨hplain, rfl⟩ | ⟨hcomma, hlater⟩
  · exact .here hname hplain
  · obtain ⟨comma, hrest, hkind⟩ := exists_of_startsWith hcomma
    exact .later hname hkind hrest (hbehind hlater)

theorem target_iff : Target tokens name ↔ name ∈ (setTargets tokens).1 := by
  constructor
  · intro htarget
    induction htarget with
    | here hname hplain => exact (mem_setTargets_cons hname).mpr (.inl ⟨hplain, rfl⟩)
    | later hfirst hcomma hrest _ ih =>
      refine (mem_setTargets_cons hfirst).mpr (.inr ?_)
      rw [hrest]
      exact ⟨startsWith_of_kind hcomma, ih⟩
  · intro hmem
    induction tokens using setTargets.induct with
    | case1 => simp [setTargets] at hmem
    | case2 token rest hname _ _ _ _ _ _ _ ih => exact target_cons hname hmem ih
    | case3 token rest hname _ _ _ _ _ _ _ ih => exact target_cons hname hmem ih
    | case4 token rest hname => simp [setTargets, hname] at hmem

theorem mem_withVariables_cons {token sign : Token} {rest : List Token}
    (hname : token.kind.isWord = true) (hsign : sign.kind = .symbol .assign) :
    name ∈ (withVariables (token :: sign :: rest)).1 ↔ name = token ∨
      (startsWith (.symbol .comma) (Mentions.expression [","] rest).2 = true ∧
        name ∈ (withVariables (Mentions.expression [","] rest).2.tail).1) := by
  rw [withVariables]
  by_cases hcomma : startsWith (.symbol .comma) (Mentions.expression [","] rest).2 = true <;>
    simp [hname, hsign, hcomma]

theorem variable_iff : Variable tokens name ↔ name ∈ (withVariables tokens).1 := by
  constructor
  · intro hvariable
    induction hvariable with
    | here hname hsign => exact (mem_withVariables_cons hname hsign).mpr (.inl rfl)
    | later hfirst hsign hvalue hcomma _ ih =>
      refine (mem_withVariables_cons hfirst hsign).mpr (.inr ?_)
      rw [Mentions.expression, ((value_iff .value).mp hvalue).1]
      exact ⟨startsWith_of_kind hcomma, ih⟩
  · intro hmem
    induction tokens using withVariables.induct with
    | case1 token sign rest hhead value hcomma names later _ ih =>
      rcases (mem_withVariables_cons hhead.1 hhead.2).mp hmem with rfl | ⟨_, hlater⟩
      · exact .here hhead.1 hhead.2
      · obtain ⟨comma, hrest, hkind⟩ := exists_of_startsWith hcomma
        exact .later hhead.1 hhead.2 ((value_iff .value).mpr ⟨hrest, List.cons_ne_nil _ _⟩) hkind
          (ih hlater)
    | case2 token sign rest hhead value hends =>
      rcases (mem_withVariables_cons hhead.1 hhead.2).mp hmem with rfl | ⟨hcomma, _⟩
      · exact .here hhead.1 hhead.2
      · exact absurd hcomma hends
    | case3 token sign rest hhead =>
      rw [withVariables, if_neg hhead] at hmem
      cases hmem
    | case4 tokens hshort =>
      match tokens with
      | [] | [_] => simp [withVariables] at hmem
      | token :: sign :: rest => exact absurd rfl (hshort token sign rest)

theorem mem_parameters_name {token : Token} {rest : List Token} (hname : token.kind.isName = true) :
    name ∈ (parameters (token :: rest)).1 ↔ name = token ∨
      name ∈ (parameters (if startsWith (.symbol .assign) rest then
        (Mentions.expression [","] rest.tail).2 else rest)).1 := by
  rw [parameters]
  by_cases hassign : startsWith (.symbol .assign) rest = true <;> simp [hname, hassign]

theorem parameter_iff : Parameter tokens name ↔ name ∈ (parameters tokens).1 := by
  constructor
  · intro hparameter
    induction hparameter with
    | here hname => exact (mem_parameters_name hname).mpr (.inl rfl)
    | behindName hfirst hplain _ ih =>
      refine (mem_parameters_name hfirst).mpr (.inr ?_)
      rwa [hplain]
    | behindDefault hfirst hsign hvalue _ ih =>
      refine (mem_parameters_name hfirst).mpr (.inr ?_)
      rw [if_pos (startsWith_of_kind hsign), List.tail_cons, Mentions.expression,
        ((value_iff .value).mp hvalue).1]
      exact ih
    | behindOther hother hopen _ ih =>
      rw [parameters]
      simpa [hother, hopen] using ih
  · intro hmem
    induction tokens using parameters.induct with
    | case1 => simp [parameters] at hmem
    | case2 token rest hname default _ _ _ _ ih =>
      rcases (mem_parameters_name hname).mp hmem with rfl | hlater
      · exact .here hname
      · split at hlater
        next hassign =>
          obtain ⟨sign, hrest, hkind⟩ := exists_of_startsWith hassign
          have hne : (Mentions.expression [","] rest.tail).2 ≠ [] := by
            intro hnil
            simp [hnil, parameters] at hlater
          have hdefault : default = Mentions.expression [","] rest.tail := dif_pos hassign
          rw [hdefault] at ih
          rw [hrest]
          exact .behindDefault hname hkind ((value_iff .value).mpr ⟨rfl, hne⟩) (ih hlater)
        next hplain =>
          have hdefault : default = ({}, rest) := dif_neg hplain
          rw [hdefault] at ih
          exact .behindName hname (Bool.eq_false_of_not_eq_true hplain) (ih hlater)
    | case3 token rest hname hclosing =>
      rw [parameters, if_neg hname, if_pos hclosing] at hmem
      cases hmem
    | case4 token rest hname hopen ih =>
      rw [parameters, if_neg hname, if_neg hopen] at hmem
      exact .behindOther (Bool.eq_false_of_not_eq_true hname) hopen (ih hmem)

/-- The name under which an imported name can be used, if the word `as` gives it another one. -/
theorem mem_importedNames_cons {token : Token} {rest : List Token} (himport : IsImport token) :
    name ∈ importedNames (token :: rest) ↔
      (name = if startsWith (.keyword .asKw) rest then (name? rest.tail).getD token else token) ∨
        (startsWith (.symbol .comma) (behindImport rest) = true ∧
          name ∈ importedNames (behindImport rest).tail) := by
  rw [IsImport] at himport
  rw [importedNames, behindImport, if_pos himport]
  by_cases hrenamed : startsWith (.keyword .asKw) rest = true
  · by_cases hcomma : startsWith (.symbol .comma) (skipName rest.tail) = true <;>
      simp [hrenamed, hcomma]
  · by_cases hcomma : startsWith (.symbol .comma) rest = true <;> simp [hrenamed, hcomma]

theorem name?_cons (hname : name.kind.isName = true) (rest : List Token) :
    name? (name :: rest) = some name := by
  simp [name?, Option.filter, hname]

theorem exists_of_name? (hname : name? tokens = some name) :
    ∃ rest, tokens = name :: rest ∧ name.kind.isName = true := by
  cases tokens with
  | nil => cases hname
  | cons token rest =>
    obtain ⟨hhead, hkind⟩ := Option.filter_eq_some_iff.mp hname
    cases hhead
    exact ⟨rest, rfl, hkind⟩

/-- The local name of the first one of several imported names. -/
theorem imported_first {token : Token} {rest : List Token} (himport : IsImport token)
    (hname : name = if startsWith (.keyword .asKw) rest then (name? rest.tail).getD token else token) :
    Imported (token :: rest) name := by
  split at hname
  next hrenamed =>
    obtain ⟨word, hrest, hkind⟩ := exists_of_startsWith hrenamed
    cases hother : name? rest.tail with
    | none =>
      rw [hother, Option.getD_none] at hname
      subst hname
      refine .plain himport fun word after hsplit _ => ?_
      rwa [hsplit, List.tail_cons] at hother
    | some other =>
      obtain ⟨after, htail, hother'⟩ := exists_of_name? hother
      rw [hother, Option.getD_some] at hname
      rw [hrest, htail, hname]
      exact .renamed himport hkind hother'
  next hplain =>
    subst hname
    refine .plain himport fun word after hsplit hkind => ?_
    rw [hsplit] at hplain
    exact absurd (startsWith_of_kind hkind) hplain

theorem imported_iff : Imported tokens name ↔ name ∈ importedNames tokens := by
  constructor
  · intro himported
    induction himported with
    | @plain name rest hname hplain =>
      refine (mem_importedNames_cons hname).mpr (.inl ?_)
      split
      next hrenamed =>
        obtain ⟨word, hrest, hkind⟩ := exists_of_startsWith hrenamed
        rw [hplain word rest.tail hrest hkind]
        rfl
      next => rfl
    | renamed hfirst hword hname =>
      refine (mem_importedNames_cons hfirst).mpr (.inl ?_)
      rw [if_pos (startsWith_of_kind hword), List.tail_cons, name?_cons hname]
      rfl
    | later hfirst hrest hcomma _ ih =>
      refine (mem_importedNames_cons hfirst).mpr (.inr ?_)
      rw [hrest]
      exact ⟨startsWith_of_kind hcomma, ih⟩
  · intro hmem
    induction tokens using importedNames.induct with
    | case1 => simp [importedNames] at hmem
    | case2 token rest himport _ _ ih =>
      rcases (mem_importedNames_cons himport).mp hmem with hname | ⟨hcomma, hlater⟩
      · exact imported_first himport hname
      · obtain ⟨comma, hrest, hkind⟩ := exists_of_startsWith hcomma
        exact .later himport hrest hkind (ih hlater)
    | case3 token rest himport =>
      rw [importedNames, if_neg himport] at hmem
      cases hmem

/-- The targets of a loop, the first one of them as its key. -/
def loopNames : List Token → List (Token × IdentifierKind)
  | [] => []
  | key :: values => (key, .forLoopKey) :: values.map (·, .forLoopValue)

/-- The names that a statement declares, each with the kind of its declaration. -/
def declaredAs : Statement → List (Token × IdentifierKind)
  | .beginFor _ names _ _ => loopNames names
  | .assign names _ | .beginSet names _ => names.map (·, .setVariable)
  | .beginWith _ names _ => names.map (·, .withVariable)
  | .beginMacro _ name parameters _ =>
    name.toList.map (·, .macroName) ++ parameters.map (·, .macroParameter)
  | .beginCall _ parameters _ => parameters.map (·, .macroParameter)
  | .beginBlock _ name => name.toList.map (·, .templateBlock)
  | .importTemplate _ name => name.toList.map (·, .setVariable)
  | .importNames _ names => names.map (·, .macroName)
  | .other | .evaluate _ | .beginIf _ | .otherwise | .beginFilter _ | .beginRaw | .endRaw
  | .endBlock _ => []

variable {kind : IdentifierKind}

theorem mem_labelled {label : IdentifierKind} {names : List Token} :
    (name, kind) ∈ names.map (·, label) ↔ name ∈ names ∧ kind = label := by
  simp [eq_comm]

theorem mem_title : name ∈ (name? tokens).toList ↔
    ∃ rest, tokens = name :: rest ∧ name.kind.isName = true := by
  rw [Option.mem_toList]
  refine ⟨exists_of_name?, ?_⟩
  rintro ⟨rest, rfl, hname⟩
  exact name?_cons hname rest

theorem mem_loopNames : (name, kind) ∈ loopNames (names tokens).1 ↔
    (∃ values, tokens = name :: values ∧ name.kind.isName = true ∧ kind = .forLoopKey) ∨
      ∃ key comma values, tokens = key :: comma :: values ∧ key.kind.isName = true ∧
        comma.kind = .symbol .comma ∧ Listed values name ∧ kind = .forLoopValue := by
  have hlisted : ∀ {values}, Listed values name ↔ name ∈ (names values).1 := listed_iff
  fun_cases names tokens with
  | case4 token next rest hname hcomma later after hrest =>
    rw [loopNames, List.mem_cons, mem_labelled]
    grind
  | _ => grind [loopNames]

theorem mem_parameterList : name ∈ (parameterList tokens).1 ↔
    ∃ bracket inner, tokens = bracket :: inner ∧ bracket.kind = .symbol .leftParen ∧
      Parameter inner name := by
  rw [parameterList]
  split
  next hopens =>
    obtain ⟨bracket, htokens, hkind⟩ := exists_of_startsWith hopens
    rw [← parameter_iff]
    constructor
    · exact fun hparameter => ⟨bracket, tokens.tail, htokens, hkind, hparameter⟩
    · rintro ⟨bracket, inner, rfl, _, hparameter⟩
      exact hparameter
  next hopens =>
    refine iff_of_false List.not_mem_nil ?_
    rintro ⟨bracket, inner, rfl, hkind, _⟩
    exact hopens (startsWith_of_kind hkind)

theorem mem_alias : name ∈ (if startsWith (.keyword .asKw) (Mentions.templateNames ["as"] tokens).2 then
      name? (Mentions.templateNames ["as"] tokens).2.tail else none).toList ↔
    ∃ sign after, Value ["as"] 0 tokens (sign :: name :: after) ∧ sign.kind = .keyword .asKw ∧
      name.kind.isName = true := by
  have hvalue : ∀ rest, Value ["as"] 0 tokens rest ↔
      (Mentions.templateNames ["as"] tokens).2 = rest ∧ rest ≠ [] := fun rest => value_iff .template
  generalize (Mentions.templateNames ["as"] tokens).2 = after at hvalue
  split
  next hsign =>
    obtain ⟨sign, hafter, hkind⟩ := exists_of_startsWith hsign
    rw [mem_title]
    constructor
    · rintro ⟨rest, htail, hname⟩
      exact ⟨sign, rest, (hvalue _).mpr ⟨htail ▸ hafter, List.cons_ne_nil _ _⟩, hkind, hname⟩
    · rintro ⟨_, rest, hrest, _, hname⟩
      exact ⟨rest, by rw [((hvalue _).mp hrest).1, List.tail_cons], hname⟩
  next hsign =>
    refine iff_of_false List.not_mem_nil ?_
    rintro ⟨sign, rest, hrest, hkind, _⟩
    rw [((hvalue _).mp hrest).1] at hsign
    exact hsign (startsWith_of_kind hkind)

theorem mem_imports : name ∈ (if startsWith (.keyword .importKw)
      (Mentions.templateNames ["import"] tokens).2 then
      importedNames (Mentions.templateNames ["import"] tokens).2.tail else []) ↔
    ∃ sign names, Value ["import"] 0 tokens (sign :: names) ∧ sign.kind = .keyword .importKw ∧
      Imported names name := by
  have hvalue : ∀ rest, Value ["import"] 0 tokens rest ↔
      (Mentions.templateNames ["import"] tokens).2 = rest ∧ rest ≠ [] := fun rest => value_iff .template
  generalize (Mentions.templateNames ["import"] tokens).2 = after at hvalue
  split
  next hsign =>
    obtain ⟨sign, hafter, hkind⟩ := exists_of_startsWith hsign
    rw [← imported_iff]
    constructor
    · intro himported
      exact ⟨sign, after.tail, (hvalue _).mpr ⟨hafter, List.cons_ne_nil _ _⟩, hkind, himported⟩
    · rintro ⟨_, names, hnames, _, himported⟩
      rwa [((hvalue _).mp hnames).1, List.tail_cons]
  next hsign =>
    refine iff_of_false List.not_mem_nil ?_
    rintro ⟨sign, names, hnames, hkind, _⟩
    rw [((hvalue _).mp hnames).1] at hsign
    exact hsign (startsWith_of_kind hkind)

theorem declaredAs_setHead (tokens : List Token) :
    declaredAs (setHead tokens) = (setTargets tokens).1.map (·, .setVariable) := by
  simp only [setHead]
  split <;> rfl

theorem declares_iff {body : List Token} :
    Declares body name kind ↔ (name, kind) ∈ declaredAs (ofBody body) := by
  -- Each form of a header is one branch of the parser, and the first word of the header chooses it.
  constructor
  · intro hdeclares
    cases hdeclares with
    | loopKey hword htargets hkey =>
      rw [ofBody, hword]
      exact mem_loopNames.mpr (.inl ⟨_, htargets, hkey, rfl⟩)
    | loopValue hword htargets hkey hcomma hvalue =>
      rw [ofBody, hword]
      exact mem_loopNames.mpr (.inr ⟨_, _, _, htargets, hkey, hcomma, hvalue, rfl⟩)
    | assigned hword htarget =>
      rw [ofBody, hword]
      simp only [declaredAs_setHead]
      exact mem_labelled.mpr ⟨target_iff.mp htarget, rfl⟩
    | withName hword hvariable =>
      rw [ofBody, hword]
      exact mem_labelled.mpr ⟨variable_iff.mp hvariable, rfl⟩
    | macroName hword hname =>
      rw [ofBody, hword]
      exact List.mem_append_left _ (mem_labelled.mpr ⟨mem_title.mpr ⟨_, rfl, hname⟩, rfl⟩)
    | macroParameter hword hrest hbracket hparameter =>
      rw [ofBody, hword]
      exact List.mem_append_right _
        (mem_labelled.mpr ⟨mem_parameterList.mpr ⟨_, _, hrest, hbracket, hparameter⟩, rfl⟩)
    | callParameter hword hbracket hparameter =>
      rw [ofBody, hword]
      exact mem_labelled.mpr ⟨mem_parameterList.mpr ⟨_, _, rfl, hbracket, hparameter⟩, rfl⟩
    | blockName hword hname =>
      rw [ofBody, hword]
      exact mem_labelled.mpr ⟨mem_title.mpr ⟨_, rfl, hname⟩, rfl⟩
    | importAlias hword hvalue hsign hname =>
      rw [ofBody, hword]
      exact mem_labelled.mpr ⟨mem_alias.mpr ⟨_, _, hvalue, hsign, hname⟩, rfl⟩
    | importName hword hvalue hsign hname =>
      rw [ofBody, hword]
      exact mem_labelled.mpr ⟨mem_imports.mpr ⟨_, _, hvalue, hsign, hname⟩, rfl⟩
  · intro hmem
    cases body with
    | nil => cases hmem
    | cons word rest =>
      rw [ofBody] at hmem
      split at hmem
      case h_1 hword =>
        rcases mem_loopNames.mp hmem with ⟨values, htargets, hkey, rfl⟩ |
          ⟨key, comma, values, htargets, hkey, hcomma, hvalue, rfl⟩
        · exact .loopKey hword htargets hkey
        · exact .loopValue hword htargets hkey hcomma hvalue
      case h_5 hword =>
        rw [declaredAs_setHead] at hmem
        obtain ⟨htarget, rfl⟩ := mem_labelled.mp hmem
        exact .assigned hword (target_iff.mpr htarget)
      case h_6 hword =>
        obtain ⟨hvariable, rfl⟩ := mem_labelled.mp hmem
        exact .withName hword (variable_iff.mpr hvariable)
      case h_7 hword =>
        rcases List.mem_append.mp hmem with hmem | hmem
        · obtain ⟨htitle, rfl⟩ := mem_labelled.mp hmem
          obtain ⟨after, rfl, hname⟩ := mem_title.mp htitle
          exact .macroName hword hname
        · obtain ⟨hlist, rfl⟩ := mem_labelled.mp hmem
          obtain ⟨bracket, inner, hrest, hbracket, hparameter⟩ := mem_parameterList.mp hlist
          exact .macroParameter hword hrest hbracket hparameter
      case h_8 hword =>
        obtain ⟨hlist, rfl⟩ := mem_labelled.mp hmem
        obtain ⟨bracket, inner, rfl, hbracket, hparameter⟩ := mem_parameterList.mp hlist
        exact .callParameter hword hbracket hparameter
      case h_9 hword =>
        obtain ⟨htitle, rfl⟩ := mem_labelled.mp hmem
        obtain ⟨after, rfl, hname⟩ := mem_title.mp htitle
        exact .blockName hword hname
      case h_14 hword =>
        obtain ⟨halias, rfl⟩ := mem_labelled.mp hmem
        obtain ⟨sign, after, hvalue, hsign, hname⟩ := mem_alias.mp halias
        exact .importAlias hword hvalue hsign hname
      case h_15 hword =>
        obtain ⟨hnames, rfl⟩ := mem_labelled.mp hmem
        obtain ⟨sign, names, hvalue, hsign, hname⟩ := mem_imports.mp hnames
        exact .importName hword hvalue hsign hname
      case h_25 => split at hmem <;> cases hmem
      all_goals cases hmem

end Header

end TemplateAnalysis.Template
