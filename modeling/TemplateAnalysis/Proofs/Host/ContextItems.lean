import TemplateAnalysis.Host.ContextKeys
import TemplateAnalysis.Proofs.Host.Brackets

namespace TemplateAnalysis.Host.ContextKeys

/-- The value of an item of a context: tokens with balanced brackets, and no comma outside of them. -/
def IsValue (tokens : List Token) : Prop :=
  tokens ≠ [] ∧ Balanced (·.text ≠ ",") tokens

/-- An item of a context, with the name under which the template finds its value. An item that
    takes over the values of another context has no name. -/
inductive Item : Option Token → List Token → Prop
  | shorthand {key : Token} (hkey : key.IsName) : Item (some key) [key]
  | named {key arrow : Token} {value : List Token} (hkey : key.IsName)
      (harrow : arrow.isPunctuation "=>" = true) (hvalue : IsValue value) :
      Item (some key) (key :: arrow :: value)
  | spread {first second : Token} {value : List Token} (hfirst : first.isPunctuation "." = true)
      (hsecond : second.isPunctuation "." = true) (hvalue : IsValue value) :
      Item none (first :: second :: value)

/-- The items of a context with commas between them, and perhaps one behind the last item. The names
    of the items come first. -/
inductive Items : List Token → List Token → Prop
  | nil : Items [] []
  | last {key? : Option Token} {item : List Token} (hitem : Item key? item) : Items key?.toList item
  | cons {key? : Option Token} {item keys items : List Token} {comma : Token} (hitem : Item key? item)
      (hcomma : comma.isPunctuation "," = true) (hitems : Items keys items) :
      Items (key?.toList ++ keys) (item ++ comma :: items)

variable {token : Token} {depth : Nat}

/-- The brackets and the comma, by which a context is divided. -/
def marks : List String :=
  ["(", "[", "\x7b", ")", "]", "\x7d", ","]

theorem plain_of_not_mem (htext : token.text ∉ marks) : token.isBracket = false ∧ token.text ≠ "," := by
  simp only [marks, List.mem_cons, List.not_mem_nil, or_false, not_or] at htext
  simp [Token.isBracket, Token.opensBracket, Token.closesBracket, htext]

/-- Neither a bracket nor a comma is a name. -/
theorem plain_of_isName (hname : token.IsName) : token.isBracket = false ∧ token.text ≠ "," :=
  ⟨hname.isBracket_eq_false, hname.text_ne (by decide +kernel)⟩

section Keys

variable (rest later : List Token)

theorem keys_opens (hopens : token.opensBracket = true) (atItemStart : Bool) :
    keys depth atItemStart (token :: rest) = keys (depth + 1) false rest := by
  rw [keys, if_pos hopens]

theorem keys_closes (hopens : token.opensBracket = false) (hcloses : token.closesBracket = true)
    (atItemStart : Bool) : keys depth atItemStart (token :: rest) =
      if depth = 0 then [] else keys (depth - 1) atItemStart rest := by
  rw [keys, if_neg (by simp [hopens]), if_pos hcloses]

theorem keys_comma (hcomma : token.isPunctuation "," = true) (atItemStart : Bool) :
    keys 0 atItemStart (token :: rest) = keys 0 true rest := by
  have htext := (Token.isPunctuation_iff.mp hcomma).2
  rw [keys, if_neg (by rw [Token.opensBracket, htext]; decide),
    if_neg (by rw [Token.closesBracket, htext]; decide), if_pos ⟨htext, rfl⟩]

/-- A token that is neither a bracket nor a comma between items ends the beginning of an item. -/
theorem keys_plain (hplain : token.isBracket = false) (hcomma : token.text = "," → 0 < depth)
    (atItemStart : Bool) : keys depth atItemStart (token :: rest) =
      (if atItemStart ∧ depth = 0 ∧ token.kind = .word then [token.identifier .hostVariable] else []) ++
        keys depth false rest := by
  obtain ⟨hopens, hcloses⟩ := Token.isBracket_eq_false_iff.mp hplain
  rw [keys, if_neg (by simp [hopens]), if_neg (by simp [hcloses]),
    if_neg fun hboth => absurd (hcomma hboth.1) (by omega)]
  split_ifs <;> rfl

/-- Balanced tokens are passed over, if those of their commas that stand outside of their brackets
    stand in a bracket all the same. -/
theorem keys_balanced {outside : Token → Prop} {tokens : List Token} (hbalanced : Balanced outside tokens)
    (hcommas : ∀ token, outside token → token.text = "," → 0 < depth) :
    keys depth false (tokens ++ later) = keys depth false later := by
  induction hbalanced generalizing depth later with
  | nil => rfl
  | plain hplain houtside _ ih =>
    rw [List.cons_append, keys_plain _ hplain (hcommas _ houtside), ih later hcommas]
    rfl
  | @group outside opening closing inner rest hpairs _ _ ihInner ih =>
    rw [List.cons_append, List.append_assoc, List.cons_append, keys_opens _ hpairs.opens,
      ihInner (closing :: (rest ++ later)) fun _ _ _ => Nat.succ_pos depth,
      keys_closes _ hpairs.closes.1 hpairs.closes.2, if_neg (Nat.succ_ne_zero depth),
      Nat.succ_sub_one, ih later hcommas]

theorem keys_value {value : List Token} (hvalue : IsValue value) :
    keys 0 false (value ++ later) = keys 0 false later :=
  keys_balanced later hvalue.2 fun _ hother hcomma => absurd hcomma hother

theorem keys_name {key : Token} (hkey : key.IsName) :
    keys 0 true (key :: rest) = key.identifier .hostVariable :: keys 0 false rest := by
  obtain ⟨hplain, hcomma⟩ := plain_of_isName hkey
  rw [keys_plain _ hplain fun htext => absurd htext hcomma, if_pos ⟨rfl, rfl, hkey.1⟩]
  rfl

theorem keys_mark {mark : String} (hmark : token.isPunctuation mark = true) (hknown : mark ∈ ["=>", "."])
    (atItemStart : Bool) : keys 0 atItemStart (token :: rest) = keys 0 false rest := by
  obtain ⟨hkind, htext⟩ := Token.isPunctuation_iff.mp hmark
  have hother : ∀ mark ∈ ["=>", "."], mark ∉ marks := by decide
  have hplain := plain_of_not_mem (htext ▸ hother mark hknown)
  rw [keys_plain _ hplain.1 fun hcomma => absurd hcomma hplain.2, if_neg (by simp [hkind])]
  rfl

/-- An item has its name for a key and no other one. -/
theorem keys_item {key? : Option Token} {item : List Token} (hitem : Item key? item) :
    keys 0 true (item ++ later) = key?.toList.map (·.identifier .hostVariable) ++ keys 0 false later := by
  cases hitem with
  | shorthand hkey => exact keys_name later hkey
  | named hkey harrow hvalue =>
    rw [List.cons_append, List.cons_append, keys_name _ hkey, keys_mark _ harrow (by decide),
      keys_value later hvalue]
    rfl
  | spread hfirst hsecond hvalue =>
    rw [List.cons_append, List.cons_append, keys_mark _ hfirst (by decide),
      keys_mark _ hsecond (by decide), keys_value later hvalue]
    rfl

/-- The items of a context have their names for keys. What follows the bracket that closes them has none. -/
theorem keys_items {names items : List Token} {closing : Token} (hitems : Items names items)
    (hopens : closing.opensBracket = false) (hcloses : closing.closesBracket = true) :
    keys 0 true (items ++ closing :: later) = names.map (·.identifier .hostVariable) := by
  induction hitems with
  | nil =>
    rw [List.nil_append, keys_closes later hopens hcloses, if_pos rfl]
    rfl
  | last hitem =>
    rw [keys_item _ hitem, keys_closes later hopens hcloses, if_pos rfl, List.append_nil]
  | cons hitem hcomma _ ih =>
    rw [List.append_assoc, List.cons_append, keys_item _ hitem, keys_comma _ hcomma, ih, List.map_append]

end Keys

/-- The keys of a context are exact: whatever the values of its items are, the names of the items are found
    in their order and at their own ranges, and nothing else is found, neither within the values nor
    behind the context. -/
theorem contextKeys_items (before : Option Token) {word sign opening closing : Token}
    {names items : List Token} (hword : word.text = "context") (hsign : sign.isPunctuation "!" = true)
    (hpairs : opening.Pairs closing) (hitems : Items names items) (after : List Token) :
    let keys : List Identifier := names.map fun name =>
      { range := name.start.rangeOf name.text.toList, name := name.text, kind := .hostVariable }
    contextKeys (opening :: (items ++ closing :: after)) = keys ∧
      ofWord before word (sign :: opening :: (items ++ closing :: after)) = keys := by
  intro keys
  have hkeys : contextKeys (opening :: (items ++ closing :: after)) = keys := by
    rw [contextKeys, if_pos hpairs.opens, keys_items after hitems hpairs.closes.1 hpairs.closes.2]
    rfl
  refine ⟨hkeys, ?_⟩
  rw [ofWord, if_pos ⟨hword, hsign⟩]
  exact hkeys

/-- A name alone, a name with a value that has a comma and another name within brackets, and the values of
    another context, with a comma behind the last item and more of the program behind the context. -/
theorem contextKeys_items_nested :
    let word : Token := ⟨.word, ⟨0, ⟨0, 0⟩⟩, "context"⟩
    let sign : Token := ⟨.punctuation, ⟨7, ⟨0, 7⟩⟩, "!"⟩
    let opening : Token := ⟨.punctuation, ⟨8, ⟨0, 8⟩⟩, "\x7b"⟩
    let user : Token := ⟨.word, ⟨9, ⟨0, 9⟩⟩, "user"⟩
    let rows : Token := ⟨.word, ⟨14, ⟨0, 14⟩⟩, "rows"⟩
    let call : List Token := [⟨.word, ⟨20, ⟨0, 20⟩⟩, "f"⟩, ⟨.punctuation, ⟨21, ⟨0, 21⟩⟩, "("⟩,
      ⟨.number, ⟨22, ⟨0, 22⟩⟩, "1"⟩, ⟨.punctuation, ⟨23, ⟨0, 23⟩⟩, ","⟩,
      ⟨.word, ⟨24, ⟨0, 24⟩⟩, "inner"⟩, ⟨.punctuation, ⟨29, ⟨0, 29⟩⟩, ")"⟩]
    let items : List Token := user :: ⟨.punctuation, ⟨13, ⟨0, 13⟩⟩, ","⟩ ::
      (rows :: ⟨.punctuation, ⟨18, ⟨0, 18⟩⟩, "=>"⟩ :: call ++ ⟨.punctuation, ⟨30, ⟨0, 30⟩⟩, ","⟩ ::
        [⟨.punctuation, ⟨31, ⟨0, 31⟩⟩, "."⟩, ⟨.punctuation, ⟨32, ⟨0, 32⟩⟩, "."⟩,
          ⟨.word, ⟨33, ⟨0, 33⟩⟩, "base"⟩, ⟨.punctuation, ⟨37, ⟨0, 37⟩⟩, ","⟩])
    let closing : Token := ⟨.punctuation, ⟨38, ⟨0, 38⟩⟩, "\x7d"⟩
    let after : List Token := [⟨.punctuation, ⟨39, ⟨0, 39⟩⟩, ";"⟩, ⟨.word, ⟨40, ⟨0, 40⟩⟩, "later"⟩]
    tokenize .rust "context!\x7buser,rows=>f(1,inner),..base,\x7d;later".toList =
        word :: sign :: opening :: (items ++ closing :: after) ∧
      sign.isPunctuation "!" = true ∧ opening.Pairs closing ∧ Items [user, rows] items ∧
      ofWord none word (sign :: opening :: (items ++ closing :: after)) =
        [{ range := ⟨⟨0, 9⟩, ⟨0, 13⟩⟩, name := "user", kind := .hostVariable },
          { range := ⟨⟨0, 14⟩, ⟨0, 18⟩⟩, name := "rows", kind := .hostVariable }] := by
  intro word sign opening user rows call items closing after
  have huser : user.IsName := ⟨rfl, by decide +kernel⟩
  have hrows : rows.IsName := ⟨rfl, by decide +kernel⟩
  have harguments : Balanced (fun _ => True) ((call.drop 2).take 3) :=
    .plain rfl trivial (.plain rfl trivial (.plain rfl trivial .nil))
  have hcall : IsValue call :=
    ⟨List.cons_ne_nil _ _, .plain rfl (by decide) (.group (by decide) harguments .nil)⟩
  have hitems : Items [user, rows] items :=
    .cons (.shorthand huser) rfl (.cons (.named hrows rfl hcall) rfl
      (.cons (.spread rfl rfl ⟨List.cons_ne_nil _ _, .plain rfl (by decide) .nil⟩) rfl .nil))
  have hpairs : opening.Pairs closing := by decide
  have hword : word.text = "context" := rfl
  have hsign : sign.isPunctuation "!" = true := rfl
  have hkeys := (contextKeys_items none hword hsign hpairs hitems after).2
  exact ⟨by decide +kernel, hsign, hpairs, hitems, hkeys.trans (by decide +kernel)⟩

end TemplateAnalysis.Host.ContextKeys
