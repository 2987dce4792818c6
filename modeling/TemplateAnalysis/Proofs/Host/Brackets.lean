import Mathlib.Data.List.Basic
import TemplateAnalysis.Host.Lexer

namespace TemplateAnalysis.Host

/-- The second token closes the bracket that the first one opens. -/
def Token.Pairs (opening closing : Token) : Prop :=
  (opening.text, closing.text) ∈ [("(", ")"), ("[", "]"), ("\x7b", "\x7d")]

instance (opening closing : Token) : Decidable (opening.Pairs closing) :=
  inferInstanceAs (Decidable (_ ∈ _))

/-- Whether a token is a bracket. -/
def Token.isBracket (token : Token) : Bool :=
  token.opensBracket || token.closesBracket

/-- A word as the programs write it: it begins with a letter or an underscore. -/
def Token.IsName (token : Token) : Prop :=
  token.kind = .word ∧ (token.text.toList.head?.any fun c => Text.isAlphabetic c || c == '_') = true

/-- Tokens whose brackets are closed in the order in which they are opened. Something may be required
    of the tokens outside of all brackets. -/
inductive Balanced : (Token → Prop) → List Token → Prop
  | nil {outside : Token → Prop} : Balanced outside []
  | plain {outside : Token → Prop} {token : Token} {rest : List Token}
      (hplain : token.isBracket = false) (houtside : outside token) (hrest : Balanced outside rest) :
      Balanced outside (token :: rest)
  | group {outside : Token → Prop} {opening closing : Token} {inner rest : List Token}
      (hpairs : opening.Pairs closing) (hinner : Balanced (fun _ => True) inner)
      (hrest : Balanced outside rest) : Balanced outside (opening :: (inner ++ closing :: rest))

namespace Token

variable {opening closing token : Token}

theorem Pairs.opens (hpairs : opening.Pairs closing) : opening.opensBracket = true := by
  simp only [Pairs, List.mem_cons, Prod.mk.injEq, List.not_mem_nil, or_false] at hpairs
  rcases hpairs with ⟨htext, _⟩ | ⟨htext, _⟩ | ⟨htext, _⟩ <;> rw [opensBracket, htext] <;> decide

theorem Pairs.closes (hpairs : opening.Pairs closing) :
    closing.opensBracket = false ∧ closing.closesBracket = true := by
  simp only [Pairs, List.mem_cons, Prod.mk.injEq, List.not_mem_nil, or_false] at hpairs
  rcases hpairs with ⟨_, htext⟩ | ⟨_, htext⟩ | ⟨_, htext⟩ <;>
    rw [opensBracket, closesBracket, htext] <;> decide

theorem isPunctuation_iff {mark : String} :
    token.isPunctuation mark = true ↔ token.kind = .punctuation ∧ token.text = mark := by
  rw [isPunctuation, isMark, Bool.and_eq_true, beq_iff_eq, beq_iff_eq]

theorem isBracket_eq_false_iff :
    token.isBracket = false ↔ token.opensBracket = false ∧ token.closesBracket = false :=
  Bool.or_eq_false_iff

/-- A mark that begins with neither a letter nor an underscore is not a word. -/
theorem IsName.text_ne {mark : String} (hname : token.IsName)
    (hmark : (mark.toList.head?.any fun c => Text.isAlphabetic c || c == '_') = false) :
    token.text ≠ mark := by
  rintro rfl
  exact Bool.noConfusion (hmark.symm.trans hname.2)

theorem IsName.isBracket_eq_false (hname : token.IsName) : token.isBracket = false := by
  have hother : ∀ mark ∈ ["(", "[", "\x7b", ")", "]", "\x7d"], token.text ≠ mark := fun mark hmark =>
    hname.text_ne ((by decide +kernel : ∀ mark ∈ ["(", "[", "\x7b", ")", "]", "\x7d"],
      (mark.toList.head?.any fun c => Text.isAlphabetic c || c == '_') = false) mark hmark)
  simp only [List.forall_mem_cons] at hother
  simp [isBracket, opensBracket, closesBracket, hother]

end Token

namespace Balanced

variable {outside outside' : Token → Prop} {tokens inner inner' rest rest' : List Token}
  {opening closing closing' : Token}

theorem append (hinner : Balanced outside inner) (hrest : Balanced outside rest) :
    Balanced outside (inner ++ rest) := by
  induction hinner with
  | nil => exact hrest
  | plain hplain houtside _ ih => exact .plain hplain houtside (ih hrest)
  | group hpairs hwithin _ _ ih =>
    rw [List.cons_append, List.append_assoc, List.cons_append]
    exact .group hpairs hwithin (ih hrest)

/-- A bracket of balanced tokens is closed by one of them, with balanced tokens between the two. -/
theorem exists_closing (hbalanced : Balanced outside tokens) (front : List Token)
    (hsplit : tokens = front ++ opening :: rest) (hopens : opening.opensBracket = true) :
    ∃ inner closing after, rest = inner ++ closing :: after ∧ opening.Pairs closing ∧
      Balanced (fun _ => True) inner := by
  induction hbalanced generalizing front rest with
  | nil => simp at hsplit
  | @plain outside token later hplain _ _ ih =>
    cases front with
    | nil =>
      obtain ⟨rfl, rfl⟩ := List.cons.inj hsplit
      rw [(Token.isBracket_eq_false_iff.mp hplain).1] at hopens
      cases hopens
    | cons first front => exact ih front (List.cons.inj hsplit).2
  | @group outside first last inner later hpairs hinner _ ihInner ih =>
    cases front with
    | nil =>
      obtain ⟨rfl, rfl⟩ := List.cons.inj hsplit
      exact ⟨inner, last, later, rfl, hpairs, hinner⟩
    | cons first' front =>
      -- The bracket stands behind the group or inside it, and it is not the one that closes the
      -- group.
      rcases List.append_eq_append_iff.mp (List.cons.inj hsplit).2 with
        ⟨middle, rfl, hmiddle⟩ | ⟨middle, rfl, hmiddle⟩
      · cases middle with
        | nil =>
          obtain ⟨rfl, rfl⟩ := List.cons.inj hmiddle
          rw [hpairs.closes.1] at hopens
          cases hopens
        | cons last' middle => exact ih middle (List.cons.inj hmiddle).2
      · cases middle with
        | nil =>
          obtain ⟨rfl, rfl⟩ := List.cons.inj hmiddle
          rw [hpairs.closes.1] at hopens
          cases hopens
        | cons opening' middle =>
          obtain ⟨rfl, rfl⟩ := List.cons.inj hmiddle
          obtain ⟨within, closing, after, rfl, hfound⟩ := ihInner front rfl
          exact ⟨within, closing, after ++ last :: later, by simp, hfound⟩

/-- A bracket is closed in one place. -/
theorem closing_unique (hinner : Balanced outside inner) (hinner' : Balanced outside' inner')
    (hcloses : closing.opensBracket = false ∧ closing.closesBracket = true)
    (hcloses' : closing'.opensBracket = false ∧ closing'.closesBracket = true)
    (hsame : inner ++ closing :: rest = inner' ++ closing' :: rest') :
    inner = inner' ∧ closing = closing' ∧ rest = rest' := by
  have hplain : ∀ {token : Token}, token.isBracket = false → token.closesBracket = false :=
    fun hplain => (Token.isBracket_eq_false_iff.mp hplain).2
  -- By induction on the first list: at each token both lists must go on in the same way, as the
  -- token opens, closes or does neither.
  induction hinner generalizing outside' inner' closing closing' rest rest' with
  | nil =>
    cases hinner' with
    | nil => exact ⟨rfl, List.cons.inj hsame⟩
    | plain htoken =>
      have hother := hplain htoken
      rw [← (List.cons.inj hsame).1, hcloses.2] at hother
      cases hother
    | group hpairs =>
      have hopens := hpairs.opens
      rw [← (List.cons.inj hsame).1, hcloses.1] at hopens
      cases hopens
  | plain htoken _ _ ih =>
    cases hinner' with
    | nil =>
      have hother := hplain htoken
      rw [(List.cons.inj hsame).1, hcloses'.2] at hother
      cases hother
    | plain _ _ hrest' =>
      obtain ⟨rfl, hlater⟩ := List.cons.inj hsame
      obtain ⟨rfl, hend⟩ := ih hrest' hcloses hcloses' hlater
      exact ⟨rfl, hend⟩
    | group hpairs =>
      have hother := (Token.isBracket_eq_false_iff.mp htoken).1
      rw [(List.cons.inj hsame).1, hpairs.opens] at hother
      cases hother
  | group hpairs _ _ ihInner ih =>
    cases hinner' with
    | nil =>
      have hopens := hpairs.opens
      rw [(List.cons.inj hsame).1, hcloses'.1] at hopens
      cases hopens
    | plain htoken =>
      have hother := (Token.isBracket_eq_false_iff.mp htoken).1
      rw [← (List.cons.inj hsame).1, hpairs.opens] at hother
      cases hother
    | group hpairs' hwithin' hrest' =>
      simp only [List.cons_append, List.append_assoc] at hsame
      obtain ⟨rfl, hlater⟩ := List.cons.inj hsame
      obtain ⟨rfl, rfl, hbehind⟩ := ihInner hwithin' hpairs.closes hpairs'.closes hlater
      obtain ⟨rfl, hend⟩ := ih hrest' hcloses hcloses' hbehind
      exact ⟨rfl, hend⟩

end Balanced

/-- Whether the tokens close their brackets and the open ones before them, the innermost one first. -/
def closesAll : List Token → List Token → Bool
  | opened, [] => opened.isEmpty
  | opened, token :: rest =>
    if token.opensBracket then closesAll (token :: opened) rest
    else if token.closesBracket then
      opened.head?.any (fun opening => decide (opening.Pairs token)) && closesAll opened.tail rest
    else closesAll opened rest

theorem Balanced.closesAll_append {outside : Token → Prop} {inner : List Token}
    (hbalanced : Balanced outside inner) (opened later : List Token) :
    closesAll opened (inner ++ later) = closesAll opened later := by
  induction hbalanced generalizing opened later with
  | nil => rfl
  | plain hplain _ _ ih =>
    obtain ⟨hopens, hcloses⟩ := Token.isBracket_eq_false_iff.mp hplain
    rw [List.cons_append, closesAll, if_neg (by simp [hopens]), if_neg (by simp [hcloses]), ih]
  | group hpairs _ _ ihInner ih =>
    rw [List.cons_append, List.append_assoc, List.cons_append, closesAll, if_pos hpairs.opens, ihInner,
      closesAll, if_neg (by simp [hpairs.closes]), if_pos hpairs.closes.2, ih]
    simp [hpairs]

/-- The tokens are balanced up to the one that closes the innermost bracket. -/
theorem exists_balanced_of_closesAll {opened tokens : List Token} (hcloses : closesAll opened tokens = true) :
    ∃ inner later, tokens = inner ++ later ∧ Balanced (fun _ => True) inner ∧
      (opened = [] ∧ later = [] ∨ ∃ opening outer closing rest, opened = opening :: outer ∧
        later = closing :: rest ∧ opening.Pairs closing ∧ closesAll outer rest = true) := by
  induction hlength : tokens.length using Nat.strongRecOn generalizing opened tokens with
  | _ length ih =>
    subst hlength
    cases tokens with
    | nil =>
      rw [closesAll, List.isEmpty_iff] at hcloses
      exact ⟨[], [], rfl, .nil, .inl ⟨hcloses, rfl⟩⟩
    | cons token rest =>
      rw [closesAll] at hcloses
      split_ifs at hcloses with hopens hbracket
      · obtain ⟨inner, _, rfl, hinner, ⟨hnil, -⟩ | ⟨_, _, closing, later, hopened, rfl, hpairs, hrest⟩⟩ :=
          ih rest.length (Nat.lt_succ_self _) hcloses rfl
        · cases hnil
        -- What opens here closes first, and the rest is balanced up to the bracket that was open
        -- before.
        obtain ⟨rfl, rfl⟩ := List.cons.inj hopened
        have hshort : later.length < (token :: (inner ++ closing :: later)).length := by
          simp only [List.length_cons, List.length_append]
          omega
        obtain ⟨inner', later, rfl, hinner', hlater⟩ := ih later.length hshort hrest rfl
        exact ⟨token :: (inner ++ closing :: inner'), later, by simp, .group hpairs hinner hinner', hlater⟩
      · cases opened with
        | nil => cases hcloses
        | cons opening outer =>
          obtain ⟨hpairs, hrest⟩ := Bool.and_eq_true_iff.mp hcloses
          exact ⟨[], token :: rest, rfl, .nil, .inr
            ⟨opening, outer, token, rest, rfl, rfl, decide_eq_true_iff.mp hpairs, hrest⟩⟩
      · obtain ⟨inner, later, rfl, hinner, hlater⟩ := ih rest.length (Nat.lt_succ_self _) hcloses rfl
        have hplain : token.isBracket = false :=
          Token.isBracket_eq_false_iff.mpr ⟨by simpa using hopens, by simpa using hbracket⟩
        exact ⟨token :: inner, later, rfl, .plain hplain trivial hinner, hlater⟩

theorem closesAll_iff {tokens : List Token} :
    closesAll [] tokens = true ↔ Balanced (fun _ => True) tokens := by
  constructor
  · intro hcloses
    obtain ⟨inner, later, rfl, hinner, ⟨-, rfl⟩ | ⟨_, _, _, _, hopened, _⟩⟩ :=
      exists_balanced_of_closesAll hcloses
    · rwa [List.append_nil]
    · cases hopened
  · intro hbalanced
    rw [← List.append_nil tokens, hbalanced.closesAll_append]
    rfl

instance (tokens : List Token) : Decidable (Balanced (fun _ => True) tokens) :=
  decidable_of_iff _ closesAll_iff

end TemplateAnalysis.Host
