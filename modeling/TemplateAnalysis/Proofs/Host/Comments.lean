import Mathlib.Data.List.Infix
import Mathlib.Data.List.TakeWhile
import TemplateAnalysis.Host.Lexer
import TemplateAnalysis.Proofs.Text

namespace TemplateAnalysis.Host

/-- A text begins with a mark that opens or closes a comment. -/
def BeginsMark (text : List Char) : Prop :=
  ['/', '*'] <+: text ∨ ['*', '/'] <+: text

/-- A text that opens and closes comments, with the number of comments that are open before it and
    after it. Nothing is read once no comment is open, and none is closed that was not opened. -/
inductive Nests : Nat → Nat → List Char → Prop
  | nothing {depth : Nat} : Nests depth depth []
  | opens {depth after : Nat} {rest : List Char} (hrest : Nests (depth + 2) after rest) :
      Nests (depth + 1) after ('/' :: '*' :: rest)
  | closes {depth after : Nat} {rest : List Char} (hrest : Nests depth after rest) :
      Nests (depth + 1) after ('*' :: '/' :: rest)
  | other {depth after : Nat} {c : Char} {rest : List Char} (hplain : ¬ BeginsMark (c :: rest))
      (hrest : Nests (depth + 1) after rest) : Nests (depth + 1) after (c :: rest)

/-- A comment of a program, before the rest of it. It runs to the end of its line, or until every
    comment within it is closed. An unfinished one runs to the end of the program. -/
inductive IsComment (rest : List Char) : HostLanguage → List Char → Prop
  | slashes {line : List Char} (hline : '\n' ∉ line) (hend : ∀ c ∈ rest.head?, c = '\n') :
      IsComment rest .rust ('/' :: '/' :: line)
  | nested {depth : Nat} {text : List Char} (hnests : Nests 1 depth text)
      (hend : depth = 0 ∨ rest = []) : IsComment rest .rust ('/' :: '*' :: text)
  | hash {line : List Char} (hline : '\n' ∉ line) (hend : ∀ c ∈ rest.head?, c = '\n') :
      IsComment rest .python ('#' :: line)

namespace Lexer

/-- The length of a comment, unless a mark in it closes a comment while none is open. -/
def checkedLength? : Nat → List Char → Option Nat
  | _, [] => some 0
  | depth, '/' :: '*' :: rest => (checkedLength? (depth + 1) rest).map (2 + ·)
  | 0, '*' :: '/' :: _ => none
  | depth + 1, '*' :: '/' :: rest =>
    if depth = 0 then some 2 else (checkedLength? depth rest).map (2 + ·)
  | depth, _ :: rest => (checkedLength? depth rest).map (1 + ·)

theorem nestedCommentLength_other {c : Char} {rest : List Char} (depth : Nat)
    (hplain : ¬ BeginsMark (c :: rest)) :
    nestedCommentLength depth (c :: rest) = 1 + nestedCommentLength depth rest := by
  rw [nestedCommentLength]
  · rintro tail rfl rfl
    exact hplain (.inl ⟨tail, rfl⟩)
  · rintro tail rfl rfl
    exact hplain (.inr ⟨tail, rfl⟩)

theorem checkedLength?_other {c : Char} {rest : List Char} (depth : Nat)
    (hplain : ¬ BeginsMark (c :: rest)) :
    checkedLength? depth (c :: rest) = (checkedLength? depth rest).map (1 + ·) := by
  rw [checkedLength?]
  · rintro tail rfl rfl
    exact hplain (.inl ⟨tail, rfl⟩)
  · rintro tail _ rfl rfl
    exact hplain (.inr ⟨tail, rfl⟩)
  · rintro _ tail _ rfl rfl
    exact hplain (.inr ⟨tail, rfl⟩)

/-- A text is read by the marks in it: the next one opens a comment or closes one, or a character stands
    before it that belongs to none. -/
theorem marks_induction {motive : List Char → Prop} (nil : motive [])
    (opens : ∀ rest, motive rest → motive ('/' :: '*' :: rest))
    (closes : ∀ rest, motive rest → motive ('*' :: '/' :: rest))
    (other : ∀ c rest, ¬ BeginsMark (c :: rest) → motive rest → motive (c :: rest))
    (text : List Char) : motive text := by
  induction hlength : text.length using Nat.strong_induction_on generalizing text with
  | _ length ih =>
    subst hlength
    cases text with
    | nil => exact nil
    | cons c rest =>
      by_cases hmark : BeginsMark (c :: rest)
      · rcases hmark with ⟨tail, htail⟩ | ⟨tail, htail⟩ <;> rw [← htail] at ih ⊢
        · exact opens tail (ih _ (by simp only [List.length_append, List.length_cons]; omega) tail rfl)
        · exact closes tail (ih _ (by simp only [List.length_append, List.length_cons]; omega) tail rfl)
      · exact other c rest hmark (ih _ (by simp) rest rfl)

/-- Within a comment no mark closes more than there is open. -/
theorem checkedLength?_eq (depth : Nat) (text : List Char) :
    checkedLength? (depth + 1) text = some (nestedCommentLength (depth + 1) text) := by
  induction text using marks_induction generalizing depth with
  | nil => rw [checkedLength?, nestedCommentLength]
  | opens rest ih => rw [checkedLength?, nestedCommentLength, ih, Option.map_some]
  | closes rest ih =>
    rw [checkedLength?, nestedCommentLength]
    cases depth with
    | zero => rfl
    | succ depth =>
      rw [if_neg (Nat.succ_ne_zero _), if_neg (by omega), ih, Option.map_some]
      rfl
  | other c rest hplain ih =>
    rw [checkedLength?_other _ hplain, nestedCommentLength_other _ hplain, ih, Option.map_some]

/-- What is read of a text within a comment closes all that is open, or it is the whole text. -/
theorem exists_nests (depth : Nat) (text : List Char) : ∃ after,
    Nests (depth + 1) after (text.take (nestedCommentLength (depth + 1) text)) ∧
      (after = 0 ∨ text.drop (nestedCommentLength (depth + 1) text) = []) := by
  induction text using marks_induction generalizing depth with
  | nil => exact ⟨depth + 1, .nothing, .inr rfl⟩
  | opens rest ih =>
    obtain ⟨after, hnests, hend⟩ := ih (depth + 1)
    rw [nestedCommentLength, Nat.add_comm 2]
    exact ⟨after, .opens hnests, hend⟩
  | closes rest ih =>
    rw [nestedCommentLength]
    cases depth with
    | zero => exact ⟨0, .closes .nothing, .inl rfl⟩
    | succ depth =>
      obtain ⟨after, hnests, hend⟩ := ih depth
      rw [if_neg (by omega), Nat.add_comm 2]
      exact ⟨after, .closes hnests, hend⟩
  | other c rest hplain ih =>
    obtain ⟨after, hnests, hend⟩ := ih depth
    rw [nestedCommentLength_other _ hplain, Nat.add_comm 1]
    have hpart : c :: rest.take (nestedCommentLength (depth + 1) rest) <+: c :: rest :=
      (List.prefix_cons_inj c).mpr (List.take_prefix _ _)
    exact ⟨after, .other (fun hmark => hplain (hmark.imp (·.trans hpart) (·.trans hpart))) hnests, hend⟩

theorem nestedCommentLength_le (depth : Nat) (text : List Char) :
    nestedCommentLength depth text ≤ text.length := by
  induction text using marks_induction generalizing depth with
  | nil => rw [nestedCommentLength]; rfl
  | opens rest ih =>
    have hrest := ih (depth + 1)
    rw [nestedCommentLength]
    simp only [List.length_cons]
    omega
  | closes rest ih =>
    have hrest := ih (depth - 1)
    rw [nestedCommentLength]
    simp only [List.length_cons]
    split <;> omega
  | other c rest hplain ih =>
    have hrest := ih depth
    rw [nestedCommentLength_other _ hplain]
    simp only [List.length_cons]
    omega

/-- A text that closes all that is open is read to its end whatever follows, and any other text if
    nothing follows. -/
theorem nestedCommentLength_append {depth after : Nat} {text later : List Char}
    (hnests : Nests (depth + 1) after text) (hend : after = 0 ∨ later = []) :
    nestedCommentLength (depth + 1) (text ++ later) = text.length := by
  generalize hbefore : depth + 1 = before at hnests
  induction hnests generalizing depth with
  | nothing =>
    rw [hend.resolve_left (by omega)]
    exact nestedCommentLength.eq_1 _
  | opens hrest ih =>
    rw [List.cons_append, List.cons_append, nestedCommentLength, ih hend rfl]
    simp only [List.length_cons]
    omega
  | @closes inner after rest hrest ih =>
    rw [List.cons_append, List.cons_append, nestedCommentLength]
    cases inner with
    | zero =>
      cases hrest
      rfl
    | succ inner =>
      rw [if_neg (by omega), Nat.add_sub_cancel, ih hend rfl]
      simp only [List.length_cons]
      omega
  | @other inner after c rest hplain hrest ih =>
    have hother : ¬ BeginsMark (c :: rest ++ later) := by
      rcases rest.eq_nil_or_concat with rfl | ⟨front, last, rfl⟩
      · cases hrest
        rwa [hend.resolve_left (Nat.succ_ne_zero _), List.append_nil]
      · have hlong : 2 ≤ (c :: front.concat last).length := by simp
        rw [BeginsMark, Text.begins_append_iff (by exact hlong), Text.begins_append_iff (by exact hlong)]
        exact hplain
    rw [List.cons_append] at hother ⊢
    rw [nestedCommentLength_other _ hother, ih hend rfl]
    exact Nat.add_comm _ _

/-- The rest of a line is read up to the line feed that ends it. -/
theorem restOfLine_ends (text : List Char) : '\n' ∉ text.take (restOfLine text) ∧
    ∀ c ∈ (text.drop (restOfLine text)).head?, c = '\n' := by
  rw [restOfLine, ← List.prefix_iff_eq_take.mp (List.takeWhile_prefix _), Text.drop_takeWhile]
  refine ⟨fun hmem => ?_, fun c hc => ?_⟩
  · have hother := List.all_eq_true.mp List.all_takeWhile '\n' hmem
    cases hother
  · have hstop := List.head?_dropWhile_not (fun c : Char => decide (c ≠ '\n')) text
    rw [Option.mem_def.mp hc] at hstop
    simpa using hstop

theorem restOfLine_le (text : List Char) : restOfLine text ≤ text.length :=
  (List.takeWhile_prefix _).length_le

/-- What the lexer takes for a comment is one. -/
theorem comment?_sound {language : HostLanguage} {text : List Char} {length : Nat}
    (hfound : comment? language text = some length) :
    0 < length ∧ length ≤ text.length ∧ IsComment (text.drop length) language (text.take length) := by
  unfold comment? at hfound
  split at hfound
  next rest =>
    obtain rfl := Option.some.inj hfound
    obtain ⟨hline, hend⟩ := restOfLine_ends rest
    have hle := restOfLine_le rest
    rw [Nat.add_comm 2]
    exact ⟨Nat.succ_pos _, Nat.succ_le_succ (Nat.succ_le_succ hle), .slashes hline hend⟩
  next rest =>
    obtain rfl := Option.some.inj hfound
    obtain ⟨after, hnests, hend⟩ := exists_nests 0 rest
    have hle := nestedCommentLength_le 1 rest
    rw [nestedCommentLength, Nat.zero_add, Nat.add_comm 2]
    exact ⟨Nat.succ_pos _, Nat.succ_le_succ (Nat.succ_le_succ hle), .nested hnests hend⟩
  next rest =>
    obtain rfl := Option.some.inj hfound
    obtain ⟨hline, hend⟩ := restOfLine_ends rest
    have hle := restOfLine_le rest
    rw [Nat.add_comm 1]
    exact ⟨Nat.succ_pos _, Nat.succ_le_succ hle, .hash hline hend⟩
  next => cases hfound

theorem restOfLine_append {line later : List Char} (hline : '\n' ∉ line)
    (hend : ∀ c ∈ later.head?, c = '\n') : restOfLine (line ++ later) = line.length := by
  have hplain : ∀ c ∈ line, decide (c ≠ '\n') = true := fun c hc =>
    decide_eq_true fun hsame : c = '\n' => hline (hsame ▸ hc)
  rw [restOfLine, List.takeWhile_append_of_pos hplain]
  cases later with
  | nil => simp
  | cons c later =>
    obtain rfl := hend c rfl
    simp

/-- A comment is read as one, to its end. -/
theorem comment?_append {language : HostLanguage} {comment later : List Char}
    (hcomment : IsComment later language comment) :
    comment? language (comment ++ later) = some comment.length := by
  cases hcomment with
  | slashes hline hend =>
    rw [List.cons_append, List.cons_append, comment?, restOfLine_append hline hend]
    exact congrArg some (Nat.add_comm 2 _)
  | nested hnests hend =>
    rw [List.cons_append, List.cons_append, comment?, nestedCommentLength,
      nestedCommentLength_append hnests hend]
    exact congrArg some (Nat.add_comm 2 _)
  | hash hline hend =>
    rw [List.cons_append, comment?, restOfLine_append hline hend]
    exact congrArg some (Nat.add_comm 1 _)

end Lexer

end TemplateAnalysis.Host
