import TemplateAnalysis.Proofs.Template.BlockTree
import TemplateAnalysis.Proofs.Template.Moved

namespace TemplateAnalysis.Template

namespace Statement

/-- The block that a statement opens. -/
def opens? : Statement → Option BlockKind
  | .beginIf _ => some .ifBranch
  | .beginFor .. => some .forLoop
  | .beginSet .. => some .setBlock
  | .beginWith .. => some .withBlock
  | .beginMacro .. => some .macroBody
  | .beginCall .. => some .call
  | .beginBlock .. => some .block
  | .beginFilter _ => some .filter
  | _ => none

/-- Whether a statement neither opens nor divides nor ends anything. -/
def isPlain : Statement → Bool
  | .other | .evaluate _ | .assign .. | .importTemplate .. | .importNames .. => true
  | _ => false

section Targets

theorem startsWith_cons (kind : TokenKind) (token : Token) (rest : List Token) :
    startsWith kind (token :: rest) = (token.kind == kind) := rfl

/-- Behind one target, reading goes on with the next one if a comma stands there. -/
theorem setTargets_target {target later : List Token} (htarget : IsTarget target)
    (hdot : startsWith (.symbol .dot) later = false) : (setTargets (target ++ later)).2.2 =
      if startsWith (.symbol .comma) later then (setTargets later.tail).2.2 else later := by
  cases htarget with
  | name hname =>
    rw [List.singleton_append, setTargets_cons hname, hdot]
    simp only [Bool.false_eq_true, if_false]
    split <;> rfl
  | @member object dot field hobject hkind hfield =>
    have hmember : startsWith (.symbol .dot) (dot :: field :: later) = true := by
      rw [startsWith_cons, hkind, beq_self_eq_true]
    have hskip : skipName (field :: later) = later := by
      simp [skipName, name?, hfield]
    rw [List.cons_append, setTargets_cons hobject]
    simp only [List.cons_append, List.nil_append, hmember, if_pos, List.tail_cons, hskip]
    split <;> rfl

/-- All targets are read, up to a token that neither goes on with the last one nor adds one. -/
theorem setTargets_targets {targets later : List Token} (htargets : AreTargets targets)
    (hdot : startsWith (.symbol .dot) later = false) (hcomma : startsWith (.symbol .comma) later = false) :
    (setTargets (targets ++ later)).2.2 = later := by
  induction htargets with
  | last htarget => rw [setTargets_target htarget hdot, hcomma, if_neg Bool.false_ne_true]
  | @more target others comma htarget hkind _ ih =>
    have hdot' : startsWith (.symbol .dot) (comma :: (others ++ later)) = false := by
      rw [startsWith_cons, hkind]
      rfl
    have hcomma' : startsWith (.symbol .comma) (comma :: (others ++ later)) = true := by
      rw [startsWith_cons, hkind]
      rfl
    rw [List.append_assoc, List.cons_append, setTargets_target htarget hdot', hcomma', if_pos rfl,
      List.tail_cons, ih]

theorem setHead_eq (tokens : List Token) :
    setHead tokens =
      if startsWith (.symbol .assign) (setTargets tokens).2.2 then
        .assign (setTargets tokens).1
          ((setTargets tokens).2.1 ++ (Mentions.expression [] (setTargets tokens).2.2.tail).1)
      else .beginSet (setTargets tokens).1
        ((setTargets tokens).2.1 ++ (Mentions.expression [] (setTargets tokens).2.2).1) := rfl

theorem isPlain_setHead {tokens : List Token} (hassigns : Assigns tokens) :
    (setHead tokens).isPlain = true := by
  obtain ⟨targets, equals, value, rfl, htargets, hequals⟩ := hassigns
  have hnone : ∀ mark, mark ≠ Symbol.assign → startsWith (.symbol mark) (equals :: value) = false := by
    intro mark hne
    rw [startsWith_cons, hequals]
    simpa using hne.symm
  rw [setHead_eq, setTargets_targets htargets (hnone .dot (by decide)) (hnone .comma (by decide)),
    startsWith_cons, hequals, beq_self_eq_true, if_pos rfl]
  rfl

theorem opens?_setHead {tokens : List Token} (hcaptures : Captures tokens) :
    (setHead tokens).opens? = some .setBlock := by
  obtain ⟨targets, filters, rfl, htargets, hpipe⟩ := hcaptures
  have hnone : ∀ mark, mark ≠ Symbol.pipe → startsWith (.symbol mark) filters = false := by
    intro mark hne
    cases filters with
    | nil => rfl
    | cons token rest =>
      rw [startsWith_cons, hpipe token rfl]
      simpa using hne.symm
  rw [setHead_eq, setTargets_targets htargets (hnone .dot (by decide)) (hnone .comma (by decide)),
    hnone .assign (by decide), if_neg Bool.false_ne_true]
  rfl

end Targets

section Tags

variable {word : Keyword} {kind : BlockKind}

/-- A statement is read by the word that it begins with. -/
theorem ofTag_word (tag : WordTag word) : ∃ token, tag.body = token :: tag.body.tail ∧
    token.kind = .keyword word ∧ ofTag tag.tag = ofBody (token :: tag.body.tail) := by
  have hbegins := tag.begins
  cases hbody : tag.body with
  | nil =>
    rw [hbody] at hbegins
    cases hbegins
  | cons token rest =>
    rw [hbody] at hbegins
    refine ⟨token, rfl, Option.some.inj hbegins, ?_⟩
    rw [ofTag, WholeTag.tag, tag.isStatement, hbody]
    rfl

theorem opens?_opening (opening : OpeningTag kind) : (ofTag opening.tag).opens? = some kind := by
  obtain ⟨token, _, hkind, hstatement⟩ := ofTag_word opening.toWordTag
  have hcaptures := opening.captures
  rw [hstatement, ofBody, hkind]
  cases kind with
  | setBlock => exact opens?_setHead (hcaptures rfl)
  | _ => rfl

theorem ofTag_ending (ending : WordTag kind.endWord) : ofTag ending.tag = .endBlock kind := by
  obtain ⟨token, _, hkind, hstatement⟩ := ofTag_word ending
  rw [hstatement, ofBody, hkind]
  cases kind <;> rfl

theorem ofTag_beginRaw (opening : WordTag .rawKw) : ofTag opening.tag = .beginRaw := by
  obtain ⟨token, _, hkind, hstatement⟩ := ofTag_word opening
  rw [hstatement, ofBody, hkind]

theorem ofTag_endRaw (ending : WordTag .endrawKw) : ofTag ending.tag = .endRaw := by
  obtain ⟨token, _, hkind, hstatement⟩ := ofTag_word ending
  rw [hstatement, ofBody, hkind]

theorem ofTag_otherwise (divider : WordTag .elseKw) : ofTag divider.tag = .otherwise := by
  obtain ⟨token, _, hkind, hstatement⟩ := ofTag_word divider
  rw [hstatement, ofBody, hkind]

theorem isPlain_elseIf (divider : WordTag .elifKw) : (ofTag divider.tag).isPlain = true := by
  obtain ⟨token, _, hkind, hstatement⟩ := ofTag_word divider
  rw [hstatement, ofBody, hkind]
  rfl

theorem isPlain_ofBody {token : Token}
    (hword : ∀ word, token.kind = .keyword word → word.isStructural = false) (rest : List Token) :
    (ofBody (token :: rest)).isPlain = true := by
  rw [ofBody]
  cases hkind : token.kind with
  | keyword word =>
    have hplain := hword word hkind
    cases word <;> first | rfl | cases hplain
  | identifier =>
    simp only
    split <;> rfl
  | _ => rfl

theorem isPlain_plain (tag : PlainTag) : (ofTag tag.tag).isPlain = true := by
  have hplain := tag.plain
  rw [ofTag, WholeTag.tag]
  cases hform : tag.form with
  | expression => rfl
  | statement =>
    simp only [hform, reduceCtorEq, false_or] at hplain
    rcases hplain with ⟨word, hbody, hkind, hassigns⟩ | hplain
    · rw [hbody, ofBody, hkind]
      exact isPlain_setHead hassigns
    · cases hbody : tag.body with
      | nil => rfl
      | cons token rest =>
        rw [hbody] at hplain
        exact isPlain_ofBody (hplain token rfl) rest

/-- Only its own word ends a raw part. -/
theorem kind_of_endRaw {token : Token} {rest : List Token} (hend : ofBody (token :: rest) = .endRaw) :
    token.kind = .keyword .endrawKw := by
  rw [ofBody] at hend
  split at hend
  case h_5 =>
    rw [setHead_eq] at hend
    split at hend <;> cases hend
  case h_24 hkind => exact hkind
  case h_25 => split at hend <;> cases hend
  all_goals cases hend

end Tags

end Statement

end TemplateAnalysis.Template
