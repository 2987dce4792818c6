import Mathlib.Data.List.Nodup
import TemplateAnalysis.Identifier
import TemplateAnalysis.Proofs.Position
import TemplateAnalysis.Proofs.Sorting

namespace TemplateAnalysis.Identifier

/-- The order of identifiers is that of starts, then of ends, then of kinds. -/
theorem precedes_iff {first second : Identifier} : first.precedes second = true ↔
    first.range.start < second.range.start ∨ first.range.start = second.range.start ∧
      (first.range.stop < second.range.stop ∨ first.range.stop = second.range.stop ∧
        first.kind.rank ≤ second.kind.rank) := by
  unfold precedes
  split
  next hstart =>
    split
    next hstop => simp [hstart, hstop]
    next hstop => simp [hstart, hstop, le_iff_lt_or_eq]
  next hstart => simp [hstart, le_iff_lt_or_eq]

theorem start_le_of_precedes {first second : Identifier} (hprecedes : first.precedes second = true) :
    first.range.start ≤ second.range.start := by
  rcases precedes_iff.mp hprecedes with hlt | ⟨heq, _⟩
  · exact hlt.le
  · exact heq.le

theorem precedes_trans (first second third : Identifier) (hfirst : first.precedes second = true)
    (hsecond : second.precedes third = true) : first.precedes third = true := by
  rw [precedes_iff] at hfirst hsecond ⊢
  rcases hfirst with hstart | ⟨hstart, hstop | ⟨hstop, hkind⟩⟩
  · rcases hsecond with hstart' | ⟨hstart', _⟩
    · exact .inl (hstart.trans hstart')
    · exact .inl (hstart' ▸ hstart)
  · rw [hstart]
    rcases hsecond with hstart' | ⟨hstart', hstop' | ⟨hstop', _⟩⟩
    · exact .inl hstart'
    · exact .inr ⟨hstart', .inl (hstop.trans hstop')⟩
    · exact .inr ⟨hstart', .inl (hstop' ▸ hstop)⟩
  · rw [hstart, hstop]
    rcases hsecond with hstart' | ⟨hstart', hstop' | ⟨hstop', hkind'⟩⟩
    · exact .inl hstart'
    · exact .inr ⟨hstart', .inl hstop'⟩
    · exact .inr ⟨hstart', .inr ⟨hstop', hkind.trans hkind'⟩⟩

theorem precedes_total (first second : Identifier) :
    (first.precedes second || second.precedes first) = true := by
  rw [Bool.or_eq_true, precedes_iff, precedes_iff]
  rcases lt_trichotomy first.range.start second.range.start with hlt | heq | hgt
  · exact .inl (.inl hlt)
  · rcases lt_trichotomy first.range.stop second.range.stop with hlt | heq' | hgt
    · exact .inl (.inr ⟨heq, .inl hlt⟩)
    · rcases Nat.le_total first.kind.rank second.kind.rank with hle | hge
      · exact .inl (.inr ⟨heq, .inr ⟨heq', hle⟩⟩)
      · exact .inr (.inr ⟨heq.symm, .inr ⟨heq'.symm, hge⟩⟩)
    · exact .inr (.inr ⟨heq.symm, .inl hgt⟩)
  · exact .inr (.inl hgt)

/-- The strict order that goes with `precedes`. -/
def Before (first second : Identifier) : Prop :=
  first.range.start < second.range.start ∨ first.range.start = second.range.start ∧
    (first.range.stop < second.range.stop ∨ first.range.stop = second.range.stop ∧
      first.kind.rank < second.kind.rank)

instance (first second : Identifier) : Decidable (first.Before second) :=
  inferInstanceAs (Decidable (_ ∨ _))

/-- Whether an identifier classifies this range in this way. -/
def hasRecord (range : Range) (kind : IdentifierKind) (identifier : Identifier) : Bool :=
  identifier.range == range && identifier.kind == kind

theorem hasRecord_iff {identifier : Identifier} {range : Range} {kind : IdentifierKind} :
    hasRecord range kind identifier = true ↔ identifier.range = range ∧ identifier.kind = kind := by
  rw [hasRecord, Bool.and_eq_true, beq_iff_eq, beq_iff_eq]

@[simp] theorem hasRecord_self (identifier : Identifier) :
    hasRecord identifier.range identifier.kind identifier = true :=
  hasRecord_iff.mpr ⟨rfl, rfl⟩

theorem sameRecord_iff {first second : Identifier} : first.sameRecord second = true ↔
    first.range = second.range ∧ first.kind = second.kind := by
  rw [sameRecord, Bool.and_eq_true, beq_iff_eq, beq_iff_eq]

theorem sameRecord_of_hasRecord {range : Range} {kind : IdentifierKind} {first second : Identifier}
    (hfirst : hasRecord range kind first = true) (hsecond : hasRecord range kind second = true) :
    first.sameRecord second = true := by
  obtain ⟨hrange, hkind⟩ := hasRecord_iff.mp hfirst
  obtain ⟨hrange', hkind'⟩ := hasRecord_iff.mp hsecond
  exact sameRecord_iff.mpr ⟨hrange.trans hrange'.symm, hkind.trans hkind'.symm⟩

theorem precedes_of_sameRecord {first second : Identifier}
    (hsame : first.sameRecord second = true) : first.precedes second = true := by
  obtain ⟨hrange, hkind⟩ := sameRecord_iff.mp hsame
  rw [precedes_iff, hrange, hkind]
  exact .inr ⟨rfl, .inr ⟨rfl, Nat.le_refl _⟩⟩

/-- No two kinds have the same place in the order of kinds. -/
theorem rank_injective : Function.Injective IdentifierKind.rank := by
  intro first second hrank
  cases first <;> cases second <;> first | rfl | cases hrank

theorem before_of_precedes {first second : Identifier} (hprecedes : first.precedes second = true)
    (hother : first.sameRecord second = false) : first.Before second := by
  rcases precedes_iff.mp hprecedes with hstart | ⟨hstart, hstop | ⟨hstop, hrank⟩⟩
  · exact .inl hstart
  · exact .inr ⟨hstart, .inl hstop⟩
  · refine .inr ⟨hstart, .inr ⟨hstop, lt_of_le_of_ne hrank fun hsame => ?_⟩⟩
    have hrange : first.range = second.range := by
      cases hfirst : first.range
      cases hsecond : second.range
      rw [hfirst, hsecond] at hstart hstop
      exact congrArg₂ Range.mk hstart hstop
    rw [sameRecord_iff.mpr ⟨hrange, rank_injective hsame⟩] at hother
    cases hother

/-- Only the range and the kind count. -/
theorem Before.of_sameRecord {first second third : Identifier} (hbefore : second.Before third)
    (hsame : first.sameRecord second = true) : first.Before third := by
  obtain ⟨hrange, hkind⟩ := sameRecord_iff.mp hsame
  rw [Before, hrange, hkind]
  exact hbefore

theorem before_iff {first second : Identifier} :
    first.Before second ↔ second.precedes first = false := by
  rw [← Bool.not_eq_true, precedes_iff, Before]
  rcases lt_trichotomy first.range.start second.range.start with hstart | hstart | hstart
  · simp [hstart, hstart.not_gt, hstart.ne']
  · rcases lt_trichotomy first.range.stop second.range.stop with hstop | hstop | hstop
    · simp [hstart, hstop, hstop.not_gt, hstop.ne']
    · simp [hstart, hstop]
    · simp [hstart, hstop, hstop.not_gt, hstop.ne']
  · simp [hstart, hstart.not_gt, hstart.ne']

theorem Before.precedes {first second : Identifier} (hbefore : first.Before second) :
    first.precedes second = true := by
  have htotal := precedes_total first second
  rwa [before_iff.mp hbefore, Bool.or_false] at htotal

theorem Before.asymm {first second : Identifier} (hbefore : first.Before second) :
    ¬ second.Before first := by
  rw [before_iff, hbefore.precedes]
  exact Bool.noConfusion

theorem Before.ne {first second : Identifier} (hbefore : first.Before second) : first ≠ second := by
  rintro rfl
  exact hbefore.asymm hbefore

theorem Before.trans {first second third : Identifier} (hfirst : first.Before second)
    (hsecond : second.Before third) : first.Before third := by
  rw [before_iff] at hsecond ⊢
  refine Bool.eq_false_of_not_eq_true fun hthird => ?_
  rw [precedes_trans third first second hthird hfirst.precedes] at hsecond
  cases hsecond

/-- Identifiers in strict order do not classify one range in one way. -/
theorem Before.hasRecord_eq_false {first second : Identifier} {range : Range}
    {kind : IdentifierKind} (hbefore : first.Before second)
    (hfirst : hasRecord range kind first = true) : hasRecord range kind second = false := by
  refine Bool.eq_false_of_not_eq_true fun hsecond => ?_
  have hself := hbefore.of_sameRecord (sameRecord_of_hasRecord hsecond hfirst)
  exact hself.asymm hself

theorem dropRepeats_sublist (identifiers : List Identifier) :
    (dropRepeats identifiers).Sublist identifiers := by
  induction identifiers with
  | nil => exact List.Sublist.slnil
  | cons first rest ih =>
    rw [dropRepeats]
    cases hdropped : dropRepeats rest with
    | nil => simp
    | cons second others =>
      rw [hdropped] at ih
      simp only
      split
      · exact ((List.sublist_cons_self second others).trans ih).cons_cons first
      · exact ih.cons_cons first

theorem mem_of_mem_normalize {identifiers : List Identifier} {identifier : Identifier}
    (hmem : identifier ∈ normalize identifiers) : identifier ∈ identifiers :=
  List.mem_mergeSort.mp ((dropRepeats_sublist _).subset hmem)

/-- Normal identifiers come in order. -/
theorem normalize_pairwise (identifiers : List Identifier) :
    (normalize identifiers).Pairwise (fun first second => first.precedes second = true) :=
  (List.pairwise_mergeSort precedes_trans precedes_total identifiers).sublist
    (dropRepeats_sublist _)

/-- Of sorted identifiers no two are left that agree in range and kind. -/
theorem dropRepeats_increasing {identifiers : List Identifier}
    (hsorted : identifiers.Pairwise fun first second => first.precedes second = true) :
    (dropRepeats identifiers).Pairwise Before := by
  induction identifiers with
  | nil => exact List.Pairwise.nil
  | cons first rest ih =>
    obtain ⟨hfirst, hrest⟩ := List.pairwise_cons.mp hsorted
    have hkept := ih hrest
    rw [dropRepeats]
    cases hdropped : dropRepeats rest with
    | nil => exact List.pairwise_singleton Before first
    | cons second others =>
      rw [hdropped, List.pairwise_cons] at hkept
      obtain ⟨hothers, hincreasing⟩ := hkept
      simp only
      split
      next hsame =>
        exact List.pairwise_cons.mpr
          ⟨fun other hother => (hothers other hother).of_sameRecord hsame, hincreasing⟩
      next hother =>
        have hbefore : ∀ other ∈ second :: others, first.Before other := by
          have hrecord : first.sameRecord second = false := Bool.eq_false_of_not_eq_true hother
          have hmem : ∀ other ∈ second :: others, other ∈ rest := fun other hmem =>
            (dropRepeats_sublist rest).subset (hdropped ▸ hmem)
          have hsecond := before_of_precedes (hfirst second (hmem second List.mem_cons_self)) hrecord
          refine List.forall_mem_cons.mpr ⟨hsecond, fun other hother => ?_⟩
          exact hsecond.trans (hothers other hother)
        exact List.pairwise_cons.mpr ⟨hbefore, List.pairwise_cons.mpr ⟨hothers, hincreasing⟩⟩

/-- Normal identifiers come in strict order. -/
theorem normalize_increasing (identifiers : List Identifier) :
    (normalize identifiers).Pairwise Before :=
  dropRepeats_increasing (List.pairwise_mergeSort precedes_trans precedes_total identifiers)

theorem nodup_of_increasing {identifiers : List Identifier}
    (hincreasing : identifiers.Pairwise Before) : identifiers.Nodup :=
  hincreasing.imp Before.ne

/-- In strict order at most one identifier classifies a range in some way. -/
theorem filter_of_increasing {identifiers : List Identifier}
    (hincreasing : identifiers.Pairwise Before) (range : Range) (kind : IdentifierKind) :
    identifiers.filter (hasRecord range kind) =
      (identifiers.find? (hasRecord range kind)).toList := by
  induction identifiers with
  | nil => rfl
  | cons first rest ih =>
    obtain ⟨hothers, hrest⟩ := List.pairwise_cons.mp hincreasing
    cases hfirst : hasRecord range kind first with
    | true =>
      have hnone : rest.filter (hasRecord range kind) = [] :=
        List.filter_eq_nil_iff.mpr fun other hother => by
          rw [(hothers other hother).hasRecord_eq_false hfirst]
          exact Bool.false_ne_true
      rw [List.filter_cons_of_pos hfirst, List.find?_cons_of_pos hfirst, hnone, Option.toList_some]
    | false =>
      have hskipped : ¬ hasRecord range kind first = true := by
        rw [hfirst]
        exact Bool.false_ne_true
      rw [List.filter_cons_of_neg hskipped, List.find?_cons_of_neg hskipped, ih hrest]

theorem mem_iff_of_increasing {identifiers : List Identifier} {identifier : Identifier}
    (hincreasing : identifiers.Pairwise Before) : identifier ∈ identifiers ↔
      identifiers.find? (hasRecord identifier.range identifier.kind) = some identifier := by
  rw [← Option.mem_toList, ← filter_of_increasing hincreasing, List.mem_filter,
    and_iff_left (hasRecord_self identifier)]

/-- A list in strict order is known by what it has for each range and kind. -/
theorem eq_of_increasing {first second : List Identifier} (hfirst : first.Pairwise Before)
    (hsecond : second.Pairwise Before)
    (hsame : ∀ range kind, first.find? (hasRecord range kind) =
      second.find? (hasRecord range kind)) : first = second := by
  have hperm : first.Perm second := by
    refine (List.perm_ext_iff_of_nodup (nodup_of_increasing hfirst)
      (nodup_of_increasing hsecond)).mpr fun identifier => ?_
    rw [mem_iff_of_increasing hfirst, mem_iff_of_increasing hsecond, hsame]
  exact hperm.eq_of_pairwise (fun _ _ _ _ hlt hgt => absurd hgt hlt.asymm) hfirst hsecond

/-- Dropping repeats keeps the first identifier that classifies a range in some way. This needs no
    order: what is dropped stands behind one that is kept and agrees with it. -/
theorem find?_dropRepeats (identifiers : List Identifier) (range : Range) (kind : IdentifierKind) :
    (dropRepeats identifiers).find? (hasRecord range kind) =
      identifiers.find? (hasRecord range kind) := by
  induction identifiers with
  | nil => rfl
  | cons first rest ih =>
    rw [dropRepeats]
    cases hdropped : dropRepeats rest with
    | nil =>
      rw [hdropped] at ih
      rw [List.find?_cons, List.find?_cons, ih]
    | cons second others =>
      rw [hdropped] at ih
      simp only
      split
      next hsame =>
        obtain ⟨hrange, hkind⟩ := sameRecord_iff.mp hsame
        have halike : hasRecord range kind second = hasRecord range kind first := by
          rw [hasRecord, hasRecord, hrange, hkind]
        rw [List.find?_cons, List.find?_cons, ← ih, List.find?_cons, halike]
        cases hasRecord range kind first <;> rfl
      next => rw [List.find?_cons, ih, List.find?_cons]

/-- Of the identifiers that classify a range in some way the first one stays the first. -/
theorem find?_normalize (identifiers : List Identifier) (range : Range) (kind : IdentifierKind) :
    (normalize identifiers).find? (hasRecord range kind) =
      identifiers.find? (hasRecord range kind) := by
  have halike : ∀ first second, hasRecord range kind first = true →
      hasRecord range kind second = true → first.precedes second = true := fun _ _ hfirst hsecond =>
    precedes_of_sameRecord (sameRecord_of_hasRecord hfirst hsecond)
  rw [normalize, find?_dropRepeats, ← List.head?_filter,
    filter_mergeSort precedes_trans precedes_total halike, List.head?_filter]

/-- An identifier stays if every other one that agrees with it in range and kind is equal to it. -/
theorem mem_normalize {identifiers : List Identifier} {identifier : Identifier}
    (hmem : identifier ∈ identifiers)
    (hunique : ∀ other ∈ identifiers, other.sameRecord identifier = true → other = identifier) :
    identifier ∈ normalize identifiers := by
  have hfound : (identifiers.find? (hasRecord identifier.range identifier.kind)).isSome = true :=
    List.find?_isSome.mpr ⟨identifier, hmem, hasRecord_self identifier⟩
  obtain ⟨first, hfirst⟩ := Option.isSome_iff_exists.mp hfound
  have hrecord := List.find?_some hfirst
  have hsame : first = identifier := hunique first (List.mem_of_find?_eq_some hfirst) <|
    sameRecord_iff.mpr (hasRecord_iff.mp hrecord)
  rw [← find?_normalize, hsame] at hfirst
  exact List.mem_of_find?_eq_some hfirst

/-- Identifiers in strict order are normal. -/
theorem normalize_eq_self {identifiers : List Identifier} (hincreasing : identifiers.Pairwise Before) :
    normalize identifiers = identifiers :=
  eq_of_increasing (normalize_increasing identifiers) hincreasing (find?_normalize identifiers)

end TemplateAnalysis.Identifier
