import Mathlib.Data.List.Lex
import TemplateAnalysis.Path

namespace TemplateAnalysis.Path

/-- One step stands before another: the root, the directory itself and its parent before all names,
    and names by their characters. -/
inductive Component.Before : Component → Component → Prop
  | rank {first second : Component} (hrank : first.rank < second.rank) : Before first second
  | name {first second : String} (hname : first < second) : Before (.normal first) (.normal second)

namespace Component

variable {first second third : Component}

theorem Before.rank_le (hbefore : Before first second) : first.rank ≤ second.rank := by
  cases hbefore with
  | rank hrank => exact Nat.le_of_lt hrank
  | name => exact Nat.le_refl 3

theorem Before.irrefl (step : Component) : ¬Before step step := by
  intro hbefore
  cases hbefore with
  | rank hrank => exact Nat.lt_irrefl _ hrank
  | name hname => exact String.lt_irrefl _ hname

theorem Before.trans (hfirst : Before first second) (hsecond : Before second third) :
    Before first third := by
  cases hfirst with
  | rank hrank => exact .rank (Nat.lt_of_lt_of_le hrank hsecond.rank_le)
  | name hname =>
    cases hsecond with
    | rank hrank => exact .rank hrank
    | name hother => exact .name (String.lt_trans hname hother)

/-- Of two different steps one stands before the other. -/
theorem before_or_eq (first second : Component) :
    Before first second ∨ first = second ∨ Before second first := by
  rcases Nat.lt_trichotomy first.rank second.rank with hrank | hrank | hrank
  · exact .inl (.rank hrank)
  · cases first with
    | normal name =>
      cases second with
      | normal other =>
        rcases String.le_total name other with hle | hle <;> by_cases hsame : name = other
        · exact .inr (.inl (congrArg normal hsame))
        · exact .inl (.name (Std.lt_of_le_of_ne hle hsame))
        · exact .inr (.inl (congrArg normal hsame))
        · exact .inr (.inr (.name (Std.lt_of_le_of_ne hle (Ne.symm hsame))))
      | _ => cases hrank
    | root | current | parent => cases second <;> simp_all [rank]
  · exact .inr (.inr (.rank hrank))

instance : Std.Irrefl Before where
  irrefl := Before.irrefl

instance : Std.Trichotomous Before where
  trichotomous first second hfirst hsecond :=
    ((before_or_eq first second).resolve_left hfirst).resolve_right hsecond

theorem precedes_of_rank (hrank : first.rank < second.rank) :
    first.precedes second = true ∧ second.precedes first = false := by
  cases first <;> cases second <;> simp_all [precedes, rank]

/-- The comparison of two different steps tells which one stands before the other. -/
theorem precedes_iff (hne : first ≠ second) : first.precedes second = true ↔ Before first second := by
  constructor
  · intro hprecedes
    refine (before_or_eq first second).resolve_right (not_or.mpr ⟨hne, fun hafter => ?_⟩)
    cases hafter with
    | rank hrank => exact absurd hprecedes (by rw [(precedes_of_rank hrank).2]; exact Bool.false_ne_true)
    | name hname => exact String.not_le.mpr hname (of_decide_eq_true hprecedes)
  · intro hbefore
    cases hbefore with
    | rank hrank => exact (precedes_of_rank hrank).1
    | name hname => exact decide_eq_true (String.not_lt.mp (String.lt_asymm hname))

end Component

/-- One path stands before another: where their steps differ first, its step stands before the other
    one, or it ends there. -/
def Before (first second : String) : Prop :=
  List.Lex Component.Before (components first) (components second)

/-- The comparison of two lists of steps is the order of lists that belongs to the order of steps. -/
theorem precedesList_iff {first second : List Component} :
    precedesList first second = true ↔ first = second ∨ List.Lex Component.Before first second := by
  induction first generalizing second with
  | nil =>
    cases second with
    | nil => simp [precedesList]
    | cons step rest => simp [precedesList]
  | cons step rest ih =>
    cases second with
    | nil => simp [precedesList]
    | cons other others =>
      rw [precedesList]
      split
      next hsame =>
        subst hsame
        rw [ih, List.lex_cons_iff]
        simp
      next hne =>
        rw [Component.precedes_iff hne]
        refine ⟨fun hbefore => .inr (.rel hbefore), ?_⟩
        rintro (heq | hlex)
        · exact absurd (List.cons.inj heq).1 hne
        · cases hlex with
          | rel hbefore => exact hbefore
          | cons => exact absurd rfl hne

theorem precedes_eq_true {first second : String} :
    precedes first second = true ↔ components first = components second ∨ Before first second :=
  precedesList_iff

theorem precedes_trans {first second third : String} (hfirst : precedes first second = true)
    (hsecond : precedes second third = true) : precedes first third = true := by
  rw [precedes_eq_true] at hfirst hsecond ⊢
  rcases hfirst with hfirst | hfirst
  · rwa [hfirst, Before, hfirst]
  · rcases hsecond with hsecond | hsecond
    · rw [Before, ← hsecond]
      exact .inr hfirst
    · exact .inr (List.lex_trans Component.Before.trans hfirst hsecond)

theorem precedes_total (first second : String) :
    precedes first second = true ∨ precedes second first = true := by
  rw [precedes_eq_true, precedes_eq_true]
  by_cases hfirst : Before first second
  · exact .inl (.inr hfirst)
  by_cases hsecond : Before second first
  · exact .inr (.inr hsecond)
  · exact .inl (.inl ((List.Lex.trichotomous Component.Before).trichotomous _ _ hfirst hsecond))

end TemplateAnalysis.Path
