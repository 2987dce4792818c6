import Mathlib.Order.Lattice
import Mathlib.Order.Defs.LinearOrder
import TemplateAnalysis.Position

namespace TemplateAnalysis

namespace Position

/-- Positions are ordered linearly, so the general theory of such orders applies to them. -/
instance : LinearOrder Position where
  le_refl position := by
    rw [le_iff]
    omega
  le_trans first second third := by
    simp only [le_iff]
    omega
  lt_iff_le_not_ge first second := by
    simp only [le_iff, lt_iff]
    omega
  le_antisymm first second := by
    rcases first with ⟨line, character⟩
    rcases second with ⟨line', character'⟩
    simp only [le_iff, Position.mk.injEq]
    omega
  le_total first second := by
    simp only [le_iff]
    omega
  toDecidableLE := inferInstance
  max_def first second := rfl

theorem zero_le (position : Position) : ({} : Position) ≤ position := by
  rw [le_iff]
  simp only
  omega

/-- Each character moves the position on, also where it begins a new line. -/
theorem lt_after (position : Position) (c : Char) : position < position.after c := by
  unfold after
  split
  · exact Or.inl (Nat.lt_succ_self _)
  · refine Or.inr ⟨rfl, ?_⟩
    simp only [Text.units16]
    split <;> omega

end Position

theorem Text.byteLength_pos {text : List Char} (hne : text ≠ []) : 0 < byteLength text := by
  cases text with
  | nil => exact absurd rfl hne
  | cons c rest =>
    rw [byteLength_cons]
    exact Nat.add_pos_left c.utf8Size_pos _

/-- No position lies in both ranges. -/
def Range.Apart (first second : Range) : Prop :=
  ∀ position, first.contains position = true → second.contains position = false

theorem Range.Apart.symm {first second : Range} (hapart : first.Apart second) :
    second.Apart first := by
  intro position hsecond
  by_contra hfirst
  rw [hapart position (Bool.eq_true_of_not_eq_false hfirst)] at hsecond
  cases hsecond

theorem Range.apart_of_le {first second : Range} (hle : first.stop ≤ second.start) :
    first.Apart second := by
  intro position hfirst
  rw [contains, Bool.and_eq_true, decide_eq_true_iff, decide_eq_true_iff] at hfirst
  rw [contains, Bool.and_eq_false_imp, decide_eq_true_iff]
  exact fun hstart => absurd (hfirst.2.trans_le hle) hstart.not_gt

namespace Place

theorem position_le_past (place : Place) (text : List Char) :
    place.position ≤ (place.past text).position := by
  induction text generalizing place with
  | nil => exact le_refl _
  | cons c rest ih =>
    have hstep : place.position < (place.after c).position := Position.lt_after place.position c
    exact le_trans hstep.le (ih (place.after c))

theorem position_lt_past (place : Place) {text : List Char} (hne : text ≠ []) :
    place.position < (place.past text).position := by
  cases text with
  | nil => exact absurd rfl hne
  | cons c rest =>
    have hstep : place.position < (place.after c).position := Position.lt_after place.position c
    exact lt_of_lt_of_le hstep (position_le_past (place.after c) rest)

/-- Two beginnings of a text that end at one position are the same. -/
theorem eq_of_position_past {place : Place} {first second text : List Char} (hfirst : first <+: text)
    (hsecond : second <+: text) (hposition : (place.past first).position = (place.past second).position) :
    first = second := by
  have hend : ∀ shorter more : List Char,
      (place.past shorter).position = (place.past (shorter ++ more)).position → more = [] := by
    intro shorter more hposition
    by_contra hne
    rw [past_append] at hposition
    exact absurd hposition (position_lt_past _ hne).ne
  rcases List.prefix_or_prefix_of_prefix hfirst hsecond with ⟨more, rfl⟩ | ⟨more, rfl⟩
  · rw [hend first more hposition, List.append_nil]
  · rw [hend second more hposition.symm, List.append_nil]

theorem offset_le_past (place : Place) (text : List Char) : place.offset ≤ (place.past text).offset := by
  rw [offset_past]
  exact Nat.le_add_right _ _

theorem offset_lt_past (place : Place) {text : List Char} (hne : text ≠ []) :
    place.offset < (place.past text).offset := by
  rw [offset_past]
  exact Nat.lt_add_of_pos_right (Text.byteLength_pos hne)

end Place

end TemplateAnalysis
