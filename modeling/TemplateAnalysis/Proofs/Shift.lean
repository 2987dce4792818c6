import TemplateAnalysis.Identifier
import TemplateAnalysis.Proofs.Position
import TemplateAnalysis.Scope

namespace TemplateAnalysis

namespace Position

variable {origin first second : Position}

/-- The position in a whole text of a position in the part of the text that begins at the origin.
    Only the first line of that part begins in the middle of a line. -/
def shift (origin position : Position) : Position :=
  if position.line = 0 then
    { line := origin.line, character := origin.character + position.character }
  else { line := origin.line + position.line, character := position.character }

@[simp] theorem shift_zero (origin : Position) : origin.shift {} = origin := rfl

@[simp] theorem zero_shift (position : Position) : ({} : Position).shift position = position := by
  rcases position with ⟨line, character⟩
  simp only [shift, Nat.zero_add]
  split
  next hline => rw [hline]
  next => rfl

theorem shift_after (origin position : Position) (c : Char) :
    origin.shift (position.after c) = (origin.shift position).after c := by
  unfold shift after
  split_ifs <;> simp_all [Nat.add_assoc]

theorem shift_shift (origin first second : Position) :
    origin.shift (first.shift second) = (origin.shift first).shift second := by
  unfold shift
  split_ifs <;> simp_all [Nat.add_assoc]

theorem le_shift (origin position : Position) : origin ≤ origin.shift position := by
  unfold shift
  split_ifs with hline
  · exact .inr ⟨rfl, Nat.le_add_right _ _⟩
  · exact .inl (Nat.lt_add_of_pos_right (Nat.pos_of_ne_zero hline))

theorem shift_lt_shift (hlt : first < second) : origin.shift first < origin.shift second := by
  unfold shift
  rcases hlt with hline | ⟨hline, hcharacter⟩
  · rw [if_neg (Nat.ne_zero_of_lt hline)]
    split_ifs
    · exact .inl (Nat.lt_add_of_pos_right (Nat.zero_lt_of_lt hline))
    · exact .inl (Nat.add_lt_add_left hline _)
  · rw [hline]
    split_ifs
    · exact .inr ⟨rfl, Nat.add_lt_add_left hcharacter _⟩
    · exact .inr ⟨rfl, hcharacter⟩

theorem shift_strictMono (origin : Position) : StrictMono origin.shift :=
  fun _ _ => shift_lt_shift

/-- The position in the part of a text that begins at the origin of a position in the whole text. -/
def since (origin position : Position) : Position :=
  if position.line = origin.line then
    { line := 0, character := position.character - origin.character }
  else { line := position.line - origin.line, character := position.character }

theorem since_shift (origin position : Position) : origin.since (origin.shift position) = position := by
  rcases position with ⟨line, character⟩
  unfold since shift
  by_cases hline : line = 0
  · rw [if_pos hline, if_pos rfl, hline, Nat.add_sub_cancel_left]
  · have hne : origin.line + line ≠ origin.line := by omega
    rw [if_neg hline, if_neg hne, Nat.add_sub_cancel_left]

theorem since_le_since (hfirst : origin ≤ first) (hle : first ≤ second) :
    origin.since first ≤ origin.since second := by
  rw [le_iff] at hfirst hle
  unfold since
  split_ifs with hsame hother hother
  · exact .inr ⟨rfl, Nat.sub_le_sub_right (by omega) _⟩
  · exact .inl (Nat.sub_pos_of_lt (by omega))
  · omega
  · rw [le_iff]
    simp only
    omega

/-- The position after what stands behind `cut` has moved to another place. -/
def rebase (cut target position : Position) : Position :=
  if position ≤ cut then position else target.shift (cut.since position)

theorem rebase_of_le {cut target position : Position} (hle : position ≤ cut) :
    rebase cut target position = position :=
  if_pos hle

theorem rebase_shift {cut target position : Position} (hlt : cut < cut.shift position) :
    rebase cut target (cut.shift position) = target.shift position := by
  rw [rebase, if_neg hlt.not_ge, since_shift]

theorem rebase_mono {cut target : Position} (htarget : cut ≤ target) :
    Monotone (rebase cut target) := by
  intro first second hle
  unfold rebase
  split_ifs with hfirst hsecond hsecond
  · exact hle
  · exact hfirst.trans (htarget.trans (le_shift target _))
  · exact absurd (hle.trans hsecond) hfirst
  · exact (shift_strictMono target).monotone (since_le_since (le_of_not_ge hfirst) hle)

end Position

namespace Place

/-- The place in a whole text of a place in the part of the text that begins at the origin. -/
def shift (origin place : Place) : Place :=
  { offset := origin.offset + place.offset, position := origin.position.shift place.position }

@[simp] theorem position_shift (origin place : Place) :
    (origin.shift place).position = origin.position.shift place.position := rfl

@[simp] theorem zero_shift (place : Place) : ({} : Place).shift place = place := by
  rw [shift, Position.zero_shift, Nat.zero_add]

theorem shift_after (origin place : Place) (c : Char) :
    origin.shift (place.after c) = (origin.shift place).after c := by
  simp only [shift, after, Position.shift_after, Nat.add_assoc]

theorem shift_past (origin place : Place) (text : List Char) :
    origin.shift (place.past text) = (origin.shift place).past text := by
  induction text generalizing place with
  | nil => rfl
  | cons c rest ih => rw [past_cons, ih, shift_after, past_cons]

/-- The place behind a text is the one behind it alone, counted from where the text begins. -/
theorem past_eq_shift (origin : Place) (text : List Char) :
    origin.past text = origin.shift (past {} text) := by
  rw [shift_past]
  rfl

end Place

section Map

variable (move : Position → Position)

/-- The range between the new positions of its ends. -/
def Range.map (range : Range) : Range :=
  { start := move range.start, stop := move range.stop }

/-- The identifier where its text has moved to. -/
def Identifier.map (identifier : Identifier) : Identifier :=
  { identifier with range := identifier.range.map move }

/-- The binding where its text has moved to. -/
def Binding.map (binding : Binding) : Binding :=
  { binding with range := binding.range.map move, visibleFrom := move binding.visibleFrom }

end Map

end TemplateAnalysis
