import TemplateAnalysis.Text.Bytes

namespace TemplateAnalysis

/-- A position as editors count it: the line from zero, and the number of UTF-16 code units before
    it on that line. Both are counted without a bound, which is meant for texts below 4 GiB, where
    they fit into 32 bits. -/
structure Position where
  line : Nat := 0
  character : Nat := 0
  deriving DecidableEq, Inhabited

namespace Position

/-- Positions are ordered by line first. -/
protected def le (first second : Position) : Prop :=
  first.line < second.line ∨ first.line = second.line ∧ first.character ≤ second.character

/-- The strict order that goes with `Position.le`. -/
protected def lt (first second : Position) : Prop :=
  first.line < second.line ∨ first.line = second.line ∧ first.character < second.character

instance : LE Position := ⟨Position.le⟩

instance : LT Position := ⟨Position.lt⟩

instance (first second : Position) : Decidable (first ≤ second) :=
  inferInstanceAs (Decidable (_ ∨ _))

instance (first second : Position) : Decidable (first < second) :=
  inferInstanceAs (Decidable (_ ∨ _))

instance : Max Position := maxOfLe

/-- The position after one more character. -/
def after (position : Position) (c : Char) : Position :=
  if c = '\n' then { line := position.line + 1, character := 0 }
  else { position with character := position.character + Text.units16 c }

theorem le_iff {first second : Position} : first ≤ second ↔
    first.line < second.line ∨ first.line = second.line ∧ first.character ≤ second.character :=
  Iff.rfl

theorem lt_iff {first second : Position} : first < second ↔
    first.line < second.line ∨ first.line = second.line ∧ first.character < second.character :=
  Iff.rfl

end Position

/-- A part of a document between two positions. A range that clients send may be reversed. -/
structure Range where
  start : Position := {}
  stop : Position := {}
  deriving DecidableEq, Inhabited

namespace Range

/-- The range of width zero at a position, for a pure insertion. -/
def empty (position : Position) : Range :=
  { start := position, stop := position }

/-- Whether the range holds no position. -/
def isEmpty (range : Range) : Bool :=
  decide (range.stop ≤ range.start)

/-- Whether the position lies in the half-open range. -/
def contains (range : Range) (position : Position) : Bool :=
  decide (range.start ≤ position) && decide (position < range.stop)

/-- Whether the position lies in the range or at its end. A cursor behind the last character of a
    name is still on the name. -/
def touches (range : Range) (position : Position) : Bool :=
  decide (range.start ≤ position) && decide (position ≤ range.stop)

/-- Whether the range covers some part of a line. A range of several lines that stops before the
    first character of a line does not cover that line. -/
def intersectsLine (range : Range) (line : Nat) : Bool :=
  decide (range.start.line ≤ line ∧ line ≤ range.stop.line) &&
    !decide (line = range.stop.line ∧ range.stop.character = 0 ∧ range.start.line < line)

end Range

/-- A place in a text, counted in both ways: the number of bytes before it, and its position. -/
structure Place where
  offset : Nat := 0
  position : Position := {}
  deriving DecidableEq, Inhabited

namespace Place

/-- The place after one more character. -/
def after (place : Place) (c : Char) : Place :=
  { offset := place.offset + c.utf8Size, position := place.position.after c }

/-- The place after a whole text. -/
def past (place : Place) (text : List Char) : Place :=
  text.foldl after place

/-- The range of a text that begins at this place. -/
def rangeOf (place : Place) (text : List Char) : Range :=
  { start := place.position, stop := (place.past text).position }

@[simp] theorem past_nil (place : Place) : place.past [] = place := rfl

@[simp] theorem past_cons (place : Place) (c : Char) (text : List Char) :
    place.past (c :: text) = (place.after c).past text := rfl

theorem past_append (place : Place) (first second : List Char) :
    place.past (first ++ second) = (place.past first).past second := by
  simp [past]

theorem offset_past (place : Place) (text : List Char) :
    (place.past text).offset = place.offset + Text.byteLength text := by
  induction text generalizing place with
  | nil => simp
  | cons c rest ih => simp [ih, after]; omega

end Place

end TemplateAnalysis
