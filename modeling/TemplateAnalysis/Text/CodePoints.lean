namespace TemplateAnalysis.Text

/-- A set of code points, written as inclusive ranges in ascending order. -/
abbrev CodePoints := List (Nat × Nat)

/-- Membership of a character. The ranges ascend, so the search ends at the first one that begins
    above the character. -/
def CodePoints.contains : CodePoints → Char → Bool
  | [], _ => false
  | (low, high) :: rest, c =>
    if c.toNat < low then false
    else if c.toNat ≤ high then true
    else CodePoints.contains rest c

end TemplateAnalysis.Text
