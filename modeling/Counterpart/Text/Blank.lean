/-!
# Blank characters

Two classes of blanks: those that separate nodes when a text is read, which are ASCII, and those
that force a label into quotes when it is written, which are all characters of Unicode's property
`White_Space`. Every separator is blank, so a label that is written without quotes holds none.
-/

namespace Counterpart.Text

/-- Whether a character separates nodes: space, tab, line feed, form feed or carriage return. -/
def isSeparator (c : Char) : Bool :=
  c == ' ' || c == '\t' || c == '\n' || c == '\x0c' || c == '\r'

/-- The ranges of code points with the property `White_Space`. -/
def blankRanges : List (Nat × Nat) :=
  [(0x09, 0x0d), (0x20, 0x20), (0x85, 0x85), (0xa0, 0xa0), (0x1680, 0x1680), (0x2000, 0x200a),
    (0x2028, 0x2029), (0x202f, 0x202f), (0x205f, 0x205f), (0x3000, 0x3000)]

/-- Whether a character has the property `White_Space`. -/
def isBlank (c : Char) : Bool :=
  blankRanges.any fun r => decide (r.1 ≤ c.toNat) && decide (c.toNat ≤ r.2)

theorem isBlank_of_isSeparator {c : Char} (h : isSeparator c = true) : isBlank c = true := by
  simp only [isSeparator, Bool.or_eq_true, beq_iff_eq] at h
  rcases h with (((rfl | rfl) | rfl) | rfl) | rfl <;> decide

/-- Whether a character opens or closes a group. -/
def isParen (c : Char) : Bool :=
  c == '(' || c == ')'

end Counterpart.Text
