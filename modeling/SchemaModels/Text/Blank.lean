import SchemaModels.Text.Trim

/-!
# Blank characters

The characters of the Unicode property `White_Space`, and the trimming of texts by it.

* `isBlank`: membership in the table; the blanks of core, `Char.isWhitespace`, are among them
  (`isBlank_of_isWhitespace`).
* `trimBlank`: a text without its outer blanks.
-/

namespace SchemaModels.Text

/-- The blanks: five control characters from tab to carriage return, the spaces, the line and
paragraph separators. -/
def blankRanges : List (Nat × Nat) :=
  [(0x09, 0x0D), (0x20, 0x20), (0x85, 0x85), (0xA0, 0xA0), (0x1680, 0x1680), (0x2000, 0x200A),
   (0x2028, 0x2029), (0x202F, 0x202F), (0x205F, 0x205F), (0x3000, 0x3000)]

/-- Whether a code point lies in one of the ranges. -/
def inRanges (ranges : List (Nat × Nat)) (n : Nat) : Bool :=
  ranges.any fun r => r.1 ≤ n && n ≤ r.2

/-- Whether a character is blank. -/
def isBlank (c : Char) : Bool := inRanges blankRanges c.toNat

theorem isBlank_of_isWhitespace {c : Char} (h : c.isWhitespace = true) : isBlank c = true := by
  simp only [Char.isWhitespace, Bool.or_eq_true, decide_eq_true_eq] at h
  rcases h with ((rfl | rfl) | rfl) | rfl <;> decide

/-- The text up to its last character that is not blank. -/
def trimEnd (s : List Char) : List Char := dropTrailing isBlank s

/-- The text without its outer blanks. -/
def trimBlank (s : List Char) : List Char := trim isBlank s

end SchemaModels.Text
