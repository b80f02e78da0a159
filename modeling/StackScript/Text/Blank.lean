/-!
White space of every script, as a reader of lines skips it: a line with nothing else is blank.
-/

set_option autoImplicit false
set_option relaxedAutoImplicit false

namespace StackScript.Text

/-- First and last code point of each run of white space (the property White_Space). -/
def spaceRanges : List (Nat × Nat) :=
  [(0x9, 0xd), (0x20, 0x20), (0x85, 0x85), (0xa0, 0xa0), (0x1680, 0x1680), (0x2000, 0x200a),
    (0x2028, 0x2029), (0x202f, 0x202f), (0x205f, 0x205f), (0x3000, 0x3000)]

def isSpace (c : Char) : Bool :=
  spaceRanges.any fun range ↦ range.1 ≤ c.toNat && c.toNat ≤ range.2

/-- The ASCII white space of the core library is among it. -/
theorem isSpace_of_isWhitespace {c : Char} (h : c.isWhitespace = true) : isSpace c = true := by
  simp only [Char.isWhitespace, Bool.or_eq_true, decide_eq_true_eq] at h
  rcases h with ((h | h) | h) | h <;> subst h <;> decide

/-- Whether the text holds nothing but white space. -/
def isBlank (text : String) : Bool :=
  text.toList.all isSpace

theorem isBlank_iff {text : String} :
    isBlank text = true ↔ ∀ c ∈ text.toList, isSpace c = true := by
  simp [isBlank]

end StackScript.Text
