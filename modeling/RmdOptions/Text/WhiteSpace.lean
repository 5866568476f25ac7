import RmdOptions.Text.CodeRanges

/-!
# White space

The characters that separate tokens and that are trimmed from fence rows, headers and arguments:
the 25 characters with the Unicode property `White_Space`, line breaks included.
-/

namespace RmdOptions

/-- The code points with the property `White_Space`, as increasing inclusive ranges. -/
def whiteSpaceRanges : CodeRanges :=
  [
    (0x9, 0xD), (0x20, 0x20), (0x85, 0x85), (0xA0, 0xA0), (0x1680, 0x1680), (0x2000, 0x200A),
    (0x2028, 0x2029), (0x202F, 0x202F), (0x205F, 0x205F), (0x3000, 0x3000)]

theorem whiteSpaceRanges_increasing : whiteSpaceRanges.IncreasingFrom 0 := by decide

/-- Whether a character is white space. -/
def isWhiteSpace (c : Char) : Bool :=
  whiteSpaceRanges.contains c.toNat

end RmdOptions
