/-!
# Blank characters, trimming and comma lists

A character is blank when it has the `White_Space` property. `trim` removes blanks at both ends of
a text, and `commaList` reads a text as a list of names separated by commas, where blanks around a
name and empty entries do not count.
-/

namespace ProgramGraph.Text

/-- The `White_Space` property: 25 code points, as closed ranges. -/
def blankRanges : List (Nat × Nat) :=
  [(0x09, 0x0D), (0x20, 0x20), (0x85, 0x85), (0xA0, 0xA0), (0x1680, 0x1680), (0x2000, 0x200A),
    (0x2028, 0x2029), (0x202F, 0x202F), (0x205F, 0x205F), (0x3000, 0x3000)]

/-- Does the character have the `White_Space` property? -/
def isBlank (c : Char) : Bool :=
  blankRanges.any fun (lo, hi) => lo ≤ c.toNat && c.toNat ≤ hi

/-- Removes blanks at both ends. -/
def trimChars (cs : List Char) : List Char :=
  ((cs.dropWhile isBlank).reverse.dropWhile isBlank).reverse

/-- Removes blanks at both ends. -/
def trim (s : String) : String :=
  String.ofList (trimChars s.toList)

/-- The non-empty trimmed entries between commas, from left to right. -/
def commaList (s : String) : List String :=
  (((s.toList.splitOn ',').map trimChars).filter (!·.isEmpty)).map String.ofList

end ProgramGraph.Text
