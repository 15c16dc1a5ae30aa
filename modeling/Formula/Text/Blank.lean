/-
Characters that separate without meaning anything: white space and controls.
-/
import Formula.Text.Range

namespace Formula.Text

/-- The characters with the Unicode property White_Space. -/
def whiteSpaceRanges : List Range :=
  [(0x0009, 0x000D), (0x0020, 0x0020), (0x0085, 0x0085), (0x00A0, 0x00A0), (0x1680, 0x1680),
   (0x2000, 0x200A), (0x2028, 0x2029), (0x202F, 0x202F), (0x205F, 0x205F), (0x3000, 0x3000)]

def isWhiteSpace (c : Char) : Bool := inRanges whiteSpaceRanges c

/-- The characters of the Unicode category Cc. -/
def controlRanges : List Range := [(0x0000, 0x001F), (0x007F, 0x009F)]

def isControl (c : Char) : Bool := inRanges controlRanges c

def isBlank (c : Char) : Bool := isWhiteSpace c || isControl c

/-- Drops white space at both ends. -/
def trim (text : List Char) : List Char :=
  ((text.dropWhile isWhiteSpace).reverse.dropWhile isWhiteSpace).reverse

end Formula.Text
