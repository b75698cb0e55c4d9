/-
**Blanks.** The characters that are dropped from the right end of a pictured line.

* `isBlank` is membership in a table of closed ranges of code points.
* `trimRight` drops blanks from the right end and nothing else.
-/

namespace Lox.Text

/-- The blank code points, as closed ranges in ascending order: the controls that move the cursor,
the four separators, and the spaces of every width. -/
def blankRanges : List (Nat × Nat) :=
  [(0x09, 0x0D), (0x1C, 0x20), (0x85, 0x85), (0xA0, 0xA0), (0x1680, 0x1680), (0x2000, 0x200A),
    (0x2028, 0x2029), (0x202F, 0x202F), (0x205F, 0x205F), (0x3000, 0x3000)]

/-- Whether a character shows nothing but an advance. -/
def isBlank (c : Char) : Bool :=
  blankRanges.any fun range => range.1 ≤ c.toNat && c.toNat ≤ range.2

/-- The text without the blanks at its right end. -/
def trimRight (text : List Char) : List Char :=
  (text.reverse.dropWhile isBlank).reverse

end Lox.Text
