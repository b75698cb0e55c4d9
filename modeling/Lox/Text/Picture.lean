/-
**Pictures.** A row of the text with carets under the stretch that is meant.

* `rows` breaks a text after every line break, `\r\n`, `\r` or `\n`; the last row has none.
* `locate` finds the row and column of an offset.
* `picture` draws the row with its number, and the carets below it.
-/

import Lox.Text.Blank

namespace Lox.Text

/-- Puts a character at the front of the first row. -/
def extendFirst (c : Char) : List (List Char) → List (List Char)
  | [] => [[c]]
  | row :: more => (c :: row) :: more

/-- The rows of a text. Each keeps the line break that ends it, and the last one, which may be
empty, has none. -/
def rows : List Char → List (List Char)
  | [] => [[]]
  | '\r' :: '\n' :: rest => ['\r', '\n'] :: rows rest
  | c :: rest =>
    if c = '\r' ∨ c = '\n' then [c] :: rows rest else extendFirst c (rows rest)

/-- A place in a text: the index of its row, its column there, and the row itself. -/
structure Spot where
  row : Nat
  column : Nat
  line : List Char
deriving DecidableEq

/-- The place of an offset. An offset past the end lies that far to the right in the last row. -/
def locate : List (List Char) → Nat → Spot
  | [], offset => ⟨0, offset, []⟩
  | [line], offset => ⟨0, offset, line⟩
  | line :: more, offset =>
    if offset < line.length then ⟨0, offset, line⟩
    else
      let spot := locate more (offset - line.length)
      { spot with row := spot.row + 1 }

/-- The text padded with blanks on its left to at least the given width. -/
def padLeft (width : Nat) (text : List Char) : List Char :=
  List.replicate (width - text.length) ' ' ++ text

/-- The margin in front of a pictured row: its number, in six columns of which the first is always
blank, and a bar. -/
def margin (number : Nat) : List Char :=
  padLeft 6 (' ' :: (toString number).toList) ++ [' ', '|']

/-- What stands below a character to the left of the carets: a tab stays, so that the carets keep
their column, and everything else becomes a blank. -/
def shadow (c : Char) : Char :=
  if c = '\t' then c else ' '

/-- The number of carets under a stretch: never past the end of the line, but at least one. -/
def caretCount (spot : Spot) (width : Nat) : Nat :=
  max 1 (min width (spot.line.length - spot.column))

/-- The upper line of a picture. -/
def pictureRow (spot : Spot) : List Char :=
  margin (spot.row + 1) ++ trimRight spot.line

/-- The lower line of a picture. -/
def pictureCarets (spot : Spot) (width : Nat) : List Char :=
  (margin (spot.row + 1) ++ spot.line.take spot.column).map shadow ++
    List.replicate (caretCount spot width) '^' ++ [' ']

/-- The picture of the stretch of the given width at an offset of a text. -/
def picture (text : String) (offset width : Nat) : String :=
  let spot := locate (rows text.toList) offset
  String.ofList (pictureRow spot ++ '\n' :: pictureCarets spot width)

end Lox.Text
