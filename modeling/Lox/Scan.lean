/-
**Scanning.** The tokens of a text and the faults between them, in the order of the text.

* `Fault` is a segment that is no token and not ignored, with its place.
* `Scan` lists tokens and faults as they come; the last item is the token that closes the text.
-/

import Lox.Segment
import Lox.Number.Rounding

namespace Lox

/-- What can be wrong with a segment. -/
inductive Fault.Cause where
  /-- A string without a closing mark. -/
  | unterminated
  /-- A character that begins nothing. -/
  | stuck (c : Char)
deriving DecidableEq

/-- Something wrong with the characters of a text, at a line and an offset. -/
structure Fault where
  cause : Fault.Cause
  line : Nat
  offset : Nat
deriving DecidableEq

/-- The wording of a fault. -/
def Fault.message (fault : Fault) : String :=
  match fault.cause with
  | .unterminated => "Unterminated string."
  | .stuck c => "Unexpected character '" ++ c.toString ++ "'."

/-- What a scan meets: a fault or a token. -/
inductive Scanned where
  | fault (fault : Fault)
  | token (token : Token)
deriving DecidableEq

namespace Scan

/-- What the characters of a token denote: numerals their number, strings what stands between
the marks, and other tokens nothing. -/
def literal (kind : Terminal) (chars : List Char) : Literal :=
  match kind with
  | .number =>
    let (whole, fraction) := Segment.splitWhile Segment.isDigit chars
    .number (.ofDecimal whole (fraction.drop 1))
  | .string => .string (String.ofList (chars.drop 1).dropLast)
  | _ => .nil

/-- What a segment contributes to a scan at the given line and offset. -/
def ofSegment (segment : Segment) (line offset : Nat) : Option Scanned :=
  match segment.form with
  | .ignored => none
  | .token kind =>
    some (.token ⟨kind, String.ofList segment.chars, literal kind segment.chars, line, offset⟩)
  | .unterminated => some (.fault ⟨.unterminated, line, offset⟩)
  | .stuck => some (.fault ⟨.stuck (segment.chars.headD ' '), line, offset⟩)

/-- The number of line feeds in a text. -/
def lineFeeds (chars : List Char) : Nat :=
  chars.count '\n'

/-- The token that closes a text. -/
def closing (line offset : Nat) : Token :=
  ⟨.eof, "", .nil, line, offset⟩

/-- The scan of the segments that follow a text with the given last line and length. -/
def ofSegments : List Segment → (line offset : Nat) → List Scanned
  | [], line, offset => [.token (closing line offset)]
  | segment :: more, line, offset =>
    let after := ofSegments more (line + lineFeeds segment.chars) (offset + segment.chars.length)
    match ofSegment segment line offset with
    | none => after
    | some scanned => scanned :: after

end Scan

/-- The tokens of a text and the faults between them, in order. -/
def scan (text : String) : List Scanned :=
  Scan.ofSegments (segments text.toList) 1 0

/-- The tokens of a scan. -/
def tokensOf (scanned : List Scanned) : List Token :=
  scanned.filterMap fun
    | .token token => some token
    | .fault _ => none

/-- The faults of a scan. -/
def faultsOf (scanned : List Scanned) : List Fault :=
  scanned.filterMap fun
    | .token _ => none
    | .fault fault => some fault

end Lox
