import WordProblem.Text.Utf8

/-! # Comments

A comment stands between `/*` and `*/`, or between `//` and the end of its line, and counts
as blanks. What looks like a comment inside a string is a part of the string.
-/
namespace WordProblem.Json
open Utf8 (Piece)

inductive Zone where
  | code
  | string
  /-- After a backslash inside a string. -/
  | escape
  /-- After the first slash of a comment. -/
  | slash
  | block
  /-- After a star inside a block comment. -/
  | star
  | line
deriving DecidableEq

def blank : Piece := .char ' '

/-- The zone after a piece and what the piece counts as. Only a slash that begins no comment
is refused. -/
def Zone.step : Zone → Piece → Option (Zone × Piece)
  | code, .char '"' => some (string, .char '"')
  | code, .char '/' => some (slash, blank)
  | code, p => some (code, p)
  | string, .char '"' => some (code, .char '"')
  | string, .char '\\' => some (escape, .char '\\')
  | string, p => some (string, p)
  | escape, p => some (string, p)
  | slash, .char '*' => some (block, blank)
  | slash, .char '/' => some (line, blank)
  | slash, _ => none
  | block, .char '*' => some (star, blank)
  | block, _ => some (block, blank)
  | star, .char '/' => some (code, blank)
  | star, .char '*' => some (star, blank)
  | star, _ => some (block, blank)
  | line, .char '\n' => some (code, .char '\n')
  | line, _ => some (line, blank)

def Zone.mayEnd : Zone → Bool
  | code => true
  | line => true
  | _ => false

/-- A text with its comments blanked, as far as they can be read, and whether that is all. -/
def stripFrom (z : Zone) : List Piece → List Piece × Bool
  | [] => ([], z.mayEnd)
  | p :: ps =>
    match z.step p with
    | none => ([], false)
    | some (next, q) =>
      let (rest, whole) := stripFrom next ps
      (q :: rest, whole)

def strip (ps : List Piece) : List Piece × Bool := stripFrom .code ps

end WordProblem.Json
