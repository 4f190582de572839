import WordProblem.Json.Comment
import WordProblem.Json.Literal
import WordProblem.Json.Numeral

/-! # Tokens

A text is cut into tokens by a machine that takes one piece at a time. Where the text cannot
be cut any further, a last token says so, and what comes before it can still be read.
-/
namespace WordProblem.Json
open Utf8 (Piece)

inductive Bracket where
  | square
  | curly
deriving DecidableEq

inductive Token where
  | opening (b : Bracket)
  | closing (b : Bracket)
  | comma
  | colon
  | null
  | bool (b : Bool)
  | number (n : Numeral)
  /-- A string with its text, or without one if the literal is spoiled. -/
  | string (text : Option (List Char))
  /-- What follows is no token. -/
  | fault
deriving DecidableEq

/-- The token that the machine is in. -/
inductive Mode where
  | between
  /-- A word that ends in the given letters. -/
  | word (letters : List Char) (token : Token)
  | number (n : Numeral)
  | string (l : Literal)
  | backslash (l : Literal)
  /-- A code unit in hexadecimal digits, and how many of them are missing. -/
  | hex (l : Literal) (u missing : Nat)
  /-- After a fault. -/
  | lost
deriving DecidableEq

/-- The tokens that a piece completes, and the mode after it. -/
abbrev Move := List Token × Mode

namespace Mode

def refuse : Move := ([.fault], lost)

def first : Char → Move
  | ' ' | '\t' | '\n' | '\r' => ([], between)
  | '[' => ([.opening .square], between)
  | ']' => ([.closing .square], between)
  | '{' => ([.opening .curly], between)
  | '}' => ([.closing .curly], between)
  | ',' => ([.comma], between)
  | ':' => ([.colon], between)
  | '"' => ([], string {})
  | 'n' => ([], word ['u', 'l', 'l'] .null)
  | 't' => ([], word ['r', 'u', 'e'] (.bool true))
  | 'f' => ([], word ['a', 'l', 's', 'e'] (.bool false))
  | '-' => ([], number { negative := true })
  | c =>
    match Numeral.next {} c with
    | .more n => ([], number n)
    | _ => refuse

def inWord (letters : List Char) (token : Token) (c : Char) : Move :=
  match letters with
  | [d] => if c = d then ([token], between) else refuse
  | d :: ds => if c = d then ([], word ds token) else refuse
  | [] => refuse

def inNumber (n : Numeral) (c : Char) : Move :=
  match n.next c with
  | .more n => ([], number n)
  | .stop => (.number n :: (first c).1, (first c).2)
  | .broken => refuse

def inString (l : Literal) (c : Char) : Move :=
  if c = '"' then ([.string l.content?], between)
  else if c = '\\' then ([], backslash l)
  else if c.toNat < 0x20 then refuse
  else ([], string (l.char c))

def afterBackslash (l : Literal) (c : Char) : Move :=
  if c = 'u' then ([], hex l 0 4)
  else
    match unescape? c with
    | some d => ([], string (l.char d))
    | none => refuse

def inHex (l : Literal) (u missing : Nat) (c : Char) : Move :=
  match hexValue? c with
  | some d =>
    let v := u * 16 + d
    ([], if missing ≤ 1 then string (l.unit v) else hex l v (missing - 1))
  | none => refuse

def move : Mode → Piece → Move
  | between, .char c => first c
  | word letters token, .char c => inWord letters token c
  | number n, .char c => inNumber n c
  | number n, .stray _ => if n.isComplete then ([.number n, .fault], lost) else refuse
  | string l, .char c => inString l c
  | string l, .stray _ => ([], string l.spoil)
  | backslash l, .char c => afterBackslash l c
  | hex l u missing, .char c => inHex l u missing c
  | lost, _ => ([], lost)
  | _, .stray _ => refuse

/-- The last tokens of a text, of which `whole` says whether it was read to its end. -/
def last (whole : Bool) : Mode → List Token
  | between => if whole then [] else [.fault]
  | number n => if n.isComplete then .number n :: (if whole then [] else [.fault]) else [.fault]
  | lost => []
  | _ => [.fault]

end Mode

def tokensFrom (whole : Bool) (m : Mode) : List Piece → List Token
  | [] => m.last whole
  | p :: ps => (m.move p).1 ++ tokensFrom whole (m.move p).2 ps

/-- The tokens of a text in UTF-8, in which comments are blanks. -/
def tokens (bytes : List UInt8) : List Token :=
  let (pieces, whole) := strip (Utf8.decode bytes)
  tokensFrom whole .between pieces

end WordProblem.Json
