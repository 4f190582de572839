/-! # String literals

A string literal is written with escapes for quotes, backslashes and control characters. It
is read one character or escape at a time. Escapes may name the two halves of a surrogate
pair; a half without the other one, like a byte that belongs to no character, spoils the
content of the literal but not its form.
-/
namespace WordProblem.Json

def hexDigit (n : Nat) : Char := if n < 10 then .ofNat (0x30 + n) else .ofNat (0x57 + n)

def hexValue? (c : Char) : Option Nat :=
  let n := c.toNat
  if 0x30 ≤ n ∧ n ≤ 0x39 then some (n - 0x30)
  else if 0x61 ≤ n ∧ n ≤ 0x66 then some (n - 0x57)
  else if 0x41 ≤ n ∧ n ≤ 0x46 then some (n - 0x37)
  else none

def escape (c : Char) : List Char :=
  if c = '"' then ['\\', '"']
  else if c = '\\' then ['\\', '\\']
  else if c = '\x08' then ['\\', 'b']
  else if c = '\t' then ['\\', 't']
  else if c = '\n' then ['\\', 'n']
  else if c = '\x0c' then ['\\', 'f']
  else if c = '\r' then ['\\', 'r']
  else if c.toNat < 0x20 then
    ['\\', 'u', '0', '0', hexDigit (c.toNat / 16), hexDigit (c.toNat % 16)]
  else [c]

def quote (cs : List Char) : List Char := '"' :: cs.flatMap escape ++ ['"']

def unescape? (c : Char) : Option Char :=
  if c = '"' ∨ c = '\\' ∨ c = '/' then some c
  else if c = 'b' then some '\x08'
  else if c = 't' then some '\t'
  else if c = 'n' then some '\n'
  else if c = 'f' then some '\x0c'
  else if c = 'r' then some '\r'
  else none

/-- A literal as far as it has been read. -/
structure Literal where
  /-- The characters, the last one first. -/
  reversed : List Char := []
  /-- The first half of a surrogate pair that waits for the second one. -/
  half : Option Nat := none
  sound : Bool := true
deriving DecidableEq

namespace Literal

def char (l : Literal) (c : Char) : Literal :=
  { reversed := c :: l.reversed, sound := l.sound && l.half.isNone }

def spoil (l : Literal) : Literal := { l with half := none, sound := false }

def unit (l : Literal) (u : Nat) : Literal :=
  if 0xD800 ≤ u ∧ u < 0xDC00 then { l with half := some u, sound := l.sound && l.half.isNone }
  else if 0xDC00 ≤ u ∧ u < 0xE000 then
    match l.half with
    | some h =>
      { l with
        reversed := Char.ofNat (0x10000 + (h - 0xD800) * 0x400 + (u - 0xDC00)) :: l.reversed
        half := none }
    | none => l.spoil
  else l.char (Char.ofNat u)

def content? (l : Literal) : Option (List Char) :=
  if l.sound && l.half.isNone then some l.reversed.reverse else none

end Literal

end WordProblem.Json
