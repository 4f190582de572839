/-! # Counts

Counts are natural numbers of at most 64 bits, written as decimal digits after an optional plus sign.
-/
namespace WordProblem.Text

def digit (c : Char) : Nat := c.toNat - '0'.toNat

/-- The number that digits stand for, the most significant one first. -/
def ofDigits (ds : List Nat) : Nat := ds.foldl (fun n d => n * 10 + d) 0

/-- The first number that does not fit into 64 bits. -/
def wordBound : Nat := 0x10000000000000000

def unsigned? (cs : List Char) : Option Nat :=
  if cs.isEmpty || !cs.all (·.isDigit) then none
  else
    let n := ofDigits (cs.map digit)
    if n < wordBound then some n else none

def count? : List Char → Option Nat
  | '+' :: cs => unsigned? cs
  | cs => unsigned? cs

end WordProblem.Text
