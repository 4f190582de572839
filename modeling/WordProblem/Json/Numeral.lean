import WordProblem.Decimal.Shortest
import WordProblem.Text.Count

/-! # Numerals

A numeral is read one character at a time. Its value is a whole number if it has neither a
fraction nor an exponent and fits into 64 bits, and else a double, which is found from as
many digits as 64 bits hold and a power of ten.
-/
namespace WordProblem.Json

/-- The part of a numeral that was read last. -/
inductive Phase where
  | sign
  | zero
  | whole
  | point
  | fraction
  | mark
  | markSign
  | exponent
deriving DecidableEq

structure Numeral where
  negative : Bool := false
  whole : List Nat := []
  fraction : List Nat := []
  exponentNegative : Bool := false
  exponent : List Nat := []
  phase : Phase := .sign
deriving DecidableEq

namespace Numeral

inductive Next where
  | more (n : Numeral)
  | stop
  | broken

def isMark (c : Char) : Bool := c = 'e' || c = 'E'

def next (n : Numeral) (c : Char) : Next :=
  let d := Text.digit c
  match n.phase with
  | .sign =>
    if c = '0' then .more { n with whole := [0], phase := .zero }
    else if c.isDigit then .more { n with whole := [d], phase := .whole }
    else .broken
  | .zero =>
    if c.isDigit then .broken
    else if c = '.' then .more { n with phase := .point }
    else if isMark c then .more { n with phase := .mark }
    else .stop
  | .whole =>
    if c.isDigit then .more { n with whole := n.whole ++ [d] }
    else if c = '.' then .more { n with phase := .point }
    else if isMark c then .more { n with phase := .mark }
    else .stop
  | .point => if c.isDigit then .more { n with fraction := [d], phase := .fraction } else .broken
  | .fraction =>
    if c.isDigit then .more { n with fraction := n.fraction ++ [d] }
    else if isMark c then .more { n with phase := .mark }
    else .stop
  | .mark =>
    if c = '+' then .more { n with phase := .markSign }
    else if c = '-' then .more { n with exponentNegative := true, phase := .markSign }
    else if c.isDigit then .more { n with exponent := [d], phase := .exponent }
    else .broken
  | .markSign => if c.isDigit then .more { n with exponent := [d], phase := .exponent } else .broken
  | .exponent => if c.isDigit then .more { n with exponent := n.exponent ++ [d] } else .stop

def isComplete (n : Numeral) : Bool :=
  match n.phase with
  | .zero | .whole | .fraction | .exponent => true
  | _ => false

/-- A number with a significand of at most 64 bits. -/
structure Scaled where
  significand : Nat
  exponent : Int
  /-- Whether every digit so far is in the significand. -/
  exact : Bool := true

def Scaled.fits (s : Scaled) (d : Nat) : Bool := s.significand * 10 + d < Text.wordBound

/-- Once a digit does not fit, it and those after it only count as places. -/
def Scaled.wholeDigit (s : Scaled) (d : Nat) : Scaled :=
  if s.exact && s.fits d then { s with significand := s.significand * 10 + d }
  else { s with exponent := s.exponent + 1, exact := false }

/-- Once a digit does not fit, it and those after it are left out. -/
def Scaled.fractionDigit (s : Scaled) (d : Nat) : Scaled :=
  if s.exact && s.fits d then ⟨s.significand * 10 + d, s.exponent - 1, true⟩
  else { s with exact := false }

def scaledWhole (n : Numeral) : Scaled := n.whole.foldl Scaled.wholeDigit ⟨0, 0, true⟩

def scaled (n : Numeral) : Scaled :=
  n.fraction.foldl Scaled.fractionDigit { n.scaledWhole with exact := true }

def powerOfTen (k : Nat) : Float := Float.ofScientific 1 false k

/-- `x * 10 ^ e` with one rounding for each step of at most 308 places; none if that is too
large. Any significand vanishes after three steps down. -/
def scale? (x : Float) (e : Int) : Nat → Option Float
  | 0 => some x
  | steps + 1 =>
    if e.natAbs ≤ 308 then
      if 0 ≤ e then
        let y := x * powerOfTen e.natAbs
        if y.isInf then none else some y
      else some (x / powerOfTen e.natAbs)
    else if x == 0 then some x
    else if 0 ≤ e then none
    else scale? (x / powerOfTen 308) (e + 308) steps

/-- The absolute value of a numeral as a double. An exponent of more than 31 bits leads to
zero or, if it is positive and the significand is not zero, out of range. -/
def magnitude? (n : Numeral) : Option Float :=
  let s := n.scaled
  let e : Nat := Text.ofDigits n.exponent
  let places : Int := if n.exponentNegative then s.exponent - e else s.exponent + e
  if e < 0x80000000 then scale? s.significand.toUInt64.toFloat places 4
  else if s.significand ≠ 0 ∧ !n.exponentNegative then none
  else some 0

inductive Value where
  | integer (i : Int)
  | real (d : Decimal)
deriving DecidableEq

/-- The value of a complete numeral, unless it is out of range. -/
def value? (n : Numeral) : Option Value :=
  let s := n.scaledWhole
  if n.fraction.isEmpty && n.exponent.isEmpty && s.exact && !n.negative then
    some (.integer s.significand)
  else if n.fraction.isEmpty && n.exponent.isEmpty && s.exact && 0 < s.significand &&
      s.significand ≤ 0x8000000000000000 then
    some (.integer (-s.significand))
  else do
    let x ← n.magnitude?
    return .real { Decimal.shortest x with negative := n.negative }

end Numeral

end WordProblem.Json
