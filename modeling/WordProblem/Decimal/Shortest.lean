/-! # Shortest decimals

The decimal with the fewest digits that a double is read back from, and its notation. Of two
such decimals the nearer one is taken, and of two equally near ones the even one.
-/
namespace WordProblem

/-- The number `digits * 10 ^ exponent`, with a sign of its own. -/
structure Decimal where
  negative : Bool
  digits : Nat
  exponent : Int
deriving DecidableEq

/-- A non-negative rational number; the denominator is not zero. -/
structure Ratio where
  num : Nat
  den : Nat

namespace Ratio

def le (a b : Ratio) : Bool := a.num * b.den ≤ b.num * a.den

def lt (a b : Ratio) : Bool := a.num * b.den < b.num * a.den

/-- `n * b ^ e` -/
def scaled (n b : Nat) (e : Int) : Ratio :=
  if 0 ≤ e then ⟨n * b.pow e.toNat, 1⟩ else ⟨n, b.pow (-e).toNat⟩

def digitCount (n : Nat) : Nat := (Nat.toDigits 10 n).length

/-- The largest `p` with `10 ^ p ≤ a`, for a positive number `a`. -/
def magnitude (a : Ratio) : Int :=
  if a.den ≤ a.num then (digitCount (a.num / a.den) : Int) - 1
  else -(digitCount ((a.den + a.num - 1) / a.num - 1) : Int)

end Ratio

/-- A positive double with the bounds of the numbers that round to it. -/
structure RoundingRange where
  value : Ratio
  low : Ratio
  high : Ratio
  /-- Whether the bounds themselves round to the double. -/
  closed : Bool

namespace RoundingRange

def contains (r : RoundingRange) (x : Ratio) : Bool :=
  if r.closed then r.low.le x && x.le r.high else r.low.lt x && x.lt r.high

/-- The range of `m * 2 ^ q`. Below a power of two, which `narrow` says, doubles lie closer. -/
def ofScaled (m : Nat) (q : Int) (narrow : Bool) : RoundingRange where
  value := .scaled (4 * m) 2 (q - 2)
  low := .scaled (4 * m - if narrow then 1 else 2) 2 (q - 2)
  high := .scaled (4 * m + 2) 2 (q - 2)
  closed := m % 2 = 0

/-- The neighbours of the value on the grid of the multiples of `10 ^ e`, the nearer first. -/
def neighbours (r : RoundingRange) (e : Int) : List Nat :=
  let x : Ratio :=
    if 0 ≤ e then ⟨r.value.num, r.value.den * Nat.pow 10 e.toNat⟩
    else ⟨r.value.num * Nat.pow 10 (-e).toNat, r.value.den⟩
  let below := x.num / x.den
  let twice := 2 * (x.num % x.den)
  if twice < x.den ∨ twice = x.den ∧ below % 2 = 0 then [below, below + 1] else [below + 1, below]

/-- The nearest number in the range with the given number of digits. -/
def withDigits? (r : RoundingRange) (count : Nat) : Option (Nat × Int) :=
  let e := r.value.magnitude - count + 1
  ((r.neighbours e).find? fun n => r.contains (.scaled n 10 e)).map (·, e)

end RoundingRange

namespace Decimal

/-- Moves zeros at the end of the digits into the exponent. -/
def trim : Nat → Nat → Int → Decimal
  | 0, n, e => ⟨false, n, e⟩
  | places + 1, n, e =>
    if n % 10 = 0 ∧ n ≠ 0 then trim places (n / 10) (e + 1) else ⟨false, n, e⟩

/-- The shortest decimal of a finite double, without its sign. Seventeen digits always do. -/
def shortest (x : Float) : Decimal :=
  let hidden : Nat := 0x10000000000000
  let bits : Nat := x.toBits.toNat % 0x8000000000000000
  let f : Nat := bits % hidden
  let e : Nat := bits / hidden
  if bits = 0 then ⟨false, 0, 0⟩
  else
    let range :=
      if e = 0 then RoundingRange.ofScaled f (-1074) false
      else RoundingRange.ofScaled (hidden + f) (Int.ofNat e - 1075) (f = 0 ∧ 1 < e)
    match (List.range' 1 17).findSome? range.withDigits? with
    | some (n, k) => trim 17 n k
    | none => ⟨false, 0, 0⟩

/-- Positional between `0.00001` and `10 ^ 16`, with at least one digit after the point, and
else with the point after the first digit and an exponent, whose sign is always written. -/
def display (d : Decimal) : List Char :=
  let ds := Nat.toDigits 10 d.digits
  let zeros (n : Int) : List Char := List.replicate n.toNat '0'
  let point : Int := ds.length + d.exponent
  let body :=
    if d.digits = 0 then ['0', '.', '0']
    else if 0 ≤ d.exponent ∧ point ≤ 16 then ds ++ zeros d.exponent ++ ['.', '0']
    else if 0 < point ∧ point ≤ 16 then ds.take point.toNat ++ '.' :: ds.drop point.toNat
    else if -5 < point ∧ point ≤ 0 then '0' :: '.' :: zeros (-point) ++ ds
    else
      ds.take 1 ++ (if ds.length = 1 then [] else '.' :: ds.drop 1) ++
        'e' :: (if 0 < point then '+' else '-') :: Nat.toDigits 10 (point - 1).natAbs
  if d.negative then '-' :: body else body

end Decimal

end WordProblem
