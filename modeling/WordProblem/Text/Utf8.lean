/-! # UTF-8

Characters as bytes and back. Decoding never fails: a byte that belongs to no character
is kept as it is, and the bytes after it are read on their own.
-/
namespace WordProblem.Utf8

/-- A part of a decoded byte sequence. -/
inductive Piece where
  | char (c : Char)
  | stray (b : UInt8)
deriving DecidableEq

def Piece.char? : Piece → Option Char
  | char c => some c
  | stray _ => none

def encodeChar (c : Char) : List UInt8 :=
  let n := c.toNat
  if n < 0x80 then [.ofNat n]
  else if n < 0x800 then [.ofNat (0xC0 + n / 0x40), .ofNat (0x80 + n % 0x40)]
  else if n < 0x10000 then
    [.ofNat (0xE0 + n / 0x1000), .ofNat (0x80 + n / 0x40 % 0x40), .ofNat (0x80 + n % 0x40)]
  else
    [.ofNat (0xF0 + n / 0x40000), .ofNat (0x80 + n / 0x1000 % 0x40),
      .ofNat (0x80 + n / 0x40 % 0x40), .ofNat (0x80 + n % 0x40)]

def encode (cs : List Char) : List UInt8 := cs.flatMap encodeChar

/-- Appends the bits of the next `k` bytes to `n`; they must be continuation bytes. -/
def extend? : Nat → Nat → List UInt8 → Option Nat
  | 0, n, _ => some n
  | _ + 1, _, [] => none
  | k + 1, n, b :: bytes =>
    if 0x80 ≤ b.toNat ∧ b.toNat < 0xC0 then extend? k (n * 0x40 + (b.toNat - 0x80)) bytes
    else none

/-- The character of a form with `k` continuation bytes, if its code is at least `least`. -/
def form? (k least n : Nat) (bytes : List UInt8) : Option (Char × Nat) := do
  let code ← extend? k n bytes
  if least ≤ code ∧ code.isValidChar then some (Char.ofNat code, k) else none

/-- The character that begins with the byte `b`, and how many more bytes it takes. -/
def leading? (b : UInt8) (bytes : List UInt8) : Option (Char × Nat) :=
  let n := b.toNat
  if n < 0x80 then form? 0 0 n bytes
  else if n < 0xC0 then none
  else if n < 0xE0 then form? 1 0x80 (n - 0xC0) bytes
  else if n < 0xF0 then form? 2 0x800 (n - 0xE0) bytes
  else if n < 0xF8 then form? 3 0x10000 (n - 0xF0) bytes
  else none

/-- Decodes after leaving out `k` bytes. -/
def decodeAfter : Nat → List UInt8 → List Piece
  | _, [] => []
  | k + 1, _ :: bytes => decodeAfter k bytes
  | 0, b :: bytes =>
    match leading? b bytes with
    | some (c, k) => .char c :: decodeAfter k bytes
    | none => .stray b :: decodeAfter 0 bytes

def decode (bytes : List UInt8) : List Piece := decodeAfter 0 bytes

/-- The text of a byte sequence without stray bytes. -/
def decode? (bytes : List UInt8) : Option (List Char) := (decode bytes).mapM Piece.char?

end WordProblem.Utf8
