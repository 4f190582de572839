/-! # Charts

A chart has one cell for every numbered non-terminal and every span of a word. The cells
lie in one array: by non-terminal, then by the beginning of the span, then by its end.
-/
namespace WordProblem

structure Chart where
  length : Nat
  cells : Array Bool

namespace Chart

/-- The chart of `k` non-terminals and a word of length `n` with every cell unset. -/
def blank (k n : Nat) : Chart := ⟨n, Array.replicate (k * (n + 1) * (n + 1)) false⟩

/-- The position of the cell of non-terminal `a` and the span from `i` to `j`. No two cells
share a position, because both ends of a span are at most `n`. -/
def index (n a i j : Nat) : Nat := (a * (n + 1) + i) * (n + 1) + j

def get (c : Chart) (a i j : Nat) : Bool := c.cells.getD (index c.length a i j) false

def set (c : Chart) (a i j : Nat) : Chart :=
  { c with cells := c.cells.setIfInBounds (index c.length a i j) true }

end Chart

end WordProblem
