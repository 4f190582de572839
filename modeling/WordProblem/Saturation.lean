/-! # Saturation

A set of characters that is enlarged round after round until a round adds nothing.
-/
namespace WordProblem

/-- Repeats `grow` until the list stays as long as it was, for at most `rounds` rounds. -/
def saturate (grow : List Char → List Char) : Nat → List Char → List Char
  | 0, known => known
  | rounds + 1, known =>
    let next := grow known
    if next.length = known.length then known else saturate grow rounds next

end WordProblem
