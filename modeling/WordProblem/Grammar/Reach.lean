import WordProblem.Grammar.Basic
import WordProblem.Saturation

/-! # Reachable non-terminals

The rules of a grammar span two graphs on its non-terminals: one joins a left side to
every non-terminal of the right side, the other follows unit rules only.
-/
namespace WordProblem

abbrev Edge := Char × Char

def follow (known : List Char) (e : Edge) : List Char :=
  if known.contains e.1 && !known.contains e.2 then e.2 :: known else known

/-- The characters that paths of any length lead to from `a`, including `a`. Every round but
the last one follows an edge to a new end, so the edges bound the number of rounds. -/
def reach (edges : List Edge) (a : Char) : List Char :=
  saturate (edges.foldl follow) (edges.length + 1) [a]

namespace Grammar

def edges (g : Grammar) : List Edge := g.rules.flatMap fun r => r.nonterminals.map (r.lhs, ·)

def unitEdges (g : Grammar) : List Edge := (g.rules.filter (·.isUnit)).flatMap fun r =>
  r.nonterminals.map (r.lhs, ·)

def reachable (g : Grammar) : List Char := reach g.edges g.start

end Grammar

end WordProblem
