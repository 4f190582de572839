import WordProblem.Grammar.Basic
import WordProblem.Saturation

/-! # Non-terminals that generate a word

A rule settles its left side once every symbol of its right side is settled. With all
terminals settled from the beginning this finds the non-terminals that generate some
word, and with none of them those that generate the empty word.
-/
namespace WordProblem

/-- A terminal is settled if `leaf` admits it, a non-terminal if it is known. -/
def Symbol.settled (leaf : Char → Bool) (known : List Char) : Symbol → Bool
  | terminal c => leaf c
  | nonterminal c => known.contains c

def settle (leaf : Char → Bool) (known : List Char) (r : Rule) : List Char :=
  if !known.contains r.lhs && r.rhs.all (·.settled leaf known) then r.lhs :: known else known

namespace Grammar

/-- The non-terminals that generate a word of letters which `leaf` admits. Every round but
the last one finds a further non-terminal, which bounds their number. -/
def generators (g : Grammar) (leaf : Char → Bool) : List Char :=
  saturate (g.rules.foldl (settle leaf)) (g.nonterminals.length + 1) []

def productive (g : Grammar) : List Char := g.generators fun _ => true

def nullable (g : Grammar) : List Char := g.generators fun _ => false

end Grammar

end WordProblem
