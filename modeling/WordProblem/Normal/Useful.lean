import WordProblem.Grammar.Generators
import WordProblem.Grammar.Reach
import WordProblem.Normal.Fresh

/-! # Useful non-terminals

A non-terminal is dropped, with every rule that holds it, if it generates no word or if
no form derived from the start symbol holds it.
-/
namespace WordProblem.Grammar

/-- Keeps the non-terminals in `keep` and the rules that hold no other ones. -/
def restrict (g : Grammar) (keep : List Char) : Grammar :=
  { g with
    nonterminals := g.nonterminals.filter keep.contains
    rules := g.rules.filter fun r => keep.contains r.lhs && r.nonterminals.all keep.contains }

/-- Drops the non-terminals that generate no word; the start symbol must not be one. -/
def dropBarren (g : Grammar) : Except NormalFormError Grammar :=
  let productive := g.productive
  if productive.contains g.start then .ok (g.restrict productive)
  else .error (.emptyLanguage g.start)

def dropUnreachable (g : Grammar) : Grammar := g.restrict g.reachable

end WordProblem.Grammar
