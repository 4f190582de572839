import WordProblem.Grammar.Generators
import WordProblem.Normal.Fresh

/-! # Removal of empty right sides

A nullable half of a two-symbol right side may be left out, which makes up for the rules
with empty right sides. If the language has the empty word, a fresh start symbol keeps it.
-/
namespace WordProblem

/-- A rule and what is left of it when one nullable half is left out. -/
def Rule.variants (nullable : List Char) (r : Rule) : List Rule :=
  match r.rhs with
  | [.nonterminal b, .nonterminal c] =>
    r :: (if nullable.contains b then [⟨r.lhs, [.nonterminal c]⟩] else []) ++
      (if nullable.contains c then [⟨r.lhs, [.nonterminal b]⟩] else [])
  | _ => [r]

/-- Drops all empty right sides. The language stays the same if right sides have at most two
symbols and two symbols are non-terminals. -/
def Grammar.dropEpsilon (g : Grammar) : Except NormalFormError Grammar :=
  let nullable := g.nullable
  let rules := (Ascending.ofList (g.rules.flatMap (·.variants nullable))).filter (!·.isEpsilon)
  if nullable.contains g.start then
    match g.unused with
    | [] => .error .outOfNonterminals
    | s :: _ => .ok { g with
        nonterminals := Ascending.insert s g.nonterminals
        rules := Ascending.insert ⟨s, []⟩ (Ascending.insert ⟨s, [.nonterminal g.start]⟩ rules)
        start := s }
  else .ok { g with rules := rules }

end WordProblem
