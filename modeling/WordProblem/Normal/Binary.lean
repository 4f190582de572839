import WordProblem.Normal.Fresh

/-! # Right sides of at most two symbols

A longer right side becomes a chain of rules with two symbols each. The links of a chain
are fresh non-terminals that no other chain uses.
-/
namespace WordProblem

/-- The number of links that a rule is split with. -/
def Rule.surplus (r : Rule) : Nat := r.rhs.length - 2

def surplus (rules : List Rule) : Nat := rules.foldr (fun r n => r.surplus + n) 0

/-- `chain a [s, t, u] [b]` holds `a -> s b` and `b -> t u`. -/
def chain (a : Char) : List Symbol → List Char → List Rule
  | s :: t :: u :: rest, b :: links => ⟨a, [s, .nonterminal b]⟩ :: chain b (t :: u :: rest) links
  | rhs, _ => [⟨a, rhs⟩]

/-- The chains of `rules`, which take their links from `supply` in turn. -/
def chains : List Rule → List Char → List Rule
  | [], _ => []
  | r :: rules, supply =>
    chain r.lhs r.rhs (supply.take r.surplus) ++ chains rules (supply.drop r.surplus)

def Grammar.splitLong (g : Grammar) : Except NormalFormError Grammar := do
  let (fresh, h) ← g.allocate (surplus g.rules)
  return { h with rules := Ascending.ofList (chains g.rules fresh) }

end WordProblem
