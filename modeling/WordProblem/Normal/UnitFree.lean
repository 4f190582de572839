import WordProblem.Grammar.Reach

/-! # Removal of unit rules

Every non-terminal takes over the other rules of all non-terminals that it reaches by
unit rules.
-/
namespace WordProblem.Grammar

/-- What `a` takes over: the rules, other than unit rules, of all non-terminals it reaches. -/
def inherited (g : Grammar) (unitEdges : List Edge) (a : Char) : List Rule :=
  (reach unitEdges a).flatMap fun b =>
    ((g.rulesOf b).filter (!·.isUnit)).map fun r => ⟨a, r.rhs⟩

/-- No rule is lost on a cycle of unit rules, because its non-terminals reach each other. -/
def dropUnits (g : Grammar) : Grammar :=
  let unitEdges := g.unitEdges
  { g with rules := Ascending.ofList (g.nonterminals.flatMap (g.inherited unitEdges)) }

end WordProblem.Grammar
