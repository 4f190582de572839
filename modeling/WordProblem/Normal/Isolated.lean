import WordProblem.Normal.Fresh

/-! # Isolated terminals

A terminal that stands beside other symbols is replaced by a fresh non-terminal whose
only rule produces it. Each terminal has one such proxy throughout the grammar.
-/
namespace WordProblem

/-- Terminals with the non-terminals that stand for them. -/
abbrev Proxies := List (Char × Char)

/-- A terminal that has no proxy stays. -/
def Symbol.isolate (proxies : Proxies) : Symbol → Symbol
  | terminal c =>
    match proxies.lookup c with
    | some a => nonterminal a
    | none => terminal c
  | nonterminal c => nonterminal c

/-- Right sides of fewer than two symbols are left as they are. -/
def Rule.isolate (proxies : Proxies) (r : Rule) : Rule :=
  if r.rhs.length < 2 then r else { r with rhs := r.rhs.map (·.isolate proxies) }

namespace Grammar

/-- The terminals that stand beside other symbols, in ascending order. -/
def mixedTerminals (g : Grammar) : List Char :=
  Ascending.ofList ((g.rules.filter (2 ≤ ·.rhs.length)).flatMap Rule.terminals)

/-- Afterwards right sides of two or more symbols hold non-terminals only. -/
def isolateTerminals (g : Grammar) : Except NormalFormError Grammar := do
  let mixed := g.mixedTerminals
  let (fresh, h) ← g.allocate mixed.length
  let proxies := mixed.zip fresh
  return { h with
    rules := Ascending.ofList (g.rules.map (·.isolate proxies) ++
      proxies.map fun p => ⟨p.2, [.terminal p.1]⟩) }

end Grammar

end WordProblem
