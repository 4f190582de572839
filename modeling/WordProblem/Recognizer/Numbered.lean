import WordProblem.Grammar.Basic

/-! # Numbered grammars

The rules of a grammar in normal form with its non-terminals replaced by their places in
the list of non-terminals.
-/
namespace WordProblem

/-- `lhs -> left right` -/
structure PairRule where
  lhs : Nat
  left : Nat
  right : Nat
deriving DecidableEq

structure Numbered where
  size : Nat
  /-- The rules `a -> c`, as `c` with the number of `a`. -/
  letterRules : List (Char × Nat)
  pairRules : List PairRule
  start : Nat
  /-- Whether the start symbol produces the empty word. -/
  acceptsEmpty : Bool
deriving DecidableEq

namespace Grammar

def number (g : Grammar) (a : Char) : Nat := g.nonterminals.idxOf a

def letterRule? (g : Grammar) (r : Rule) : Option (Char × Nat) :=
  match r.rhs with
  | [.terminal c] => some (c, g.number r.lhs)
  | _ => none

def pairRule? (g : Grammar) (r : Rule) : Option PairRule :=
  match r.rhs with
  | [.nonterminal b, .nonterminal c] => some ⟨g.number r.lhs, g.number b, g.number c⟩
  | _ => none

def numbered (g : Grammar) : Numbered where
  size := g.nonterminals.length
  letterRules := g.rules.filterMap g.letterRule?
  pairRules := g.rules.filterMap g.pairRule?
  start := g.number g.start
  acceptsEmpty := g.hasRule ⟨g.start, []⟩

end Grammar

def Numbered.producers (m : Numbered) (c : Char) : List Nat :=
  (m.letterRules.filter (·.1 = c)).map (·.2)

end WordProblem
