import WordProblem.Grammar.Basic

/-! # Fresh non-terminals

Normalization takes new non-terminals from the alphabet, in its order, and fails when
none is left.
-/
namespace WordProblem

inductive NormalFormError where
  | emptyLanguage (start : Char)
  | outOfNonterminals
  | undeclaredStart (start : Char)
  | offendingRule (r : Rule)
deriving DecidableEq

def NormalFormError.message : NormalFormError → String
  | emptyLanguage c => s!"The start symbol '{c}' does not generate any word"
  | outOfNonterminals => "No unused non-terminal left to allocate"
  | undeclaredStart c => s!"The start symbol '{c}' has not been declared"
  | offendingRule r =>
    "The grammar is not in Chomsky Normal Form: " ++ String.ofList r.display

namespace Grammar

def unused (g : Grammar) : List Char :=
  g.alphabet.nonterminals.filter fun c => !g.nonterminals.contains c

def allocate (g : Grammar) (n : Nat) : Except NormalFormError (List Char × Grammar) :=
  if g.unused.length < n then .error .outOfNonterminals
  else
    let fresh := g.unused.take n
    .ok (fresh, { g with nonterminals := fresh.foldr Ascending.insert g.nonterminals })

end Grammar

end WordProblem
