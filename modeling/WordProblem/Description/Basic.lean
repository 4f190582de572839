import WordProblem.Grammar.Basic

/-! # Grammar descriptions

What a grammar file says: characters to declare, rules as texts, a start symbol and words
to decide. Several descriptions together describe one grammar.
-/
namespace WordProblem

structure Description where
  nonterminals : List Char
  terminals : List Char
  start : Option Char := none
  rules : List (List Char) := []
  words : List (List Char) := []
deriving DecidableEq

namespace Description

def symbols (d : Description) : List Declaration :=
  d.nonterminals.map .nonterminal ++ d.terminals.map .terminal

/-- The start symbol: `override` if there is one, or the first one that a part gives. -/
def chooseStart (parts : List Description) (override : Option Char) : Option Char :=
  override.or (parts.findSome? (·.start))

/-- All symbols are declared before the first rule, and the start symbol comes last. -/
def declarations (parts : List Description) (override : Option Char) : List Declaration :=
  parts.flatMap symbols ++ parts.flatMap (·.rules.map .ruleText) ++
    (chooseStart parts override).toList.map .start

def assemble (a : Alphabet) (parts : List Description) (override : Option Char) :
    Except DeclarationError Grammar :=
  (Grammar.empty a).declareAll (declarations parts override)

def allWords (parts : List Description) : List (List Char) := parts.flatMap (·.words)

def ofGrammar (g : Grammar) : Description where
  nonterminals := g.nonterminals
  terminals := g.terminals
  start := some g.start
  rules := g.rules.map Rule.text

end Description

end WordProblem
