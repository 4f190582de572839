import WordProblem.Alphabet
import WordProblem.Ascending
import WordProblem.Rule

/-! # Context-free grammars

A grammar declares symbols of its alphabet, holds rules over the declared symbols
and names a start symbol. Declared symbols and rules are ascending lists. The start
symbol is `S` until another one is chosen, whether `S` is declared or not.
-/
namespace WordProblem

structure Grammar where
  alphabet : Alphabet
  nonterminals : List Char := []
  terminals : List Char := []
  rules : List Rule := []
  start : Char := 'S'
deriving DecidableEq

namespace Grammar

def empty (a : Alphabet) : Grammar := { alphabet := a }

def declareNonterminal (g : Grammar) (c : Char) : Except DeclarationError Grammar :=
  if g.alphabet.hasNonterminal c then
    .ok { g with nonterminals := Ascending.insert c g.nonterminals }
  else .error (.notInAlphabet c)

def declareTerminal (g : Grammar) (c : Char) : Except DeclarationError Grammar :=
  if g.alphabet.hasTerminal c then
    .ok { g with terminals := Ascending.insert c g.terminals }
  else .error (.notInAlphabet c)

def symbol (g : Grammar) (c : Char) : Except DeclarationError Symbol :=
  if c ∈ g.nonterminals then .ok (.nonterminal c)
  else if c ∈ g.terminals then .ok (.terminal c)
  else .error (.undeclaredSymbol c)

/-- Adds `lhs -> rhs`, where every character of `rhs` stands for one symbol. -/
def addRule (g : Grammar) (lhs : Char) (rhs : List Char) : Except DeclarationError Grammar :=
  if lhs ∈ g.nonterminals then do
    let symbols ← rhs.mapM g.symbol
    return { g with rules := Ascending.insert ⟨lhs, symbols⟩ g.rules }
  else .error (.undeclaredNonterminal lhs)

/-- Adds a rule written as `A->w`. -/
def addRuleText (g : Grammar) : List Char → Except DeclarationError Grammar
  | lhs :: '-' :: '>' :: rhs => g.addRule lhs rhs
  | text => .error (.malformedRule text)

def setStart (g : Grammar) (c : Char) : Except DeclarationError Grammar :=
  if c ∈ g.nonterminals then .ok { g with start := c }
  else .error (.undeclaredNonterminal c)

/-- The rules with left side `c`: those from `c -> ε` on, up to another left side. -/
def rulesOf (g : Grammar) (c : Char) : List Rule :=
  (g.rules.dropWhile (· < ⟨c, []⟩)).takeWhile (·.lhs = c)

def rulesUsing (g : Grammar) (c : Char) : List Rule := g.rules.filter (·.uses c)

def hasRule (g : Grammar) (r : Rule) : Bool := g.rules.contains r

def line (label : String) (cs : List Char) : List Char := label.toList ++ cs ++ ['\n']

def display (g : Grammar) : List Char :=
  line "Start: " [g.start] ++ line "Non-terminals: " g.nonterminals ++
    line "Terminals: " g.terminals ++ line "Rules:" [] ++
    g.rules.flatMap (fun r => line "  " r.display)

end Grammar

inductive Declaration where
  | nonterminal (c : Char)
  | terminal (c : Char)
  | rule (lhs : Char) (rhs : List Char)
  | ruleText (text : List Char)
  | start (c : Char)
deriving DecidableEq

namespace Grammar

def declare (g : Grammar) : Declaration → Except DeclarationError Grammar
  | .nonterminal c => g.declareNonterminal c
  | .terminal c => g.declareTerminal c
  | .rule lhs rhs => g.addRule lhs rhs
  | .ruleText text => g.addRuleText text
  | .start c => g.setStart c

/-- Makes declarations in order up to the first one that is refused. What was declared
before it stays. -/
def declareUntilRefused (g : Grammar) : List Declaration → Grammar × Option DeclarationError
  | [] => (g, none)
  | d :: ds =>
    match g.declare d with
    | .ok next => next.declareUntilRefused ds
    | .error e => (g, some e)

/-- Makes all declarations in order, or none of them. -/
def declareAll (g : Grammar) (ds : List Declaration) : Except DeclarationError Grammar :=
  ds.foldlM declare g

end Grammar

end WordProblem
