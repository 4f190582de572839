import WordProblem.Symbol

/-! # Alphabets

An alphabet lists the characters that may become non-terminals and those that may
become terminals. The order of the non-terminals is the order in which a
normalization takes new ones, and their number bounds those of a grammar.
-/
namespace WordProblem

inductive DeclarationError where
  | notInAlphabet (c : Char)
  | undeclaredNonterminal (c : Char)
  | undeclaredSymbol (c : Char)
  | malformedRule (text : List Char)
  | sharedCharacter (c : Char)
deriving DecidableEq

def DeclarationError.message : DeclarationError → String
  | notInAlphabet c => s!"The symbol '{c}' is not allowed here"
  | undeclaredNonterminal c => s!"The non-terminal '{c}' has not been declared"
  | undeclaredSymbol c => s!"The symbol '{c}' on the right-hand side has not been declared"
  | malformedRule text =>
    "Malformed rule '" ++ String.ofList text ++ "': expected '->' after the left-hand side"
  | sharedCharacter c => s!"The symbol '{c}' is part of both alphabets"

structure Alphabet where
  nonterminals : List Char
  terminals : List Char
deriving DecidableEq

namespace Alphabet

/-- Keeps the first occurrence of each character; the first terminal that is also a
non-terminal is refused. -/
def ofLists (nonterminals terminals : List Char) : Except DeclarationError Alphabet :=
  match terminals.find? (nonterminals.contains ·) with
  | some c => .error (.sharedCharacter c)
  | none => .ok ⟨nonterminals.eraseDups, terminals.eraseDups⟩

/-- Capital letters, and small letters with digits and the signs of arithmetic. -/
def standard : Alphabet where
  nonterminals :=
    ['A', 'B', 'C', 'D', 'E', 'F', 'G', 'H', 'I', 'J', 'K', 'L', 'M', 'N', 'O', 'P', 'Q',
      'R', 'S', 'T', 'U', 'V', 'W', 'X', 'Y', 'Z']
  terminals :=
    ['a', 'b', 'c', 'd', 'e', 'f', 'g', 'h', 'i', 'j', 'k', 'l', 'm', 'n', 'o', 'p', 'q',
      'r', 's', 't', 'u', 'v', 'w', 'x', 'y', 'z', '1', '2', '3', '4', '5', '6', '7', '8',
      '9', '0', '(', ')', '+', '-', '=', '*', '/', '%']

instance : Inhabited Alphabet := ⟨standard⟩

def choose : Option (List Char × List Char) → Except DeclarationError Alphabet
  | none => .ok standard
  | some (nonterminals, terminals) => ofLists nonterminals terminals

def hasTerminal (a : Alphabet) (c : Char) : Bool := a.terminals.contains c

def hasNonterminal (a : Alphabet) (c : Char) : Bool := a.nonterminals.contains c

def symbol (a : Alphabet) (c : Char) : Except DeclarationError Symbol :=
  if a.hasTerminal c then .ok (.terminal c)
  else if a.hasNonterminal c then .ok (.nonterminal c)
  else .error (.notInAlphabet c)

end Alphabet

end WordProblem
