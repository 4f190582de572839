/-! # Symbols

A symbol is a terminal or a non-terminal, each named by one character. Every
terminal stands below every non-terminal; within a class the code point decides.
-/
namespace WordProblem

inductive Symbol where
  | terminal (c : Char)
  | nonterminal (c : Char)
deriving DecidableEq

namespace Symbol

def name : Symbol → Char
  | terminal c => c
  | nonterminal c => c

def isTerminal : Symbol → Bool
  | terminal _ => true
  | nonterminal _ => false

def isNonterminal : Symbol → Bool
  | terminal _ => false
  | nonterminal _ => true

def terminal? : Symbol → Option Char
  | terminal c => some c
  | nonterminal _ => none

def nonterminal? : Symbol → Option Char
  | terminal _ => none
  | nonterminal c => some c

/-- The order of symbols: terminals first, then by code point. -/
def Below : Symbol → Symbol → Prop
  | terminal a, terminal b => a < b
  | terminal _, nonterminal _ => True
  | nonterminal _, terminal _ => False
  | nonterminal a, nonterminal b => a < b

instance : LT Symbol := ⟨Below⟩

instance decidableLT : DecidableLT Symbol
  | terminal a, terminal b => inferInstanceAs (Decidable (a < b))
  | terminal _, nonterminal _ => .isTrue trivial
  | nonterminal _, terminal _ => .isFalse id
  | nonterminal a, nonterminal b => inferInstanceAs (Decidable (a < b))

end Symbol

end WordProblem
