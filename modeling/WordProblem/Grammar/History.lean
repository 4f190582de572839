import WordProblem.Normal.Chomsky

/-! # How grammars come about

Every grammar begins empty over an alphabet and goes through declarations and passes. All of
them keep it well formed: it declares symbols of its alphabet only, and its rules hold
declared symbols only.
-/
namespace WordProblem

def Alphabet.Chosen (a : Alphabet) : Prop := ∃ lists, Alphabet.choose lists = .ok a

/-- No character is listed twice. -/
structure Alphabet.WellFormed (a : Alphabet) : Prop where
  nonterminals_nodup : a.nonterminals.Nodup
  terminals_nodup : a.terminals.Nodup
  disjoint : ∀ c ∈ a.nonterminals, c ∉ a.terminals

def Grammar.Declares (g : Grammar) : Symbol → Prop
  | .terminal c => c ∈ g.terminals
  | .nonterminal c => c ∈ g.nonterminals

structure Grammar.WellFormed (g : Grammar) : Prop where
  alphabet : g.alphabet.WellFormed
  nonterminals_ascending : g.nonterminals.Pairwise (· < ·)
  nonterminals_subset : ∀ c ∈ g.nonterminals, c ∈ g.alphabet.nonterminals
  terminals_ascending : g.terminals.Pairwise (· < ·)
  terminals_subset : ∀ c ∈ g.terminals, c ∈ g.alphabet.terminals
  rules_ascending : g.rules.Pairwise (· < ·)
  lhs_declared : ∀ r ∈ g.rules, r.lhs ∈ g.nonterminals
  rhs_declared : ∀ r ∈ g.rules, ∀ s ∈ r.rhs, g.Declares s

/-- The grammars that declarations and passes lead to. -/
inductive Grammar.Built : Grammar → Prop
  | empty {a : Alphabet} (h : a.Chosen) : Built (.empty a)
  | declare {g h : Grammar} {d : Declaration} (hg : Built g) (hd : g.declare d = .ok h) : Built h
  | pass {g h : Grammar} {p : Pass} (hg : Built g) (hp : p.apply g = .ok h) : Built h

end WordProblem
