import WordProblem.Grammar.Basic

/-! # The language of a grammar

A rule replaces one occurrence of its left side inside a sentential form. A word
belongs to a non-terminal if finitely many such steps lead from it to the word,
and to a grammar if it belongs to the start symbol.
-/
namespace WordProblem

abbrev Form := List Symbol

def Form.ofWord (w : List Char) : Form := w.map .terminal

namespace Grammar

inductive Step (g : Grammar) : Form → Form → Prop
  | replace (before after : Form) {r : Rule} (h : r ∈ g.rules) :
    Step g (before ++ .nonterminal r.lhs :: after) (before ++ r.rhs ++ after)

inductive Derives (g : Grammar) : Form → Form → Prop
  | refl (u : Form) : Derives g u u
  | tail {u v w : Form} (h : Derives g u v) (s : Step g v w) : Derives g u w

def Generates (g : Grammar) (a : Char) (w : List Char) : Prop :=
  g.Derives [.nonterminal a] (Form.ofWord w)

/-- The word `w` belongs to the language of the grammar. -/
def Accepts (g : Grammar) (w : List Char) : Prop := g.Generates g.start w

end Grammar

end WordProblem
