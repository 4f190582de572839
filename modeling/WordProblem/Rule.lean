import WordProblem.Symbol

/-! # Production rules

A rule turns one non-terminal into a sequence of symbols. Rules are ordered by
their left sides and then by their right sides, lexicographically.
-/
namespace WordProblem

structure Rule where
  lhs : Char
  rhs : List Symbol
deriving DecidableEq

namespace Rule

def isEpsilon (r : Rule) : Bool := r.rhs.isEmpty

/-- `A -> B` with a non-terminal `B`. -/
def isUnit (r : Rule) : Bool :=
  match r.rhs with
  | [.nonterminal _] => true
  | _ => false

/-- The non-terminals of the right side, from left to right. -/
def nonterminals (r : Rule) : List Char := r.rhs.filterMap Symbol.nonterminal?

def terminals (r : Rule) : List Char := r.rhs.filterMap Symbol.terminal?

def uses (r : Rule) (c : Char) : Bool := r.rhs.contains (.nonterminal c)

/-- The order of rules: by left side, then by right side, a proper beginning first. -/
def Below (a b : Rule) : Prop :=
  a.lhs < b.lhs ∨ a.lhs = b.lhs ∧ List.Lex (· < ·) a.rhs b.rhs

instance : LT Rule := ⟨Below⟩

instance decidableLT : DecidableLT Rule := fun a b =>
  inferInstanceAs (Decidable (a.lhs < b.lhs ∨ a.lhs = b.lhs ∧ List.Lex (· < ·) a.rhs b.rhs))

def body (r : Rule) : List Char := r.rhs.map Symbol.name

/-- A rule as read by people: `A -> w`, with `ε` for an empty right side. -/
def display (r : Rule) : List Char :=
  r.lhs :: [' ', '-', '>', ' '] ++ if r.isEpsilon then ['ε'] else r.body

/-- A rule as written in grammar files: `A->w`. -/
def text (r : Rule) : List Char := r.lhs :: '-' :: '>' :: r.body

end Rule

end WordProblem
