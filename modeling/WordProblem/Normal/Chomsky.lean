import WordProblem.Normal.Binary
import WordProblem.Normal.EpsilonFree
import WordProblem.Normal.Isolated
import WordProblem.Normal.UnitFree
import WordProblem.Normal.Useful

/-! # Chomsky normal form

A right side is one terminal or two non-terminals. Only the start symbol may produce the
empty word, and then it stands on no right side.
-/
namespace WordProblem

/-- Whether a rule may stand in a grammar in normal form with the start symbol `start`,
which produces the empty word if `nullable` says so. -/
def Rule.isNormal (start : Char) (nullable : Bool) (r : Rule) : Bool :=
  match r.rhs with
  | [] => r.lhs == start
  | [s] => s.isTerminal
  | [a, b] => a.isNonterminal && b.isNonterminal && !(nullable && r.uses start)
  | _ => false

namespace Grammar

def offendingRule? (g : Grammar) : Option Rule :=
  let nullable := g.hasRule ⟨g.start, []⟩
  g.rules.find? fun r => !r.isNormal g.start nullable

def isNormal (g : Grammar) : Bool := g.offendingRule?.isNone

/-- An equivalent grammar in normal form. The order of the passes matters: removing empty
right sides needs short ones, and removing unit rules needs all of them to be there. -/
def normalForm (g : Grammar) : Except NormalFormError Grammar :=
  if g.start ∈ g.nonterminals then do
    let g ← g.dropBarren
    let g ← g.dropUnreachable.isolateTerminals
    let g ← g.splitLong
    let g ← g.dropEpsilon
    return g.dropUnits
  else .error (.undeclaredStart g.start)

end Grammar

inductive Pass where
  | dropBarren
  | dropUnreachable
  | isolateTerminals
  | splitLong
  | dropEpsilon
  | dropUnits
  | normalForm
deriving DecidableEq

namespace Pass

/-- The passes that lead to the normal form, in their order. -/
def pipeline : List Pass :=
  [dropBarren, dropUnreachable, isolateTerminals, splitLong, dropEpsilon, dropUnits]

def apply (g : Grammar) : Pass → Except NormalFormError Grammar
  | dropBarren => g.dropBarren
  | dropUnreachable => .ok g.dropUnreachable
  | isolateTerminals => g.isolateTerminals
  | splitLong => g.splitLong
  | dropEpsilon => g.dropEpsilon
  | dropUnits => .ok g.dropUnits
  | normalForm => g.normalForm

/-- The grammars that passes lead to, one after another, up to the first failure. -/
def trace (g : Grammar) : List Pass → List Grammar × Option NormalFormError
  | [] => ([], none)
  | p :: ps =>
    match p.apply g with
    | .error e => ([], some e)
    | .ok h =>
      let (later, e) := trace h ps
      (h :: later, e)

end Pass

end WordProblem
