import WordProblem.Normal.Chomsky
import WordProblem.Recognizer.Filling

/-! # Recognizers

A recognizer holds a grammar in normal form, and the same grammar with numbered
non-terminals, and decides whether words belong to its language.
-/
namespace WordProblem

structure Recognizer where
  grammar : Grammar
  numbered : Numbered

namespace Recognizer

/-- A recognizer for a grammar in normal form, which is not checked. -/
def ofNormal (g : Grammar) : Recognizer := ⟨g, g.numbered⟩

def ofGrammar (g : Grammar) : Except NormalFormError Recognizer := ofNormal <$> g.normalForm

/-- A recognizer for a grammar that is in normal form already. -/
def ofNormal? (g : Grammar) : Except NormalFormError Recognizer :=
  if g.start ∈ g.nonterminals then
    match g.offendingRule? with
    | some r => .error (.offendingRule r)
    | none => .ok (ofNormal g)
  else .error (.undeclaredStart g.start)

/-- Takes another grammar, or stays as it was if that grammar has no normal form. -/
def adopt (r : Recognizer) (g : Grammar) : Recognizer × Option NormalFormError :=
  match ofGrammar g with
  | .ok next => (next, none)
  | .error e => (r, some e)

def accepts (r : Recognizer) (word : List Char) : Bool := r.numbered.accepts word

end Recognizer

end WordProblem
