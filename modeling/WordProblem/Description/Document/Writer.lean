import WordProblem.Description.Basic
import WordProblem.Json.Literal

/-! # Writing a grammar document

A description as a JSON object with one field a line. A start symbol or words that are not
there are left out.
-/
namespace WordProblem.Description.Document

def indent (depth : Nat) : List Char := List.replicate (4 * depth) ' '

/-- Items between brackets, each on a line of its own. -/
def block (first last : Char) (depth : Nat) (items : List (List Char)) : List Char :=
  if items.isEmpty then [first, last]
  else
    first :: List.intercalate [','] (items.map fun i => '\n' :: indent (depth + 1) ++ i) ++
      '\n' :: indent depth ++ [last]

def field (name : String) (value : List Char) : List Char :=
  Json.quote name.toList ++ [':', ' '] ++ value

def texts (cs : List (List Char)) : List Char := block '[' ']' 1 (cs.map Json.quote)

def write (d : Description) : List Char :=
  block '{' '}' 0
    ([field "nonterminals" (Json.quote d.nonterminals), field "terminals" (Json.quote d.terminals)] ++
      d.start.toList.map (fun c => field "start" (Json.quote [c])) ++
      [field "rules" (texts d.rules)] ++
      (if d.words.isEmpty then [] else [field "words" (texts d.words)])) ++ ['\n']

end WordProblem.Description.Document

def WordProblem.Grammar.document (g : Grammar) : List Char :=
  Description.Document.write (Description.ofGrammar g)
