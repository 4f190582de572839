import WordProblem.Description.Basic
import WordProblem.Text.Blank
import WordProblem.Text.Count

/-! # The plain format

A grammar as tokens between blanks: the numbers of non-terminals, terminals and rules, the
non-terminals, the terminals, the rules, the start symbol and, if there are any, the number
of words and the words. Of the counts only those of the rules and of the words matter, and
what follows the words does not. A list of the rules is set up before the first of them is read,
and it cannot be arbitrarily long.
-/
namespace WordProblem.Description.Plain

inductive Item where
  | nonterminalCount
  | terminalCount
  | ruleCount
  | nonterminals
  | terminals
  | rule
  | start
  | wordCount
  | word
deriving DecidableEq

def Item.name : Item → String
  | nonterminalCount => "number of non-terminals"
  | terminalCount => "number of terminals"
  | ruleCount => "number of rules"
  | nonterminals => "non-terminals"
  | terminals => "terminals"
  | rule => "a rule"
  | start => "the start symbol"
  | wordCount => "number of words"
  | word => "a word"

inductive Error where
  | missing (item : Item)
  | notCount (item : Item) (token : List Char)
  | longStart (token : List Char)
deriving DecidableEq

def Error.message : Error → String
  | missing item => "Unexpected end of input, expected " ++ item.name
  | notCount item token => "Expected " ++ item.name ++ " but got '" ++ String.ofList token ++ "'"
  | longStart token =>
    "Start symbol must be a single character but got '" ++ String.ofList token ++ "'"

abbrev Tokens := List (List Char)

def one (item : Item) : Tokens → Except Error (List Char × Tokens)
  | [] => .error (.missing item)
  | t :: ts => .ok (t, ts)

def count (item : Item) : Tokens → Except Error (Nat × Tokens)
  | [] => .error (.missing item)
  | t :: ts =>
    match Text.count? t with
    | some n => .ok (n, ts)
    | none => .error (.notCount item t)

def many (item : Item) (n : Nat) (ts : Tokens) : Except Error (Tokens × Tokens) :=
  if n ≤ ts.length then .ok (ts.splitAt n) else .error (.missing item)

/-- The words at the end; there need not be any. -/
def words : Tokens → Except Error Tokens
  | [] => .ok []
  | ts => do
    let (n, ts) ← count .wordCount ts
    let (words, _) ← many .word n ts
    return words

/-- What stands before the rules. -/
structure Header where
  ruleCount : Nat
  nonterminals : List Char
  terminals : List Char

def header (ts : Tokens) : Except Error (Header × Tokens) := do
  let (_, ts) ← count .nonterminalCount ts
  let (_, ts) ← count .terminalCount ts
  let (n, ts) ← count .ruleCount ts
  let (nonterminals, ts) ← one .nonterminals ts
  let (terminals, ts) ← one .terminals ts
  return (⟨n, nonterminals, terminals⟩, ts)

def ofTokens (ts : Tokens) : Except Error Description := do
  let (head, ts) ← header ts
  let (rules, ts) ← many .rule head.ruleCount ts
  let (start, ts) ← one .start ts
  match start with
  | [c] => return ⟨head.nonterminals, head.terminals, some c, rules, ← words ts⟩
  | _ => .error (.longStart start)

/-- The bytes that a rule takes in a list, without those of its characters. -/
def ruleSize : Nat := 24

/-- The first size in bytes that no list can have. -/
def listBound : Nat := 0x8000000000000000

/-- Whether no list can hold as many rules as a text announces. It is set up when all that stands
before the rules has been read. -/
def overfull (cs : List Char) : Bool :=
  match header (Text.tokens cs) with
  | .ok (head, _) => listBound ≤ head.ruleCount * ruleSize
  | .error _ => false

def read (cs : List Char) : Except Error Description := ofTokens (Text.tokens cs)

end WordProblem.Description.Plain
