import WordProblem.Description.Basic
import WordProblem.Json.Token
import WordProblem.Text.Quoted

/-! # Grammar documents

A description as a JSON document: an object with named fields, or an array of the same
fields in their order. What can be wrong with a document is said in terms of its fields.
-/
namespace WordProblem.Description.Document

inductive Field where
  | nonterminals
  | terminals
  | start
  | rules
  | words
deriving DecidableEq

namespace Field

def name : Field → String
  | nonterminals => "nonterminals"
  | terminals => "terminals"
  | start => "start"
  | rules => "rules"
  | words => "words"

def all : List Field := [nonterminals, terminals, start, rules, words]

def ofName? (cs : List Char) : Option Field := all.find? (·.name.toList = cs)

def position (f : Field) : Nat := all.idxOf f

def next? (f : Field) : Option Field := all[f.position + 1]?

end Field

/-- What a document holds where something else was expected. -/
inductive Found where
  | null
  | bool (b : Bool)
  | number (v : Json.Numeral.Value)
  | text (cs : List Char)
  | array
  | object
deriving DecidableEq

def Found.name : Found → String
  | null => "null"
  | bool true => "boolean `true`"
  | bool false => "boolean `false`"
  | number (.integer i) => "integer `" ++ toString i ++ "`"
  | number (.real d) => "floating point `" ++ String.ofList d.display ++ "`"
  | text cs => "string " ++ String.ofList (Text.quoted cs)
  | array => "sequence"
  | object => "map"

/-- What a value is expected to be. -/
inductive Expected where
  | document
  | text
  | character
  | list
deriving DecidableEq

def Expected.name : Expected → String
  | document => "struct GrammarDescription"
  | text => "a string"
  | character => "a character"
  | list => "a sequence"

inductive Error where
  | malformed
  | duplicate (f : Field)
  | missing (f : Field)
  | unexpected (found : Found) (expected : Expected)
  | notCharacter (text : List Char)
  | tooShort (length : Nat)
deriving DecidableEq

def Error.message : Error → String
  | malformed => "malformed JSON"
  | duplicate f => "duplicate field `" ++ f.name ++ "`"
  | missing f => "missing field `" ++ f.name ++ "`"
  | unexpected found expected => "invalid type: " ++ found.name ++ ", expected " ++ expected.name
  | notCharacter text =>
    "invalid value: " ++ (Found.text text).name ++ ", expected " ++ Expected.character.name
  | tooShort n =>
    "invalid length " ++ toString n ++ ", expected " ++ Expected.document.name ++ " with 5 elements"

structure Draft where
  nonterminals : Option (List Char) := none
  terminals : Option (List Char) := none
  start : Option (Option Char) := none
  rules : Option (List (List Char)) := none
  words : Option (List (List Char)) := none
deriving DecidableEq

namespace Draft

def has (d : Draft) : Field → Bool
  | .nonterminals => d.nonterminals.isSome
  | .terminals => d.terminals.isSome
  | .start => d.start.isSome
  | .rules => d.rules.isSome
  | .words => d.words.isSome

/-- The first field that is missing. Start symbol and words may be left out. -/
def missing? (d : Draft) : Option Field :=
  [Field.nonterminals, .terminals, .rules].find? (!d.has ·)

def openList (d : Draft) : Field → Draft
  | .rules => { d with rules := some [] }
  | .words => { d with words := some [] }
  | _ => d

def append (d : Draft) (text : List Char) : Field → Draft
  | .rules => { d with rules := d.rules.map (· ++ [text]) }
  | .words => { d with words := d.words.map (· ++ [text]) }
  | _ => d

def description (d : Draft) : Description where
  nonterminals := d.nonterminals.getD []
  terminals := d.terminals.getD []
  start := d.start.getD none
  rules := d.rules.getD []
  words := d.words.getD []

end Draft

end WordProblem.Description.Document
