import WordProblem.Description.File

/-! # Options of the command line

There are two tools. One decides words, the other one writes a grammar in normal form. Each
takes options of its own, in their long or short forms and in any order, and none twice.
-/
namespace WordProblem.CommandLine
open Description (Format)

inductive Tool where
  | decide
  | emit
deriving DecidableEq

def Tool.ofName? (name : String) : Option Tool :=
  if name = "decide" then some .decide else if name = "emit" then some .emit else none

inductive Key where
  | grammar
  | format
  | start
  | verbose
  | output
  | text
  | raw
deriving DecidableEq

namespace Key

def long : Key → String
  | grammar => "grammar"
  | format => "format"
  | start => "start"
  | verbose => "verbose"
  | output => "output"
  | text => "text"
  | raw => "raw"

def short? : Key → Option Char
  | grammar => some 'g'
  | start => some 's'
  | verbose => some 'v'
  | output => some 'o'
  | format | text | raw => none

def isFlag : Key → Bool
  | verbose | text | raw => true
  | grammar | format | start | output => false

end Key

def Tool.keys : Tool → List Key
  | decide => [.grammar, .format, .start, .verbose]
  | emit => [.grammar, .format, .start, .output, .text, .raw]

abbrev Argument := List Char

/-- An option with its value; flags have an empty one. -/
abbrev Setting := Key × List Char

/-- What arguments say, as far as they have been read. -/
structure Scan where
  settings : List Setting := []
  words : List (List Char) := []
  /-- An option whose value is the next argument. -/
  pending : Option Key := none
  /-- Whether everything that follows is a word. -/
  wordsOnly : Bool := false

namespace Scan

def set (s : Scan) (k : Key) (value : List Char) : Option Scan :=
  if s.settings.any (·.1 = k) then none
  else some { s with settings := s.settings ++ [(k, value)], pending := none }

/-- An option, with a value if one is attached to it. -/
def option (s : Scan) (k : Key) (value : Option (List Char)) : Option Scan :=
  match k.isFlag, value with
  | true, none => s.set k []
  | true, some _ => none
  | false, some v => s.set k v
  | false, none => some { s with pending := some k }

def long (s : Scan) (keys : List Key) (body : List Char) : Option Scan := do
  let k ← keys.find? (·.long.toList = body.takeWhile (· ≠ '='))
  s.option k (match body.dropWhile (· ≠ '=') with
    | _ :: value => some value
    | [] => none)

/-- Flags in their short forms may stand together, and a value may follow its option. -/
def short (s : Scan) (keys : List Key) : List Char → Option Scan
  | [] => some s
  | c :: rest => do
    let k ← keys.find? (·.short? = some c)
    if k.isFlag then (← s.set k []).short keys rest
    else
      match rest with
      | [] => s.option k none
      | '=' :: value => s.option k (some value)
      | value => s.option k (some value)

/-- A value may not look like an option. -/
def value (s : Scan) (k : Key) : Argument → Option Scan
  | '-' :: _ :: _ => none
  | v => s.set k v

def argument (keys : List Key) (s : Scan) (a : Argument) : Option Scan :=
  if s.wordsOnly then some { s with words := s.words ++ [a] }
  else
    match s.pending, a with
    | some k, a => s.value k a
    | none, ['-', '-'] => some { s with wordsOnly := true }
    | none, '-' :: '-' :: body => s.long keys body
    | none, '-' :: c :: rest => s.short keys (c :: rest)
    | none, word => some { s with words := s.words ++ [word] }

def value? (s : Scan) (k : Key) : Option (List Char) := s.settings.lookup k

end Scan

structure Options where
  tool : Tool
  grammar : List Char
  format : Format
  start : Option Char
  verbose : Bool
  output : Option (List Char)
  text : Bool
  raw : Bool
  words : List (List Char)
deriving DecidableEq

def format? : Option (List Char) → Option Format
  | none => some .plain
  | some cs =>
    if cs = "plain".toList then some .plain else if cs = "json".toList then some .json else none

def start? : Option (List Char) → Option (Option Char)
  | none => some none
  | some [c] => some (some c)
  | some _ => none

/-- What the arguments of a tool ask for, unless they are wrong. -/
def Options.ofArguments? (tool : Tool) (arguments : List Argument) : Option Options := do
  let s ← arguments.foldlM (Scan.argument tool.keys) {}
  let grammar ← s.value? .grammar
  let format ← format? (s.value? .format)
  let start ← start? (s.value? .start)
  guard (s.pending.isNone && (tool = .decide || s.words.isEmpty))
  return {
    tool, grammar, format, start
    verbose := (s.value? .verbose).isSome
    output := s.value? .output
    text := (s.value? .text).isSome
    raw := (s.value? .raw).isSome
    words := s.words }

end WordProblem.CommandLine
