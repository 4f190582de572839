import WordProblem.Command.Options
import WordProblem.Description.Document.Writer
import WordProblem.Recognizer.Basic

/-! # Runs of the tools

A run ends with a code and what it prints. It reads a grammar file first and may need the
standard input or write a file, which it asks for at its end.
-/
namespace WordProblem.CommandLine
open Description (Content LoadError)

structure Outcome where
  code : Nat
  stdout : List Char := []
  stderr : List Char := []
deriving DecidableEq

def Outcome.failed (reason : String) : Outcome where
  code := 1
  stderr := ("error: " ++ reason).toList ++ ['\n']

def Outcome.usage : Outcome where code := 2

/-- The run breaks off where it is. -/
def Outcome.crashed (reason : String) : Outcome where
  code := 101
  stderr := reason.toList ++ ['\n']

inductive Ending where
  | done (o : Outcome)
  | read (answer : List UInt8 → Outcome)
  | write (file : List Char) (content : List Char)

/-- The outcome, given the standard input and why a file cannot be written, if it cannot. -/
def Ending.outcome (input : List UInt8) (refusal : Option String) : Ending → Outcome
  | done o => o
  | read answer => answer input
  | write _ _ =>
    match refusal with
    | none => { code := 0 }
    | some reason => .failed reason

/-- An overflow is the one error that is not reported. -/
def Outcome.ofLoadError (e : LoadError) : Outcome :=
  match e.cause with
  | .overflow => .crashed e.cause.message
  | _ => .failed e.message

/-- The words of the grammar file and its grammar, or how the run ends without them. -/
def Options.load (o : Options) (file : Content) :
    Except Outcome (List (List Char) × Grammar) := do
  let d ← (Description.File.load ⟨String.ofList o.grammar, o.format, file⟩).mapError .ofLoadError
  let g ← (Description.assemble .standard [d] o.start).mapError (.failed ·.message)
  return (d.words, g)

/-- The answer to a word, which may have blanks at its end. -/
def answer (r : Recognizer) (word : List Char) : List Char :=
  (if r.accepts (Text.trimEnd word) then "Yes" else "No").toList ++ ['\n']

def answers (r : Recognizer) (notes : List Char) (words : List (List Char)) : Outcome where
  code := 0
  stdout := words.flatMap (answer r)
  stderr := notes

def answerLines (r : Recognizer) (notes : List Char) (input : List UInt8) : Outcome :=
  match Utf8.decode? input with
  | some cs => answers r notes (Text.lines cs)
  | none =>
    let o := Outcome.failed Description.notUtf8Reason
    { o with stderr := notes ++ o.stderr }

/-- Words come from the arguments, else from the grammar file, else from the standard input. -/
def Options.decide (o : Options) (file : Content) : Ending :=
  match o.load file with
  | .error out => .done out
  | .ok (queries, g) =>
    match Recognizer.ofGrammar g with
    | .error e => .done (.failed e.message)
    | .ok r =>
      let notes := if o.verbose then r.grammar.display ++ ['\n'] else []
      if !o.words.isEmpty then .done (answers r notes o.words)
      else if !queries.isEmpty then .done (answers r notes queries)
      else .read (answerLines r notes)

def Options.emit (o : Options) (file : Content) : Ending :=
  match o.load file with
  | .error out => .done out
  | .ok (_, g) =>
    match if o.raw then .ok g else g.normalForm with
    | .error e => .done (.failed e.message)
    | .ok g =>
      if o.text then .done { code := 0, stdout := g.display }
      else
        match o.output with
        | some name => .write name g.document
        | none => .done { code := 0, stdout := g.document }

def Options.run (o : Options) (file : Content) : Ending :=
  match o.tool with
  | .decide => o.decide file
  | .emit => o.emit file

end WordProblem.CommandLine
