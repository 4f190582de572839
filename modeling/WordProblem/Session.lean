import WordProblem.Description.Document.Writer
import WordProblem.Description.File
import WordProblem.Recognizer.Basic

/-! # Sessions

A session works on one grammar and keeps one recognizer, which does not follow the changes
of the grammar by itself. A command that fails leaves both as they were, except that the
declarations before a refused one stay.
-/
namespace WordProblem

inductive Failure where
  | declaration (e : DeclarationError)
  | normalForm (e : NormalFormError)
  | file (e : Description.FileError)
  | noRecognizer
deriving DecidableEq

def Failure.message : Failure → String
  | declaration e => e.message
  | normalForm e => e.message
  | file e => e.message
  | noRecognizer => "no recognizer has been fitted"

def Grammar.reload (g : Grammar) : Except Failure Grammar := do
  let d ← (Description.ofFile .json (.ok (Utf8.encode g.document))).mapError .file
  (Description.assemble g.alphabet [d] none).mapError .declaration

inductive Command where
  /-- Begins a new grammar over the given alphabet or the standard one. -/
  | reset (alphabet : Option (List Char × List Char))
  | declare (ds : List Declaration)
  | apply (p : Pass)
  | reload
  | rulesOf (c : Char)
  | rulesUsing (c : Char)
  | hasRule (r : Rule)
  | isNormal
  | inspect
  | display
  | document
  | alphabet
  | recognize
  | recognizeNormal
  | adopt
  | decide (words : List (List Char))
  | recognizer
deriving DecidableEq

inductive Reply where
  /-- The grammar after a change, and why the change was not made to its end. -/
  | grammar (g : Grammar) (failure : Option Failure)
  | rules (rs : List Rule)
  | inspection (rs : List Rule)
  | truth (b : Bool)
  | text (cs : List Char)
  | alphabet (a : Alphabet)
  /-- The grammar of the recognizer, and why it was not replaced. -/
  | normal (g : Grammar) (failure : Option Failure)
  | verdicts (bs : List Bool)
  | failed (failure : Failure)
deriving DecidableEq

structure Session where
  grammar : Grammar
  recognizer : Option Recognizer := none

namespace Session

def start (a : Alphabet) : Session := { grammar := .empty a }

def replace (s : Session) : Except Failure Grammar → Session × Reply
  | .ok g => ({ s with grammar := g }, .grammar g none)
  | .error e => (s, .grammar s.grammar (some e))

def declare (s : Session) (ds : List Declaration) : Session × Reply :=
  let (g, e) := s.grammar.declareUntilRefused ds
  ({ s with grammar := g }, .grammar g (e.map .declaration))

def install (s : Session) : Except NormalFormError Recognizer → Session × Reply
  | .ok r => ({ s with recognizer := some r }, .normal r.grammar none)
  | .error e => (s, .failed (.normalForm e))

def adopt (s : Session) : Session × Reply :=
  match s.recognizer with
  | none => (s, .failed .noRecognizer)
  | some r =>
    let (next, e) := r.adopt s.grammar
    ({ s with recognizer := some next }, .normal next.grammar (e.map .normalForm))

def ask (s : Session) (question : Recognizer → Reply) : Session × Reply :=
  match s.recognizer with
  | none => (s, .failed .noRecognizer)
  | some r => (s, question r)

def step (s : Session) : Command → Session × Reply
  | .reset lists => s.replace ((Grammar.empty <$> Alphabet.choose lists).mapError .declaration)
  | .declare ds => s.declare ds
  | .apply p => s.replace ((p.apply s.grammar).mapError .normalForm)
  | .reload => s.replace s.grammar.reload
  | .rulesOf c => (s, .rules (s.grammar.rulesOf c))
  | .rulesUsing c => (s, .rules (s.grammar.rulesUsing c))
  | .hasRule r => (s, .truth (s.grammar.hasRule r))
  | .isNormal => (s, .truth s.grammar.isNormal)
  | .inspect => (s, .inspection s.grammar.rules)
  | .display => (s, .text s.grammar.display)
  | .document => (s, .text s.grammar.document)
  | .alphabet => (s, .alphabet s.grammar.alphabet)
  | .recognize => s.install (Recognizer.ofGrammar s.grammar)
  | .recognizeNormal => s.install (Recognizer.ofNormal? s.grammar)
  | .adopt => s.adopt
  | .decide words => s.ask fun r => .verdicts (words.map r.accepts)
  | .recognizer => s.ask fun r => .normal r.grammar none

def run (s : Session) : List Command → List Reply
  | [] => []
  | c :: cs =>
    let (next, reply) := s.step c
    reply :: next.run cs

end Session

end WordProblem
