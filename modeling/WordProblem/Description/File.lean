import WordProblem.Description.Document.Reader
import WordProblem.Description.Plain

/-! # Grammar files

A file is read as a whole in one of the two formats.
-/
namespace WordProblem.Description

inductive Format where
  | plain
  | json
deriving DecidableEq

/-- The bytes of a file, or why it cannot be read. -/
abbrev Content := Except String (List UInt8)

inductive FileError where
  | unreadable (format : Format) (reason : String)
  | notUtf8
  /-- There cannot be a list of the rules. -/
  | overflow
  | plain (e : Plain.Error)
  | json (e : Document.Error)
deriving DecidableEq

def notUtf8Reason : String := "stream did not contain valid UTF-8"

def FileError.message : FileError → String
  | unreadable .plain reason => "Could not read file: " ++ reason
  | unreadable .json reason => "Could not open file: " ++ reason
  | notUtf8 => "Could not read file: " ++ notUtf8Reason
  | overflow => "capacity overflow"
  | plain e => e.message
  | json e => "Invalid grammar: " ++ e.message

def readPlain (bytes : List UInt8) : Except FileError Description :=
  match Utf8.decode? bytes with
  | some cs => if Plain.overfull cs then .error .overflow else (Plain.read cs).mapError .plain
  | none => .error .notUtf8

def ofFile (format : Format) : Content → Except FileError Description
  | .error reason => .error (.unreadable format reason)
  | .ok bytes =>
    match format with
    | .plain => readPlain bytes
    | .json => (Document.read bytes).mapError .json

structure LoadError where
  file : String
  cause : FileError
deriving DecidableEq

def LoadError.message (e : LoadError) : String :=
  "ParsingError in " ++ e.file ++ ": " ++ e.cause.message

structure File where
  name : String
  format : Format
  content : Content

def File.load (f : File) : Except LoadError Description :=
  (ofFile f.format f.content).mapError (⟨f.name, ·⟩)

/-- The descriptions in several files, up to the first one that describes no grammar. -/
def loadAll (files : List File) : Except LoadError (List Description) := files.mapM File.load

end WordProblem.Description
