import WordProblem.Description.Document.Basic

/-! # Reading a grammar document

A machine takes the tokens of a document one at a time and stops at the first one that is
out of place. Fields that a description does not have are passed over, whatever well-formed
value they hold.
-/
namespace WordProblem.Description.Document
open Json (Bracket Token)

/-- What a value that is passed over goes on with. -/
inductive Want where
  | value
  | valueOrEnd
  | name
  | nameOrEnd
  | colon
  | separator
deriving DecidableEq

/-- A value that is passed over: its open brackets, the innermost first, and what comes next. -/
structure Skip where
  brackets : List Bracket := []
  want : Want := .value
deriving DecidableEq

namespace Skip

def value? (s : Skip) : Token → Option Skip
  | .null | .bool _ | .number _ | .string _ => some { s with want := .separator }
  | .opening .square => some ⟨.square :: s.brackets, .valueOrEnd⟩
  | .opening .curly => some ⟨.curly :: s.brackets, .nameOrEnd⟩
  | _ => none

def name? (s : Skip) : Token → Option Skip
  | .string _ => some { s with want := .colon }
  | _ => none

def close (s : Skip) : Skip := ⟨s.brackets.tail, .separator⟩

def separator? (s : Skip) : Token → Option Skip
  | .comma =>
    match s.brackets with
    | .square :: _ => some { s with want := .value }
    | .curly :: _ => some { s with want := .name }
    | [] => none
  | .closing b => if s.brackets.head? = some b then some s.close else none
  | _ => none

def step? (s : Skip) (t : Token) : Option Skip :=
  match s.want with
  | .value => s.value? t
  | .valueOrEnd => if t = .closing .square then some s.close else s.value? t
  | .name => s.name? t
  | .nameOrEnd => if t = .closing .curly then some s.close else s.name? t
  | .colon => if t = .colon then some { s with want := .value } else none
  | .separator => s.separator? t

def isDone (s : Skip) : Bool := s.brackets.isEmpty && s.want = .separator

end Skip

/-- Where in a document the machine stands. -/
inductive Place where
  /-- Before the document. -/
  | outset
  /-- Before the name of a field. -/
  | name
  /-- After a name, which may be no field's. -/
  | colon (f : Option Field)
  /-- Before the value of a field. -/
  | value (f : Field)
  /-- Before a text in the list of a field. -/
  | item (f : Field)
  /-- After a text in the list of a field. -/
  | itemEnd (f : Field)
  /-- Inside a value that is passed over. -/
  | skip (s : Skip)
  /-- After a value, which may be no field's. -/
  | valueEnd (f : Option Field)
  | finish
deriving DecidableEq

structure State where
  /-- The bracket around the document. -/
  outer : Bracket := .curly
  draft : Draft := {}
  place : Place := .outset
  /-- Whether a bracket has just been opened, so that it may be closed at once. -/
  fresh : Bool := false
deriving DecidableEq

/-- The error of a token that begins no value of the expected kind. -/
def mismatch (expected : Expected) : Token → Error
  | .null => .unexpected .null expected
  | .bool b => .unexpected (.bool b) expected
  | .number n =>
    match n.value? with
    | some v => .unexpected (.number v) expected
    | none => .malformed
  | .string (some cs) => .unexpected (.text cs) expected
  | .opening .square => .unexpected .array expected
  | .opening .curly => .unexpected .object expected
  | _ => .malformed

namespace State

def goto (s : State) (p : Place) : State := { s with place := p, fresh := false }

/-- Moves past an opening bracket. -/
def enter (s : State) (p : Place) : State := { s with place := p, fresh := true }

/-- Ends the document, which must not lack a field. -/
def close (s : State) : Except Error State :=
  match s.draft.missing? with
  | none => .ok (s.goto .finish)
  | some f => .error (if s.outer = .curly then .missing f else .tooShort f.position)

def outset (s : State) : Token → Except Error State
  | .opening .curly => .ok ({ s with outer := .curly }.enter .name)
  | .opening .square => .ok ({ s with outer := .square }.enter (.value .nonterminals))
  | t => .error (mismatch .document t)

def name (s : State) : Token → Except Error State
  | .closing .curly => if s.fresh then s.close else .error .malformed
  | .string (some cs) =>
    match Field.ofName? cs with
    | some f => if s.draft.has f then .error (.duplicate f) else .ok (s.goto (.colon (some f)))
    | none => .ok (s.goto (.colon none))
  | _ => .error .malformed

def colon (s : State) (f : Option Field) : Token → Except Error State
  | .colon =>
    match f with
    | some f => .ok (s.goto (.value f))
    | none => .ok (s.goto (.skip {}))
  | _ => .error .malformed

/-- Moves past a value of the field `f` that leads to the draft `d`. -/
def put (s : State) (f : Field) (d : Draft) : State :=
  { s with draft := d }.goto (.valueEnd (some f))

def text (s : State) (f : Field) (write : List Char → Draft) : Token → Except Error State
  | .string (some cs) => .ok (s.put f (write cs))
  | t => .error (mismatch .text t)

def character (s : State) (f : Field) (write : Option Char → Draft) : Token → Except Error State
  | .null => .ok (s.put f (write none))
  | .string (some [c]) => .ok (s.put f (write (some c)))
  | .string (some cs) => .error (.notCharacter cs)
  | t => .error (mismatch .character t)

def list (s : State) (f : Field) : Token → Except Error State
  | .opening .square => .ok ({ s with draft := s.draft.openList f }.enter (.item f))
  | t => .error (mismatch .list t)

def value (s : State) (f : Field) (t : Token) : Except Error State :=
  if t = .closing .square ∧ s.fresh then s.close
  else
    match f with
    | .nonterminals => s.text f (fun cs => { s.draft with nonterminals := some cs }) t
    | .terminals => s.text f (fun cs => { s.draft with terminals := some cs }) t
    | .start => s.character f (fun c => { s.draft with start := some c }) t
    | .rules | .words => s.list f t

def item (s : State) (f : Field) : Token → Except Error State
  | .closing .square =>
    if s.fresh then .ok (s.goto (.valueEnd (some f))) else .error .malformed
  | .string (some cs) => .ok ({ s with draft := s.draft.append cs f }.goto (.itemEnd f))
  | t => .error (mismatch .text t)

def itemEnd (s : State) (f : Field) : Token → Except Error State
  | .comma => .ok (s.goto (.item f))
  | .closing .square => .ok (s.goto (.valueEnd (some f)))
  | _ => .error .malformed

def skip (s : State) (k : Skip) (t : Token) : Except Error State :=
  match k.step? t with
  | some next => .ok (s.goto (if next.isDone then .valueEnd none else .skip next))
  | none => .error .malformed

/-- In an array the next field follows a comma, in an object the next name. -/
def valueEnd (s : State) (f : Option Field) : Token → Except Error State
  | .comma =>
    match s.outer, f.bind Field.next? with
    | .curly, _ => .ok (s.goto .name)
    | .square, some next => .ok (s.goto (.value next))
    | .square, none => .error .malformed
  | .closing b => if b = s.outer then s.close else .error .malformed
  | _ => .error .malformed

def step (s : State) (t : Token) : Except Error State :=
  match s.place with
  | .outset => s.outset t
  | .name => s.name t
  | .colon f => s.colon f t
  | .value f => s.value f t
  | .item f => s.item f t
  | .itemEnd f => s.itemEnd f t
  | .skip k => s.skip k t
  | .valueEnd f => s.valueEnd f t
  | .finish => .error .malformed

end State

/-- The description that the tokens of a document make up. -/
def ofTokens (ts : List Token) : Except Error Description := do
  let s ← ts.foldlM State.step {}
  if s.place = .finish then return s.draft.description else .error .malformed

def read (bytes : List UInt8) : Except Error Description := ofTokens (Json.tokens bytes)

end WordProblem.Description.Document
