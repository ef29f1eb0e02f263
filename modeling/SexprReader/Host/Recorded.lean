import SexprReader.Host

namespace SexprReader

inductive Operation where
  | makePair
  | setRest
  | makeString
  | postProcessString
  | internSymbol
  | parseNumber
  | listToVector
  | makeCharacter
  | signalError
deriving DecidableEq, Repr

namespace Operation

def name : Operation → String
  | makePair => "make_pair"
  | setRest => "set_rest"
  | makeString => "make_string"
  | postProcessString => "post_process_string"
  | internSymbol => "intern_symbol"
  | parseNumber => "parse_number"
  | listToVector => "list_to_vector"
  | makeCharacter => "make_character"
  | signalError => "signal_error"

def all : List Operation :=
  [makePair, setRest, makeString, postProcessString, internSymbol, parseNumber, listToVector,
    makeCharacter, signalError]

def ofName? (name : String) : Option Operation := all.find? (·.name == name)

end Operation

inductive Call (V : Type) where
  | makePair (first rest : V)
  | setRest (pair rest : V)
  | makeString (s : String)
  | postProcessString (v : V)
  | internSymbol (name : String)
  | parseNumber (text : String) (radix : Nat)
  | listToVector (list : V)
  | makeCharacter (codePoint : Nat)
  | signalError (e : ReadError)
deriving DecidableEq, Repr

def Call.operation {V : Type} : Call V → Operation
  | makePair _ _ => .makePair
  | setRest _ _ => .setRest
  | makeString _ => .makeString
  | postProcessString _ => .postProcessString
  | internSymbol _ => .internSymbol
  | parseNumber _ _ => .parseNumber
  | listToVector _ => .listToVector
  | makeCharacter _ => .makeCharacter
  | signalError _ => .signalError

structure CallRecord (V : Type) where
  call : Call V
  result : Option V
deriving DecidableEq, Repr

structure Recorded (σ V : Type) where
  state : σ
  calls : Array (CallRecord V)

namespace Recorded

variable {σ V α : Type}

def record (call : Call V) (result : α → Option V) (work : HostM σ α) :
    HostM (Recorded σ V) α := fun ⟨state, calls⟩ =>
  match work state with
  | .ok a state => .ok a ⟨state, calls.push ⟨call, result a⟩⟩
  | .error failure state => .error failure ⟨state, calls.push ⟨call, none⟩⟩

end Recorded

namespace Host

open Recorded

variable {σ V : Type}

/-- The same host, which also records its calls. -/
def recorded (host : Host σ V) : Host (Recorded σ V) V where
  makePair first rest := record (.makePair first rest) some (host.makePair first rest)
  setRest pair rest := record (.setRest pair rest) (fun _ => none) (host.setRest pair rest)
  makeString s := record (.makeString s) some (host.makeString s)
  postProcessString v := record (.postProcessString v) some (host.postProcessString v)
  internSymbol name := record (.internSymbol name) some (host.internSymbol name)
  parseNumber text radix := record (.parseNumber text radix) some (host.parseNumber text radix)
  listToVector list := record (.listToVector list) some (host.listToVector list)
  makeCharacter code := record (.makeCharacter code) some (host.makeCharacter code)
  signalError e := record (.signalError e) (fun _ => none) (host.signalError e)
  eq := host.eq
  nil := host.nil
  false := host.false
  endOfStream := host.endOfStream
  true? := host.true?
  unspecified? := host.unspecified?
  logicalEof? := host.logicalEof?
  nilSymbol? := host.nilSymbol?

def brokenOr {α : Type} (broken operation : Operation) (work : HostM σ α) : HostM σ α :=
  if operation = broken then throw (.host ("host " ++ operation.name) none) else work

/-- The same host, except that one operation always fails. -/
def failingOn (host : Host σ V) (broken : Operation) : Host σ V where
  makePair first rest := brokenOr broken .makePair (host.makePair first rest)
  setRest pair rest := brokenOr broken .setRest (host.setRest pair rest)
  makeString s := brokenOr broken .makeString (host.makeString s)
  postProcessString v := brokenOr broken .postProcessString (host.postProcessString v)
  internSymbol name := brokenOr broken .internSymbol (host.internSymbol name)
  parseNumber text radix := brokenOr broken .parseNumber (host.parseNumber text radix)
  listToVector list := brokenOr broken .listToVector (host.listToVector list)
  makeCharacter code := brokenOr broken .makeCharacter (host.makeCharacter code)
  signalError e := brokenOr broken .signalError (host.signalError e)
  eq := host.eq
  nil := host.nil
  false := host.false
  endOfStream := host.endOfStream
  true? := host.true?
  unspecified? := host.unspecified?
  logicalEof? := host.logicalEof?
  nilSymbol? := host.nilSymbol?

end Host

end SexprReader
