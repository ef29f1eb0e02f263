import SexprReader.Logging.Format
import SexprReader.Text.Quoted
import SexprReader.Text.Uppercase
import SexprReader.Trace

/-! Who listens to the reader. The library's logger has the handlers an application gives it
and at most one which the library itself installs, as the environment says. -/

namespace SexprReader.Logging

structure Environment where
  level : Option String
  developerLogger : Option String
deriving DecidableEq, Repr

inductive HandlerKind where
  | stream
  | null
deriving DecidableEq, Repr

inductive Owner where
  | library
  | application
deriving DecidableEq, Repr

/-- A handler is the same object as another exactly if their serial numbers agree. -/
structure Handler where
  serial : Nat
  owner : Owner
  kind : HandlerKind
  level : Int
  format : Format
deriving DecidableEq, Repr

def Handler.write (handler : Handler) (record : Record) : String :=
  match handler.kind with
  | .null => ""
  | .stream =>
    if handler.level ≤ record.level then handler.format.layOut record ++ "\n" else ""

inductive Fault where
  | invalidFormat
  | unknownLevel (name : String)
deriving DecidableEq, Repr

def Fault.message? : Fault → Option String
  | invalidFormat => none
  | unknownLevel name => some ("Unknown level: " ++ Quoted.ofText name)

structure Setup where
  environment : Environment
  level : Int
  handlers : List Handler
  /-- The handler the library installed last, whether or not it is still attached. -/
  installed : Option Handler
  started : Bool
  made : Nat
deriving DecidableEq, Repr

namespace Setup

def initial : Setup := ⟨⟨none, none⟩, 0, [], none, false, 0⟩

def levelFromEnvironment (s : Setup) : String :=
  Uppercase.ofText (s.environment.level.getD "WARNING")

def handlerKind (s : Setup) : HandlerKind :=
  match s.environment.developerLogger with
  | some value => if value.toList.map Char.toLower = "true".toList then .stream else .null
  | none => .null

/-- Makes a handler, as the environment says, without attaching it. -/
def makeHandler (s : Setup) (level format : String) (accepts : String → Bool := Format.isMarked) :
    Except Fault (Handler × Setup) :=
  match Format.ofText? format accepts with
  | none => .error .invalidFormat
  | some format =>
    match level? level with
    | none => .error (.unknownLevel level)
    | some level =>
      .ok (⟨s.made, .library, s.handlerKind, level, format⟩, { s with made := s.made + 1 })

def makeApplicationHandler (s : Setup) (kind : HandlerKind) (level : Int) (format : Format) :
    Handler × Setup :=
  (⟨s.made, .application, kind, level, format⟩, { s with made := s.made + 1 })

def attach (s : Setup) (handler : Handler) : Setup :=
  if s.handlers.contains handler then s else { s with handlers := s.handlers ++ [handler] }

def detach (s : Setup) (handler : Handler) : Setup :=
  { s with handlers := s.handlers.erase handler }

/-- Replaces the installed handler. A level that is absent or empty comes from the environment.
The old handler is gone even if there cannot be a new one. -/
def configure (s : Setup) (level : Option String) (format : String)
    (accepts : String → Bool := Format.isMarked) : Setup × Option Fault :=
  let level := match level with
    | some level => if level.isEmpty then s.levelFromEnvironment else level
    | none => s.levelFromEnvironment
  let s := match s.installed with
    | some old => s.detach old
    | none => s
  match s.makeHandler level format accepts with
  | .error fault => (s, some fault)
  | .ok (handler, s) =>
    ({ s with installed := some handler, level := handler.level }.attach handler, none)

def start (s : Setup) (force : Bool) (accepts : String → Bool := Format.isMarked) :
    Setup × Option Fault :=
  if s.started && !force then (s, none)
  else match s.configure none Format.standard.text accepts with
    | (s, none) => ({ s with started := true }, none)
    | (s, some fault) => (s, some fault)

def loggerName : String := "lispread"

/-- The logger of the reader, which has no level or handlers of its own. -/
def readerLogger : String := "lispread.lang.reader"

def isBelow (logger : String) : Bool :=
  logger == loggerName || (loggerName ++ ".").toList.isPrefixOf logger.toList

def effectiveLevel (s : Setup) (logger : String) : Int :=
  if isBelow logger && s.level != 0 then s.level else defaultLevel

/-- What a record comes to on the error stream. Levels up to zero are off, and warnings which
no handler could take are written bare. -/
def written (s : Setup) (record : Record) : String :=
  if record.level ≤ 0 || record.level < s.effectiveLevel record.logger then ""
  else
    let handlers := if isBelow record.logger then s.handlers else []
    if handlers.isEmpty then
      if defaultLevel ≤ record.level then record.message ++ "\n" else ""
    else String.join (handlers.map (·.write record))

def writtenTrace (s : Setup) (trace : Array Event) : String :=
  String.join (trace.toList.map fun event => s.written ⟨readerLogger, event.level, event.message⟩)

end Setup

end SexprReader.Logging
