import SexprReader.Failure

/-! The host of a reader: the operations through which it builds every value. The reader
looks at a value only by `eq`, against values which it got from the same host. -/

namespace SexprReader

/-- Work of a host with its own state `σ`, which survives a failure. -/
abbrev HostM (σ : Type) := EStateM Failure σ

structure Host (σ V : Type) where
  makePair : V → V → HostM σ V
  setRest : V → V → HostM σ Unit
  makeString : String → HostM σ V
  /-- Interprets escapes in a string just made; the reader passes them on untouched. -/
  postProcessString : V → HostM σ V
  internSymbol : String → HostM σ V
  parseNumber : String → Nat → HostM σ V
  listToVector : V → HostM σ V
  makeCharacter : Nat → HostM σ V
  /-- Ends the read with an error of the host's choice; if it returns, the given one ends it. -/
  signalError : ReadError → HostM σ Unit
  eq : V → V → Bool
  nil : V
  false : V
  endOfStream : V
  /-- What `#t` reads as, if the host has it; likewise `#u` and `##`. -/
  true? : Option V
  unspecified? : Option V
  logicalEof? : Option V
  nilSymbol? : Option V

inductive SignalPolicy where
  | raise
  | wrap
  | ignore
deriving DecidableEq, Repr

def SignalPolicy.signal {σ : Type} : SignalPolicy → ReadError → HostM σ Unit
  | raise, e => throw (.reading e)
  | wrap, e => throw (.host e.message (some e))
  | ignore, _ => pure ()

structure Capabilities where
  true : Bool
  unspecified : Bool
  logicalEof : Bool
deriving DecidableEq, Repr

def Capabilities.all : Capabilities := ⟨Bool.true, Bool.true, Bool.true⟩

/-- The same host, with the symbol of the given name reading as `nil`. -/
def Host.withNilAlias {σ V : Type} (host : Host σ V) : Option String → HostM σ (Host σ V)
  | none => pure host
  | some name => do
    let symbol ← host.internSymbol name
    return { host with nilSymbol? := some symbol }

end SexprReader
