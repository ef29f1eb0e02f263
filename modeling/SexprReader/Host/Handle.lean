import SexprReader.Host
import SexprReader.Numeral

/-! A host whose values are handles: each thing it makes gets the next number of its kind, and
nothing can be learned from a handle but which thing it stands for. -/

namespace SexprReader

inductive Handle where
  | nil
  | true
  | false
  | unspecified
  | endOfStream
  | logicalEof
  | pair (number : Nat)
  | string (number : Nat)
  | processedString (number : Nat)
  | symbol (number : Nat)
  | vector (number : Nat)
  | integer (n : Int)
  | character (codePoint : Nat)
deriving DecidableEq, Repr

def Handle.text : Handle → String
  | nil => "nil"
  | true => "true"
  | false => "false"
  | unspecified => "unspecified"
  | endOfStream => "eos"
  | logicalEof => "eof"
  | pair number => "p" ++ number.repr
  | string number => "s" ++ number.repr
  | processedString number => "t" ++ number.repr
  | symbol number => "y" ++ number.repr
  | vector number => "v" ++ number.repr
  | integer n => "n:" ++ n.repr
  | character codePoint => "c:" ++ codePoint.repr

/-- How many things of each kind were made; symbols are known by their names, in order. -/
structure Handles where
  pairs : Nat
  strings : Nat
  processedStrings : Nat
  vectors : Nat
  symbols : Array String
deriving Repr

structure HandleOptions where
  capabilities : Capabilities
  postProcess : Bool
  signal : SignalPolicy
deriving DecidableEq, Repr

namespace Handles

def initial : Handles := ⟨0, 0, 0, 0, #[]⟩

def intern (name : String) : HostM Handles Handle := fun state =>
  match state.symbols.idxOf? name with
  | some number => .ok (.symbol number) state
  | none => .ok (.symbol state.symbols.size) { state with symbols := state.symbols.push name }

def parseNumber (text : String) (radix : Nat) : HostM Handles Handle :=
  match parseInteger text radix with
  | .ok (some n) => pure (.integer n)
  | .ok none => pure .false
  | .error fault => throw (.value fault)

def host (options : HandleOptions) : Host Handles Handle where
  makePair _ _ := fun s => .ok (.pair s.pairs) { s with pairs := s.pairs + 1 }
  setRest _ _ := pure ()
  makeString _ := fun s => .ok (.string s.strings) { s with strings := s.strings + 1 }
  postProcessString v :=
    if options.postProcess then fun s =>
      .ok (.processedString s.processedStrings)
        { s with processedStrings := s.processedStrings + 1 }
    else pure v
  internSymbol := intern
  parseNumber := parseNumber
  listToVector _ := fun s => .ok (.vector s.vectors) { s with vectors := s.vectors + 1 }
  makeCharacter codePoint := pure (.character codePoint)
  signalError := options.signal.signal
  eq a b := a == b
  nil := .nil
  false := .false
  endOfStream := .endOfStream
  true? := if options.capabilities.true then some .true else none
  unspecified? := if options.capabilities.unspecified then some .unspecified else none
  logicalEof? := if options.capabilities.logicalEof then some .logicalEof else none
  nilSymbol? := none

end Handles

end SexprReader
