import SexprReader.Host
import SexprReader.Numeral
import SexprReader.Text.Escape
import SexprReader.Value.Sequence

namespace SexprReader

structure Store where
  heap : Heap
  symbols : SymbolTables
deriving Repr

def Store.initial : Store := ⟨.empty, .initial⟩

structure StoreOptions where
  table : TableId
  interpretEscapes : Bool
  capabilities : Capabilities
  numbers : Bool
  signal : SignalPolicy
deriving DecidableEq, Repr

def StoreOptions.standard : StoreOptions := ⟨.shared, false, .all, true, .raise⟩

namespace Store

def make (build : Heap → Value × Heap) : HostM Store Value := fun ⟨heap, symbols⟩ =>
  match build heap with
  | (value, heap) => .ok value ⟨heap, symbols⟩

def fieldFault : Value → ValueFault
  | .sentinel _ | .character _ => .immutable
  | _ => .noSuchField

def setFirst (pair value : Value) : HostM Store Unit := do
  match pair with
  | .pair address => modify fun ⟨heap, symbols⟩ => ⟨heap.setFirst address value, symbols⟩
  | _ => throw (.value (fieldFault pair))

def setRest (pair value : Value) : HostM Store Unit := do
  match pair with
  | .pair address => modify fun ⟨heap, symbols⟩ => ⟨heap.setRest address value, symbols⟩
  | _ => throw (.value (fieldFault pair))

def listToVector (list : Value) : HostM Store Value := do
  match (← get).heap.vectorMembers list with
  | .ok members => make (·.makeVector members)
  | .error fault => throw (.value fault)

def intern (table : TableId) (name : String) : HostM Store Value := fun ⟨heap, symbols⟩ =>
  match symbols.intern table name with
  | (symbol, symbols) => .ok (.symbol symbol) ⟨heap, symbols⟩

def parseNumber (text : String) (radix : Nat) : HostM Store Value :=
  match parseInteger text radix with
  | .ok (some n) => pure (.integer n)
  | .ok none => pure (.sentinel .false)
  | .error fault => throw (.value fault)

def interpretString : Value → Value
  | .string s => .string (Escape.interpret s)
  | value => value

def host (options : StoreOptions) : Host Store Value where
  makePair first rest := make (·.cons first rest)
  setRest := setRest
  makeString s := pure (.string s)
  postProcessString value :=
    pure (if options.interpretEscapes then interpretString value else value)
  internSymbol := intern options.table
  parseNumber text radix :=
    if options.numbers then parseNumber text radix else pure (.sentinel .false)
  listToVector := listToVector
  makeCharacter codePoint := make (·.makeCharacter codePoint)
  signalError := options.signal.signal
  eq a b := a == b
  nil := .nil
  false := .sentinel .false
  endOfStream := .sentinel .endOfStream
  true? := if options.capabilities.true then some (.sentinel .true) else none
  unspecified? :=
    if options.capabilities.unspecified then some (.sentinel .unspecified) else none
  logicalEof? :=
    if options.capabilities.logicalEof then some (.sentinel .logicalEof) else none
  nilSymbol? := none

end Store

end SexprReader
