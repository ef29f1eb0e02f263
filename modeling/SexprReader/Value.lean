import SexprReader.Symbol

/-! The values of the library's own host. Two values are the same object exactly if they are
equal here: pairs and vectors are known by their addresses in a heap, symbols and characters by
serial numbers. -/

namespace SexprReader

inductive Sentinel where
  | nil
  | true
  | false
  | unspecified
  | endOfStream
  | logicalEof
deriving DecidableEq, Repr

def Sentinel.text : Sentinel → String
  | nil => "()"
  | true => "#t"
  | false => "#f"
  | unspecified => "#<unspecified>"
  | endOfStream => "#<eos>"
  | logicalEof => "#<eof>"

structure Character where
  serial : Nat
  codePoint : Int
deriving DecidableEq, Repr

inductive Value where
  | sentinel (s : Sentinel)
  /-- No value at all, which only a hook can bring in. -/
  | null
  | symbol (s : Symbol)
  | string (s : String)
  | integer (n : Int)
  | character (c : Character)
  | pair (address : Nat)
  | vector (address : Nat)
deriving DecidableEq, Repr

abbrev Value.nil : Value := .sentinel .nil

structure Cell where
  first : Value
  rest : Value
deriving DecidableEq, Repr

/-- Where pairs and vectors live. Pairs can be changed, vectors cannot. -/
structure Heap where
  pairs : Array Cell
  vectors : Array (List Value)
  characters : Nat
deriving Repr

namespace Heap

def empty : Heap := ⟨#[], #[], 0⟩

def cons (h : Heap) (first rest : Value) : Value × Heap :=
  (.pair h.pairs.size, { h with pairs := h.pairs.push ⟨first, rest⟩ })

def makeVector (h : Heap) (elements : List Value) : Value × Heap :=
  (.vector h.vectors.size, { h with vectors := h.vectors.push elements })

def makeCharacter (h : Heap) (codePoint : Int) : Value × Heap :=
  (.character ⟨h.characters, codePoint⟩, { h with characters := h.characters + 1 })

def setFirst (h : Heap) (address : Nat) (value : Value) : Heap :=
  { h with pairs := h.pairs.modify address ({ · with first := value }) }

def setRest (h : Heap) (address : Nat) (value : Value) : Heap :=
  { h with pairs := h.pairs.modify address ({ · with rest := value }) }

def cell? (h : Heap) : Value → Option Cell
  | .pair address => h.pairs[address]?
  | _ => none

def elements? (h : Heap) : Value → Option (List Value)
  | .vector address => h.vectors[address]?
  | _ => none

@[simp] theorem cell?_cons_self (h : Heap) (first rest : Value) :
    (h.cons first rest).2.cell? (h.cons first rest).1 = some ⟨first, rest⟩ := by
  simp [cons, cell?]

@[simp] theorem elements?_makeVector_self (h : Heap) (elements : List Value) :
    (h.makeVector elements).2.elements? (h.makeVector elements).1 = some elements := by
  simp [makeVector, elements?]

theorem cell?_setRest (h : Heap) (changed address : Nat) (value : Value) :
    (h.setRest changed value).cell? (.pair address) =
      (h.cell? (.pair address)).map fun cell =>
        if changed = address then { cell with rest := value } else cell := by
  simp only [setRest, cell?, Array.getElem?_modify]
  split <;> simp

@[simp] theorem elements?_setRest (h : Heap) (changed : Nat) (value vector : Value) :
    (h.setRest changed value).elements? vector = h.elements? vector := rfl

end Heap

end SexprReader
