import SexprReader.Steps
import SexprReader.Text.Quoted
import SexprReader.Value.Nesting
import SexprReader.Value.Sequence

/-! Writing a value as text. What is still to be written is kept on a list, so that long and
deep lists need no deep recursion. -/

namespace SexprReader

def printedDigitLimit : Nat := 4300

def integerText (n : Int) : Except ValueFault String :=
  if n.natAbs < Nat.pow 10 printedDigitLimit then .ok n.repr else .error .tooManyDigits

/-- The character a code point stands for. Texts are made of scalar values, so a surrogate stands for
none. -/
def Character.char (c : Character) : Except ValueFault Char :=
  if 0 ≤ c.codePoint ∧ c.codePoint.toNat.isValidChar then .ok (Char.ofNat c.codePoint.toNat)
  else if -0x80000000 ≤ c.codePoint ∧ c.codePoint < 0x80000000 then .error .notACodePoint
  else .error .codePointOverflow

def Character.text (c : Character) : Except ValueFault String := do
  match ← c.char with
  | ' ' => return "#\\space"
  | '\n' => return "#\\newline"
  | c => return "#\\" ++ c.toString

def Character.codePointOf (text : String) : Except ValueFault Nat :=
  match text.toList with
  | [c] => .ok c.toNat
  | _ => .error .notOneCharacter

inductive Piece where
  | text (s : String)
  | value (depth : Nat) (v : Value)
deriving DecidableEq, Repr

namespace Piece

def spaced (pieces : List Piece) : List Piece := pieces.intersperse (.text " ")

def part (depth : Nat) (v : Value) : Piece := .value (v.depthInPair depth) v

/-- A chain in parentheses, with a dot before its ending unless that is the empty list. -/
def ofChain (depth : Nat) (chain : Chain) : List Piece :=
  .text "(" :: spaced (chain.firsts.map (part depth)) ++
    (if chain.ending = .nil then [] else [.text " . ", part depth chain.ending]) ++ [.text ")"]

def ofElements (depth : Nat) (elements : List Value) : List Piece :=
  .text "#(" :: spaced (elements.map fun v => .value (v.depthInVector depth) v) ++ [.text ")"]

end Piece

namespace Heap

def leafText : Value → Except ValueFault String
  | .sentinel s => .ok s.text
  | .null => .ok absentText
  | .symbol s => .ok s.name
  | .string s => .ok (Quoted.ofText s)
  | .integer n => integerText n
  | .character c => c.text
  | .pair _ | .vector _ => .error .cyclic

def expand (h : Heap) (depth : Nat) (value : Value) : Except ValueFault (List Piece) :=
  match value with
  | .pair _ =>
    match h.chain? value with
    | some chain => .ok (Piece.ofChain depth chain)
    | none => .error .cyclic
  | .vector _ => .ok (Piece.ofElements depth ((h.elements? value).getD []))
  | _ => do return [.text (← leafText value)]

/-- Takes up the first of the pieces still to be written behind the text already `done`. -/
def writeStep (h : Heap) (limit : Nat) :
    String × List Piece → (String × List Piece) ⊕ Except ValueFault String
  | (done, []) => .inr (.ok done)
  | (done, .text s :: work) => .inl (done ++ s, work)
  | (done, .value depth v :: work) =>
    if limit < depth then .inr (.error .tooDeep)
    else match h.expand depth v with
      | .ok pieces => .inl (done, pieces ++ work)
      | .error fault => .inr (.error fault)

/-- The text of a value. At most `limit` calls may be nested in the first. -/
def write (h : Heap) (value : Value) (limit : Nat := standardLimit) : Except ValueFault String :=
  (Steps.runDoubling (h.writeStep limit) h.rounds 1 ("", [.value 0 value])).getD (.error .cyclic)

end Heap

end SexprReader
