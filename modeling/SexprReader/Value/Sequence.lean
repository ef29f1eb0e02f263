import SexprReader.Failure
import SexprReader.Value

namespace SexprReader

/-- The firsts along a chain of pairs, and the value that ends it. -/
structure Chain where
  firsts : List Value
  ending : Value
deriving DecidableEq, Repr

namespace Heap

/-- Follows the rests from a value through at most `bound` pairs, behind the firsts already
`seen`, latest first. -/
def chainWithin (h : Heap) : (bound : Nat) → (seen : List Value) → Value → Option Chain
  | bound, seen, value =>
    match h.cell? value with
    | none => some ⟨seen.reverse, value⟩
    | some cell =>
      match bound with
      | 0 => none
      | bound + 1 => h.chainWithin bound (cell.first :: seen) cell.rest

theorem chainWithin_seen (h : Heap) (bound : Nat) (seen : List Value) (value : Value) :
    h.chainWithin bound seen value =
      (h.chainWithin bound [] value).map fun chain =>
        ⟨seen.reverse ++ chain.firsts, chain.ending⟩ := by
  induction bound generalizing seen value with
  | zero =>
    unfold chainWithin
    split <;> simp
  | succ bound ih =>
    unfold chainWithin
    split
    next => simp
    next cell _ =>
      simp only
      rw [ih (cell.first :: seen), ih [cell.first]]
      cases h.chainWithin bound [] cell.rest <;> simp

/-- The chain of a value; none if it runs in a circle. -/
def chain? (h : Heap) (value : Value) : Option Chain := h.chainWithin h.pairs.size [] value

/-- The members met before an iteration ends, and the fault that ends it early. -/
structure Iteration where
  members : List Value
  fault : Option ValueFault
deriving DecidableEq, Repr

def iterate (h : Heap) (value : Value) : Iteration :=
  match value with
  | .pair _ =>
    match h.chain? value with
    | some ⟨firsts, ending⟩ =>
      ⟨firsts, if ending = .nil then none else some .improperList⟩
    | none => ⟨[], some .cyclic⟩
  | .vector _ => ⟨(h.elements? value).getD [], none⟩
  | .string s => ⟨s.toList.map (fun c => .string c.toString), none⟩
  | _ => ⟨[], some .notIterable⟩

def toList (h : Heap) (value : Value) : Except ValueFault (List Value) :=
  match h.iterate value with
  | ⟨members, none⟩ => .ok members
  | ⟨_, some fault⟩ => .error fault

def listMembers (h : Heap) (value : Value) : Except ValueFault (List Value) :=
  match value with
  | .pair _ => h.toList value
  | _ => .error .noSuchField

def isProper (h : Heap) (value : Value) : Except ValueFault Bool :=
  match value with
  | .pair _ =>
    match h.chain? value with
    | some chain => .ok (chain.ending == .nil)
    | none => .error .cyclic
  | _ => .error .noSuchField

/-- A list of new pairs with these members, ending in `tail` itself. -/
def ofList (h : Heap) (members : List Value) (tail : Value) : Value × Heap :=
  members.reverse.foldl (fun (rest, h) member => h.cons member rest) (tail, h)

/-- What a vector made from a list holds; the empty list counts as a sequence here. -/
def vectorMembers (h : Heap) (value : Value) : Except ValueFault (List Value) :=
  if value = .nil then .ok [] else h.toList value

def first (h : Heap) (value : Value) : Except ValueFault Value :=
  match h.cell? value with
  | some cell => .ok cell.first
  | none => .error .noSuchField

def rest (h : Heap) (value : Value) : Except ValueFault Value :=
  match h.cell? value with
  | some cell => .ok cell.rest
  | none => .error .noSuchField

def vectorSize (h : Heap) (value : Value) : Except ValueFault Nat :=
  match h.elements? value with
  | some elements => .ok elements.length
  | none => .error .notAVector

def elementAt (h : Heap) (value : Value) (index : Int) : Except ValueFault Value :=
  match h.elements? value with
  | none => .error .notAVector
  | some elements =>
    let position := if index < 0 then index + elements.length else index
    if position < 0 then .error .indexOutOfRange
    else match elements[position.toNat]? with
      | some element => .ok element
      | none => .error .indexOutOfRange

end Heap

end SexprReader
