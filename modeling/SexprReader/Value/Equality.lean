import SexprReader.Failure
import SexprReader.Steps
import SexprReader.Value.Nesting

/-! Structural equality of values. Comparisons still to be made are kept on a list, so that
long and deep lists need no deep recursion. The first difference ends the comparison, and a
value is never taken apart to be compared with itself. -/

namespace SexprReader

structure Comparison where
  depth : Nat
  left : Value
  right : Value
deriving DecidableEq, Repr

namespace Heap

/-- Compares values that refer to no others: characters by code point, the rest by identity. -/
def leafEqual : Value → Value → Bool
  | .character a, .character b => a.codePoint == b.codePoint
  | a, b => a == b

def compareCells (depth : Nat) (a b : Cell) : List Comparison :=
  [⟨a.first.depthInPair depth, a.first, b.first⟩, ⟨a.rest.depthInPair depth, a.rest, b.rest⟩]

def compareElements (depth : Nat) (as bs : List Value) : Option (List Comparison) :=
  if as.length = bs.length then some (as.zipWith (fun a b => ⟨a.depthInVector depth, a, b⟩) bs)
  else none

/-- What is left to compare once two objects are compared at their roots; none if they differ. -/
def compareRoots (h : Heap) (depth : Nat) (a b : Value) : Option (List Comparison) :=
  match a, b with
  | .pair _, .pair _ =>
    match h.cell? a, h.cell? b with
    | some a, some b => some (compareCells depth a b)
    | _, _ => none
  | .vector _, .vector _ =>
    match h.elements? a, h.elements? b with
    | some as, some bs => compareElements depth as bs
    | _, _ => none
  | _, _ => if leafEqual a b then some [] else none

/-- Makes the first of the pending comparisons. One object takes no call to be compared with itself. -/
def compareStep (h : Heap) (limit : Nat) :
    List Comparison → List Comparison ⊕ Except ValueFault Bool
  | [] => .inr (.ok true)
  | ⟨depth, a, b⟩ :: pending =>
    if a = b then .inl pending
    else if limit < depth then .inr (.error .tooDeep)
    else match h.compareRoots depth a b with
      | some parts => .inl (parts ++ pending)
      | none => .inr (.ok false)

/-- The values are alike all the way down. At most `limit` calls may be nested in the first. -/
def equal (h : Heap) (a b : Value) (limit : Nat := standardLimit) : Except ValueFault Bool :=
  (Steps.runDoubling (h.compareStep limit) h.rounds 1 [⟨0, a, b⟩]).getD (.error .cyclic)

def hashable : Value → Except ValueFault Bool
  | .pair _ | .vector _ => .error .unhashable
  | _ => .ok true

end Heap

end SexprReader
