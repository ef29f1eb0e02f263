import SexprReader.Value

namespace SexprReader

/-- How many calls a part of a pair is nested in, if the pair is nested in `depth`. A vector takes a
call of its own, but the pairs of a list share one. -/
def Value.depthInPair (depth : Nat) : Value → Nat
  | .vector _ => depth + 1
  | _ => depth

def Value.depthInVector (depth : Nat) : Value → Nat
  | .pair _ | .vector _ => depth + 1
  | _ => depth

namespace Heap

def size (h : Heap) : Nat :=
  h.vectors.foldl (fun n elements => n + elements.length + 1) h.pairs.size

/-- Enough rounds for every value which does not contain itself: no path through it is longer
than `size`, and at no point of a path are there more ways on than `size`. -/
def rounds (h : Heap) : Nat := (h.size + 6) * (h.size + 6)

end Heap

end SexprReader
