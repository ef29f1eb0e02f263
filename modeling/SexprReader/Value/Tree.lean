import SexprReader.Value.Printer

/-! Values written out in full. A tree has no addresses, so that values which look alike but
share their parts differently have the same tree. -/

namespace SexprReader

/-- A value written out, with symbols of type `S`. -/
inductive Tree (S : Type) where
  | sentinel (s : Sentinel)
  | null
  | symbol (s : S)
  | string (s : String)
  | integer (n : Int)
  | character (codePoint : Int)
  | pair (first rest : Tree S)
  | vector (elements : List (Tree S))
deriving Repr

/-- A value as far as its text can tell: symbols are known by their names. -/
abbrev Datum := Tree String

namespace Heap

def treeWithin (h : Heap) : (depth : Nat) → Value → Option (Tree Symbol)
  | 0, _ => none
  | depth + 1, value =>
    match value with
    | .sentinel s => some (.sentinel s)
    | .null => some .null
    | .symbol s => some (.symbol s)
    | .string s => some (.string s)
    | .integer n => some (.integer n)
    | .character c => some (.character c.codePoint)
    | .pair _ => do
      let cell ← h.cell? value
      return .pair (← h.treeWithin depth cell.first) (← h.treeWithin depth cell.rest)
    | .vector _ => do
      return .vector (← (← h.elements? value).mapM (h.treeWithin depth))

/-- The tree of a value; none if it contains itself. -/
def tree? (h : Heap) (value : Value) : Option (Tree Symbol) :=
  h.treeWithin (h.pairs.size + h.vectors.size + 1) value

end Heap

namespace Tree

abbrev nil {S : Type} : Tree S := .sentinel .nil

def ofList {S : Type} (members : List (Tree S)) (tail : Tree S) : Tree S :=
  members.foldr .pair tail

mutual

def map {S S' : Type} (f : S → S') : Tree S → Tree S'
  | sentinel s => sentinel s
  | null => null
  | symbol s => symbol (f s)
  | string s => string s
  | integer n => integer n
  | character codePoint => character codePoint
  | pair first rest => pair (first.map f) (rest.map f)
  | vector elements => vector (mapAll f elements)

def mapAll {S S' : Type} (f : S → S') : List (Tree S) → List (Tree S')
  | [] => []
  | tree :: trees => tree.map f :: mapAll f trees

end

theorem mapAll_eq_map {S S' : Type} (f : S → S') (trees : List (Tree S)) :
    mapAll f trees = trees.map (map f) := by
  induction trees with
  | nil => rfl
  | cons tree trees ih => rw [mapAll, ih, List.map_cons]

def datum (tree : Tree Symbol) : Datum := tree.map Symbol.name

end Tree

def Tree.depthInPair {S : Type} (depth : Nat) : Tree S → Nat
  | .vector _ => depth + 1
  | _ => depth

def Tree.depthInVector {S : Type} (depth : Nat) : Tree S → Nat
  | .pair _ _ | .vector _ => depth + 1
  | _ => depth

namespace Datum

mutual

/-- The text of a value that is nested in `depth` calls. -/
def text (limit depth : Nat) (d : Datum) : Except ValueFault String :=
  if limit < depth then .error .tooDeep
  else match d with
    | .sentinel s => .ok s.text
    | .null => .ok absentText
    | .symbol name => .ok name
    | .string s => .ok (Quoted.ofText s)
    | .integer n => integerText n
    | .character codePoint => Character.text ⟨0, codePoint⟩
    | .pair first rest => do
      return "(" ++ (← text limit (first.depthInPair depth) first) ++ (← tailText limit depth rest)
    | .vector elements => do
      return "#(" ++ " ".intercalate (← texts limit depth elements) ++ ")"

def tailText (limit depth : Nat) (d : Datum) : Except ValueFault String :=
  match d with
  | .sentinel .nil => .ok ")"
  | .pair first rest => do
    return " " ++ (← text limit (first.depthInPair depth) first) ++ (← tailText limit depth rest)
  | d => do return " . " ++ (← text limit (d.depthInPair depth) d) ++ ")"

def texts (limit depth : Nat) : List Datum → Except ValueFault (List String)
  | [] => .ok []
  | d :: ds => do return (← text limit (d.depthInVector depth) d) :: (← texts limit depth ds)

end

end Datum

end SexprReader
