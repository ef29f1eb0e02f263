import SexprReader.Proofs.Value.Parts

namespace SexprReader.Tree

variable {S S' : Type}

mutual

/-- The same tree with something else in place of each leaf. -/
def mapLeaves (leaf : Tree S → Tree S') : Tree S → Tree S'
  | pair first rest => pair (first.mapLeaves leaf) (rest.mapLeaves leaf)
  | vector elements => vector (mapLeavesAll leaf elements)
  | tree => leaf tree

def mapLeavesAll (leaf : Tree S → Tree S') : List (Tree S) → List (Tree S')
  | [] => []
  | tree :: trees => tree.mapLeaves leaf :: mapLeavesAll leaf trees

end

variable {leaf : Tree S → Tree S'}

theorem mapLeavesAll_eq_map (trees : List (Tree S)) :
    mapLeavesAll leaf trees = trees.map (mapLeaves leaf) := by
  induction trees with
  | nil => rfl
  | cons tree trees ih => rw [mapLeavesAll, ih, List.map_cons]

@[simp] theorem mapLeaves_pair (first rest : Tree S) :
    (pair first rest).mapLeaves leaf = pair (first.mapLeaves leaf) (rest.mapLeaves leaf) := by
  rw [mapLeaves]

@[simp] theorem mapLeaves_vector (elements : List (Tree S)) :
    (vector elements).mapLeaves leaf = vector (elements.map (mapLeaves leaf)) := by
  rw [mapLeaves, mapLeavesAll_eq_map]

theorem mapLeaves_leaf {tree : Tree S} (single : ∀ first rest, tree ≠ pair first rest)
    (flat : ∀ elements, tree ≠ vector elements) : tree.mapLeaves leaf = leaf tree := by
  cases tree with
  | pair first rest => exact absurd rfl (single first rest)
  | vector elements => exact absurd rfl (flat elements)
  | _ => rw [mapLeaves] <;> simp

@[simp] theorem mapLeaves_sentinel (s : Sentinel) :
    (sentinel s : Tree S).mapLeaves leaf = leaf (sentinel s) := mapLeaves_leaf nofun nofun

@[simp] theorem mapLeaves_symbol (s : S) : (symbol s).mapLeaves leaf = leaf (symbol s) :=
  mapLeaves_leaf nofun nofun

@[simp] theorem mapLeaves_string (s : String) :
    (string s : Tree S).mapLeaves leaf = leaf (string s) := mapLeaves_leaf nofun nofun

@[simp] theorem mapLeaves_integer (n : Int) :
    (integer n : Tree S).mapLeaves leaf = leaf (integer n) := mapLeaves_leaf nofun nofun

@[simp] theorem mapLeaves_character (codePoint : Int) :
    (character codePoint : Tree S).mapLeaves leaf = leaf (character codePoint) :=
  mapLeaves_leaf nofun nofun

theorem mapLeaves_ofList (members : List (Tree S)) (tail : Tree S) :
    (ofList members tail).mapLeaves leaf = ofList (members.map (mapLeaves leaf)) (tail.mapLeaves leaf) := by
  induction members with
  | nil => rfl
  | cons member members ih =>
    change (pair member (ofList members tail)).mapLeaves leaf = _
    rw [mapLeaves_pair, ih]
    rfl

end SexprReader.Tree
