import SexprReader.Proofs.Value.Written

/-! Vectors in each other, as deep as one likes. Each takes a call of its own to be written or compared. -/

namespace SexprReader.Heap

/-- Vectors in each other in two copies, those at even addresses and those at odd ones. -/
def twins (count : Nat) : Heap :=
  ⟨#[], ((List.range (2 * count)).map fun i => if i < 2 then [] else [.vector (i - 2)]).toArray, 0⟩

def nest : Nat → Tree Symbol
  | 0 => .vector []
  | depth + 1 => .vector [nest depth]

theorem elements?_twins {count i : Nat} (inside : i < 2 * count) :
    (twins count).elements? (.vector i) = some (if i < 2 then [] else [.vector (i - 2)]) := by
  simp [twins, elements?, inside]

theorem unfolds_twins {count side depth : Nat} (which : side < 2) (inside : depth < count) :
    (twins count).Unfolds (.vector (2 * depth + side)) (nest depth) := by
  have found : (twins count).elements? (.vector (2 * depth + side)) = _ := elements?_twins (by omega)
  induction depth with
  | zero =>
    rw [if_pos (by omega)] at found
    exact .vector found rfl nofun
  | succ depth ih =>
    rw [if_neg (by omega), show 2 * (depth + 1) + side - 2 = 2 * depth + side by omega] at found
    refine .vector found rfl (getElem?_of_forall₂ (.cons ?_ .nil))
    exact ih (by omega) (elements?_twins (by omega))

theorem datum_nest_succ (inner : Nat) : (nest (inner + 1)).datum = .vector [(nest inner).datum] := by
  rw [nest, Tree.datum_vector, List.map_singleton]

theorem depthInPair_nest (inner depth : Nat) : (nest inner).datum.depthInPair depth = depth + 1 := by
  cases inner <;> rfl

theorem depthInVector_nest (inner depth : Nat) : (nest inner).datum.depthInVector depth = depth + 1 := by
  cases inner <;> rfl

theorem limitedBy_nest (limit depth inner : Nat) :
    LimitedBy limit (depth + inner) ((nest inner).datum.text limit depth) := by
  induction inner generalizing depth with
  | zero =>
    by_cases shallow : depth ≤ limit
    · rw [nest, Tree.datum_vector, Datum.text_vector shallow, List.map_nil, Datum.elementsText_nil]
      exact .ok shallow _
    · exact .text_of_deep shallow (Nat.le_refl _)
  | succ inner ih =>
    by_cases shallow : depth ≤ limit
    · rw [datum_nest_succ, Datum.text_vector shallow, Datum.elementsText_singleton, depthInVector_nest,
        Nat.add_comm inner, ← Nat.add_assoc]
      exact ((ih (depth + 1)).behind "#(").before ")"
    · exact .text_of_deep shallow (Nat.le_add_right _ _)

theorem not_symbol_partOf_nest (inner : Nat) (symbol : Symbol) :
    ¬ (Tree.symbol symbol).PartOf (nest inner) := by
  intro inside
  induction inner with
  | zero =>
    cases inside with
    | element member => cases member
  | succ inner ih =>
    cases inside with
    | element member inside =>
      cases List.mem_singleton.mp member
      exact ih inside

end SexprReader.Heap
