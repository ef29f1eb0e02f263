import SexprReader.Value.Tree

namespace SexprReader

namespace Tree

variable {S S' : Type}

theorem sizeOf_first_lt [SizeOf S] (first rest : Tree S) : sizeOf first < sizeOf (pair first rest) := by
  rw [pair.sizeOf_spec]
  omega

theorem sizeOf_rest_lt [SizeOf S] (first rest : Tree S) : sizeOf rest < sizeOf (pair first rest) := by
  rw [pair.sizeOf_spec]
  omega

theorem sizeOf_lt_of_mem [SizeOf S] {elements : List (Tree S)} {tree : Tree S}
    (member : tree ∈ elements) : sizeOf tree < sizeOf (vector elements) := by
  have smaller := List.sizeOf_lt_of_mem member
  rw [vector.sizeOf_spec]
  omega

inductive PartOf (part : Tree S) : Tree S → Prop
  | refl : PartOf part part
  | first {first rest : Tree S} (inside : PartOf part first) : PartOf part (.pair first rest)
  | rest {first rest : Tree S} (inside : PartOf part rest) : PartOf part (.pair first rest)
  | element {elements : List (Tree S)} {tree : Tree S} (member : tree ∈ elements)
      (inside : PartOf part tree) : PartOf part (.vector elements)

def Every (p : Tree S → Prop) (tree : Tree S) : Prop := ∀ part : Tree S, part.PartOf tree → p part

theorem every_pair_iff {p : Tree S → Prop} {first rest : Tree S} :
    (pair first rest).Every p ↔ p (pair first rest) ∧ first.Every p ∧ rest.Every p := by
  constructor
  · intro every
    exact ⟨every _ .refl, fun part inside => every part (.first inside),
      fun part inside => every part (.rest inside)⟩
  · rintro ⟨root, firsts, rests⟩ part inside
    cases inside with
    | refl => exact root
    | first inside => exact firsts part inside
    | rest inside => exact rests part inside

theorem every_vector_iff {p : Tree S → Prop} {elements : List (Tree S)} :
    (vector elements).Every p ↔ p (vector elements) ∧ ∀ tree ∈ elements, tree.Every p := by
  constructor
  · intro every
    exact ⟨every _ .refl, fun tree member part inside => every part (.element member inside)⟩
  · rintro ⟨root, all⟩ part inside
    cases inside with
    | refl => exact root
    | element member inside => exact all _ member part inside

theorem every_leaf {p : Tree S → Prop} {tree : Tree S} (root : p tree)
    (single : ∀ first rest, tree ≠ .pair first rest) (flat : ∀ elements, tree ≠ .vector elements) :
    tree.Every p := by
  intro part inside
  cases inside with
  | refl => exact root
  | first => exact absurd rfl (single _ _)
  | rest => exact absurd rfl (single _ _)
  | element => exact absurd rfl (flat _)

theorem Every.root {p : Tree S → Prop} {tree : Tree S} (every : tree.Every p) : p tree :=
  every tree .refl

theorem induct {motive : Tree S → Prop}
    (leaf : ∀ tree, (∀ first rest, tree ≠ .pair first rest) → (∀ elements, tree ≠ .vector elements) →
      motive tree)
    (pair : ∀ first rest, motive first → motive rest → motive (.pair first rest))
    (vector : ∀ elements, (∀ tree ∈ elements, motive tree) → motive (.vector elements))
    (tree : Tree S) : motive tree := by
  induction size : sizeOf tree using Nat.strongRecOn generalizing tree with
  | ind n ih =>
    have smaller (part : Tree S) (less : sizeOf part < sizeOf tree) : motive part :=
      ih (sizeOf part) (size ▸ less) part rfl
    cases tree with
    | pair first rest =>
      exact pair first rest (smaller first (sizeOf_first_lt first rest))
        (smaller rest (sizeOf_rest_lt first rest))
    | vector elements =>
      exact vector elements fun tree member => smaller tree (sizeOf_lt_of_mem member)
    | _ => exact leaf _ (by simp) (by simp)

theorem map_map {S'' : Type} (f : S → S') (g : S' → S'') (tree : Tree S) :
    (tree.map f).map g = tree.map (g ∘ f) := by
  induction tree using induct with
  | leaf tree single flat =>
    cases tree with
    | pair first rest => exact absurd rfl (single first rest)
    | vector elements => exact absurd rfl (flat elements)
    | _ => simp [map]
  | pair first rest firsts rests => rw [map, map, map, firsts, rests]
  | vector elements all =>
    simp only [map, mapAll_eq_map, List.map_map, vector.injEq]
    exact List.map_congr_left all

theorem map_eq_self {f : S → S} {tree : Tree S}
    (fixed : ∀ s, (symbol s).PartOf tree → f s = s) : tree.map f = tree := by
  induction tree using induct with
  | leaf tree single flat =>
    cases tree with
    | symbol s => rw [map, fixed s .refl]
    | pair first rest => exact absurd rfl (single first rest)
    | vector elements => exact absurd rfl (flat elements)
    | _ => rw [map]
  | pair first rest firsts rests =>
    rw [map, firsts fun s inside => fixed s (.first inside),
      rests fun s inside => fixed s (.rest inside)]
  | vector elements all =>
    rw [map, mapAll_eq_map]
    congr 1
    refine (List.map_congr_left fun tree member => ?_).trans (List.map_id elements)
    exact all tree member fun s inside => fixed s (.element member inside)

theorem partOf_map {f : S → S'} {part : Tree S'} {tree : Tree S} (inside : part.PartOf (tree.map f)) :
    ∃ part' : Tree S, part'.PartOf tree ∧ part = part'.map f := by
  generalize mapped : tree.map f = target at inside
  induction inside generalizing tree with
  | refl => exact ⟨tree, .refl, mapped.symm⟩
  | first _ ih =>
    cases tree with
    | pair first rest =>
      simp only [map, pair.injEq] at mapped
      obtain ⟨part', inside, same⟩ := ih mapped.1
      exact ⟨part', .first inside, same⟩
    | _ => simp [map] at mapped
  | rest _ ih =>
    cases tree with
    | pair first rest =>
      simp only [map, pair.injEq] at mapped
      obtain ⟨part', inside, same⟩ := ih mapped.2
      exact ⟨part', .rest inside, same⟩
    | _ => simp [map] at mapped
  | element member _ ih =>
    cases tree with
    | vector elements =>
      simp only [map, mapAll_eq_map, vector.injEq] at mapped
      rw [← mapped] at member
      obtain ⟨element, member, same⟩ := List.mem_map.mp member
      obtain ⟨part', inside, same'⟩ := ih same
      exact ⟨part', .element member inside, same'⟩
    | _ => simp [map] at mapped

mutual

/-- The most calls that a part of a tree is nested in while the tree is written or compared, if the tree
itself is nested in `depth`. -/
def nesting (depth : Nat) : Tree S → Nat
  | pair first rest =>
    max (first.nesting (first.depthInPair depth)) (rest.nesting (rest.depthInPair depth))
  | vector elements => max depth (nestingAll depth elements)
  | _ => depth

def nestingAll (depth : Nat) : List (Tree S) → Nat
  | [] => 0
  | tree :: trees => max (tree.nesting (tree.depthInVector depth)) (nestingAll depth trees)

end

theorem le_depthInPair (depth : Nat) (tree : Tree S) : depth ≤ tree.depthInPair depth := by
  cases tree <;> simp [depthInPair]

theorem depthInPair_mono (tree : Tree S) {depth depth' : Nat} (le : depth ≤ depth') :
    tree.depthInPair depth ≤ tree.depthInPair depth' := by
  cases tree <;> simpa [depthInPair] using le

theorem depthInVector_mono (tree : Tree S) {depth depth' : Nat} (le : depth ≤ depth') :
    tree.depthInVector depth ≤ tree.depthInVector depth' := by
  cases tree <;> simpa [depthInVector] using le

theorem nesting_le_nestingAll {trees : List (Tree S)} {tree : Tree S} (depth : Nat) (member : tree ∈ trees) :
    tree.nesting (tree.depthInVector depth) ≤ nestingAll depth trees := by
  induction trees with
  | nil => cases member
  | cons first trees ih =>
    rw [nestingAll]
    cases member with
    | head => exact Nat.le_max_left _ _
    | tail _ member => exact Nat.le_trans (ih member) (Nat.le_max_right _ _)

theorem le_nesting (tree : Tree S) (depth : Nat) : depth ≤ tree.nesting depth := by
  induction tree using induct generalizing depth with
  | leaf tree single flat =>
    cases tree with
    | pair first rest => exact absurd rfl (single first rest)
    | vector elements => exact absurd rfl (flat elements)
    | _ => simp [nesting]
  | pair first rest firsts _ =>
    have part := Nat.le_trans (first.le_depthInPair depth) (firsts (first.depthInPair depth))
    rw [nesting]
    omega
  | vector elements _ =>
    rw [nesting]
    omega

end Tree

end SexprReader
