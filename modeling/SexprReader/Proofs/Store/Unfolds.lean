import Mathlib.Data.List.Forall2
import Mathlib.Data.List.Nodup
import Mathlib.Data.List.Perm.Subperm
import SexprReader.Proofs.Value.Parts

/-! Which trees values unfold to. A value that unfolds at all does so within as many steps as there
are pairs and vectors, because no way through it comes to the same one twice. -/

namespace SexprReader

theorem forall₂_of_mapM {α β : Type} {f : α → Option β} {xs : List α} {ys : List β}
    (mapped : xs.mapM f = some ys) : List.Forall₂ (fun x y => f x = some y) xs ys := by
  induction xs generalizing ys with
  | nil =>
    cases mapped
    exact .nil
  | cons x xs ih =>
    cases first : f x with
    | none => simp [first] at mapped
    | some y =>
      cases others : xs.mapM f with
      | none => simp [first, others] at mapped
      | some zs =>
        have same : y :: zs = ys := by simpa [first, others] using mapped
        subst same
        exact .cons first (ih others)

theorem mapM_of_forall₂ {α β : Type} {f : α → Option β} {xs : List α} {ys : List β}
    (all : List.Forall₂ (fun x y => f x = some y) xs ys) : xs.mapM f = some ys := by
  induction all with
  | nil => rfl
  | cons first _ ih => simp [first, ih]

namespace Heap

/-- A value written out is the tree. -/
inductive Unfolds (h : Heap) : Value → Tree Symbol → Prop
  | sentinel (s : Sentinel) : Unfolds h (.sentinel s) (.sentinel s)
  | null : Unfolds h .null .null
  | symbol (s : Symbol) : Unfolds h (.symbol s) (.symbol s)
  | string (s : String) : Unfolds h (.string s) (.string s)
  | integer (n : Int) : Unfolds h (.integer n) (.integer n)
  | character (c : Character) : Unfolds h (.character c) (.character c.codePoint)
  | pair {address : Nat} {cell : Cell} {first rest : Tree Symbol}
      (found : h.cell? (.pair address) = some cell) (firsts : Unfolds h cell.first first)
      (rests : Unfolds h cell.rest rest) : Unfolds h (.pair address) (.pair first rest)
  | vector {address : Nat} {values : List Value} {trees : List (Tree Symbol)}
      (found : h.elements? (.vector address) = some values) (length : values.length = trees.length)
      (each : ∀ (i : Nat) (v : Value) (t : Tree Symbol), values[i]? = some v →
        trees[i]? = some t → Unfolds h v t) : Unfolds h (.vector address) (.vector trees)

theorem forall₂_of_getElem? {α β : Type} {R : α → β → Prop} {xs : List α} {ys : List β}
    (length : xs.length = ys.length)
    (each : ∀ (i : Nat) (x : α) (y : β), xs[i]? = some x → ys[i]? = some y → R x y) :
    List.Forall₂ R xs ys := by
  refine List.forall₂_iff_get.mpr ⟨length, fun i inside inside' => each i _ _ ?_ ?_⟩
  · simp [List.getElem?_eq_getElem inside]
  · simp [List.getElem?_eq_getElem inside']

theorem getElem?_of_forall₂ {α β : Type} {R : α → β → Prop} {xs : List α} {ys : List β}
    (all : List.Forall₂ R xs ys) (i : Nat) (x : α) (y : β) (left : xs[i]? = some x)
    (right : ys[i]? = some y) : R x y := by
  obtain ⟨inside, rfl⟩ := List.getElem?_eq_some_iff.mp left
  obtain ⟨inside', rfl⟩ := List.getElem?_eq_some_iff.mp right
  exact (List.forall₂_iff_get.mp all).2 i inside inside'

theorem exists_forall₂_of_each {α β : Type} {R : α → β → Prop} {xs : List α}
    (each : ∀ (i : Nat) (x : α), xs[i]? = some x → ∃ y, R x y) : ∃ ys, List.Forall₂ R xs ys := by
  induction xs with
  | nil => exact ⟨[], .nil⟩
  | cons x xs ih =>
    obtain ⟨y, first⟩ := each 0 x rfl
    obtain ⟨ys, others⟩ := ih fun i x found => each (i + 1) x found
    exact ⟨y :: ys, .cons first others⟩

theorem exists_split_of_forall₂ {α β : Type} {R : α → β → Prop} {before after : List α} {x : α}
    {ys : List β} (all : List.Forall₂ R (before ++ x :: after) ys) :
    ∃ before' y after', ys = before' ++ y :: after' ∧ List.Forall₂ R before before' ∧ R x y ∧
      List.Forall₂ R after after' := by
  induction before generalizing ys with
  | nil =>
    cases all with
    | cons first others => exact ⟨[], _, _, rfl, .nil, first, others⟩
  | cons z before ih =>
    cases all with
    | cons first others =>
      obtain ⟨before', y, after', rfl, firsts, middle, behind⟩ := ih others
      exact ⟨_ :: before', y, after', rfl, .cons first firsts, middle, behind⟩

variable {h : Heap} {v w : Value} {t : Tree Symbol}

theorem treeWithin_pair (h : Heap) (depth address : Nat) :
    h.treeWithin (depth + 1) (.pair address) = (do
      let cell ← h.cell? (.pair address)
      return .pair (← h.treeWithin depth cell.first) (← h.treeWithin depth cell.rest)) := rfl

theorem treeWithin_vector (h : Heap) (depth address : Nat) :
    h.treeWithin (depth + 1) (.vector address) = (do
      return .vector (← (← h.elements? (.vector address)).mapM (h.treeWithin depth))) := rfl

theorem unfolds_of_treeWithin {depth : Nat} (known : h.treeWithin depth v = some t) :
    h.Unfolds v t := by
  induction depth generalizing v t with
  | zero => cases known
  | succ depth ih =>
    cases v with
    | sentinel s =>
      cases known
      exact .sentinel s
    | null =>
      cases known
      exact .null
    | symbol s =>
      cases known
      exact .symbol s
    | string s =>
      cases known
      exact .string s
    | integer n =>
      cases known
      exact .integer n
    | character c =>
      cases known
      exact .character c
    | pair address =>
      obtain ⟨cell, found, known⟩ := Option.bind_eq_some_iff.mp known
      obtain ⟨first, firsts, known⟩ := Option.bind_eq_some_iff.mp known
      obtain ⟨rest, rests, known⟩ := Option.bind_eq_some_iff.mp known
      cases known
      exact .pair found (ih firsts) (ih rests)
    | vector address =>
      obtain ⟨values, found, known⟩ := Option.bind_eq_some_iff.mp known
      obtain ⟨trees, mapped, known⟩ := Option.bind_eq_some_iff.mp known
      cases known
      have all := forall₂_of_mapM mapped
      exact .vector found all.length_eq fun i v t left right =>
        ih (getElem?_of_forall₂ all i v t left right)

namespace Unfolds

theorem unique {t' : Tree Symbol} (unfolds : h.Unfolds v t) (unfolds' : h.Unfolds v t') : t = t' := by
  induction unfolds generalizing t' with
  | sentinel | null | symbol | string | integer | character =>
    cases unfolds'
    rfl
  | pair found _ _ firsts rests =>
    cases unfolds' with
    | pair found' first' rest' =>
      rw [found] at found'
      cases found'
      rw [firsts first', rests rest']
  | vector found length _ each =>
    cases unfolds' with
    | vector found' length' each' =>
      rw [found] at found'
      cases found'
      congr 1
      refine List.ext_getElem (length.symm.trans length') fun i inside inside' => ?_
      have within : i < _ := length ▸ inside
      exact each i _ _ (List.getElem?_eq_getElem within) (List.getElem?_eq_getElem inside)
        (each' i _ _ (List.getElem?_eq_getElem within) (List.getElem?_eq_getElem inside'))

end Unfolds

def containers (h : Heap) : List Value :=
  (List.range h.pairs.size).map .pair ++ (List.range h.vectors.size).map .vector

theorem length_containers (h : Heap) : h.containers.length = h.pairs.size + h.vectors.size := by
  simp [containers]

theorem mem_containers_of_cell? {address : Nat} {cell : Cell}
    (found : h.cell? (.pair address) = some cell) : .pair address ∈ h.containers := by
  have inside := (Array.getElem?_eq_some_iff.mp found).1
  simp [containers, inside]

theorem mem_containers_of_elements? {address : Nat} {values : List Value}
    (found : h.elements? (.vector address) = some values) : .vector address ∈ h.containers := by
  have inside := (Array.getElem?_eq_some_iff.mp found).1
  simp [containers, inside]

/-- A way into a value: containers in each other, none of which comes twice, for what is inside has
the smaller tree. -/
structure Way (h : Heap) (among path : List Value) (t : Tree Symbol) : Prop where
  nodup : path.Nodup
  inside : path ⊆ among
  larger : ∀ w ∈ path, ∀ t', h.Unfolds w t' → sizeOf t < sizeOf t'

namespace Way

variable {among path : List Value}

theorem start (h : Heap) (among : List Value) (t : Tree Symbol) : h.Way among [] t :=
  ⟨.nil, List.nil_subset _, by simp⟩

theorem length_le (way : h.Way among path t) : path.length ≤ among.length :=
  (List.subperm_of_subset way.nodup way.inside).length_le

theorem nodup_cons (way : h.Way among path t) (unfolds : h.Unfolds v t) : (v :: path).Nodup := by
  refine List.nodup_cons.mpr ⟨fun again => ?_, way.nodup⟩
  exact absurd (way.larger v again t unfolds) (Nat.lt_irrefl _)

theorem length_lt (way : h.Way among path t) (unfolds : h.Unfolds v t) (container : v ∈ among) :
    path.length < among.length := by
  have inside : v :: path ⊆ among := List.cons_subset.mpr ⟨container, way.inside⟩
  exact (List.subperm_of_subset (way.nodup_cons unfolds) inside).length_le

theorem enter (way : h.Way among path t) (unfolds : h.Unfolds v t) (container : v ∈ among)
    {part : Tree Symbol} (smaller : sizeOf part < sizeOf t) : h.Way among (v :: path) part where
  nodup := way.nodup_cons unfolds
  inside := List.cons_subset.mpr ⟨container, way.inside⟩
  larger w member t' unfolds' := by
    rcases List.mem_cons.mp member with rfl | earlier
    · rw [← unfolds.unique unfolds']
      exact smaller
    · exact Nat.lt_trans smaller (way.larger w earlier t' unfolds')

end Way

namespace Unfolds

theorem treeWithin (unfolds : h.Unfolds v t) {path : List Value} (way : h.Way h.containers path t)
    {depth : Nat} (enough : h.containers.length < path.length + depth) :
    h.treeWithin depth v = some t := by
  have bounded := way.length_le
  obtain ⟨depth, rfl⟩ : ∃ less, depth = less + 1 := ⟨depth - 1, by omega⟩
  induction unfolds generalizing path depth with
  | @pair address cell first rest found firsts rests first_ih rest_ih =>
    have container := mem_containers_of_cell? found
    have unfolds := Unfolds.pair found firsts rests
    have room := way.length_lt unfolds container
    obtain ⟨depth, rfl⟩ : ∃ less, depth = less + 1 := ⟨depth - 1, by omega⟩
    have enough' : h.containers.length < (Value.pair address :: path).length + (depth + 1) := by
      rw [List.length_cons]
      omega
    have known := first_ih (way.enter unfolds container (first.sizeOf_first_lt rest)) room depth enough'
    have known' := rest_ih (way.enter unfolds container (first.sizeOf_rest_lt rest)) room depth enough'
    rw [treeWithin_pair, found]
    simp [known, known']
  | @vector address values trees found length each ih =>
    have container := mem_containers_of_elements? found
    have unfolds := Unfolds.vector found length each
    have room := way.length_lt unfolds container
    obtain ⟨depth, rfl⟩ : ∃ less, depth = less + 1 := ⟨depth - 1, by omega⟩
    have all : values.mapM (h.treeWithin (depth + 1)) = some trees := by
      refine mapM_of_forall₂ (forall₂_of_getElem? length fun i v t left right => ?_)
      have smaller := Tree.sizeOf_lt_of_mem (List.mem_of_getElem? right)
      refine ih i v t left right (way.enter unfolds container smaller) room depth ?_
      rw [List.length_cons]
      omega
    rw [treeWithin_vector, found]
    simp [all]
  | _ => rfl

end Unfolds

theorem tree?_eq_some_iff : h.tree? v = some t ↔ h.Unfolds v t := by
  constructor
  · exact unfolds_of_treeWithin
  · intro unfolds
    exact unfolds.treeWithin (.start h h.containers t) (by simp [length_containers])

namespace Unfolds

theorem of_cell {cell : Cell} (unfolds : h.Unfolds v t) (found : h.cell? v = some cell) :
    ∃ first rest, t = .pair first rest ∧ h.Unfolds cell.first first ∧ h.Unfolds cell.rest rest := by
  cases unfolds with
  | pair known firsts rests =>
    cases found.symm.trans known
    exact ⟨_, _, rfl, firsts, rests⟩
  | _ => cases found

theorem of_elements {values : List Value} (unfolds : h.Unfolds v t)
    (found : h.elements? v = some values) :
    ∃ trees, t = .vector trees ∧ List.Forall₂ h.Unfolds values trees := by
  cases unfolds with
  | vector known length each =>
    cases found.symm.trans known
    exact ⟨_, rfl, forall₂_of_getElem? length each⟩
  | _ => cases found

theorem exists_cell {first rest : Tree Symbol} (unfolds : h.Unfolds v (.pair first rest)) :
    ∃ cell, h.cell? v = some cell ∧ h.Unfolds cell.first first ∧ h.Unfolds cell.rest rest := by
  cases unfolds with
  | pair found firsts rests => exact ⟨_, found, firsts, rests⟩

theorem exists_elements {trees : List (Tree Symbol)} (unfolds : h.Unfolds v (.vector trees)) :
    ∃ values, h.elements? v = some values ∧ List.Forall₂ h.Unfolds values trees := by
  cases unfolds with
  | vector found length each => exact ⟨_, found, forall₂_of_getElem? length each⟩

theorem tree?_eq (unfolds : h.Unfolds v t) (unfolds' : h.Unfolds w t) : h.tree? v = h.tree? w :=
  (tree?_eq_some_iff.mpr unfolds).trans (tree?_eq_some_iff.mpr unfolds').symm

theorem depthInPair_eq (unfolds : h.Unfolds v t) (depth : Nat) :
    v.depthInPair depth = t.depthInPair depth := by
  cases unfolds <;> rfl

theorem depthInVector_eq (unfolds : h.Unfolds v t) (depth : Nat) :
    v.depthInVector depth = t.depthInVector depth := by
  cases unfolds <;> rfl

end Unfolds

theorem forall₂_same {values values' : List Value} {trees : List (Tree Symbol)}
    (all : List.Forall₂ h.Unfolds values trees) (all' : List.Forall₂ h.Unfolds values' trees) :
    List.Forall₂ (fun a b => h.tree? a = h.tree? b) values values' := by
  induction all generalizing values' with
  | nil =>
    cases all'
    exact .nil
  | cons first _ ih =>
    cases all' with
    | cons first' others' => exact .cons (first.tree?_eq first') (ih others')

theorem Unfolds.chainWithin (unfolds : h.Unfolds v t) {path : List Value}
    (way : h.Way ((List.range h.pairs.size).map .pair) path t) {bound : Nat}
    (enough : h.pairs.size ≤ path.length + bound) (seen : List Value) :
    ∃ chain, h.chainWithin bound seen v = some chain := by
  induction unfolds generalizing path bound seen with
  | @pair address cell first rest found firsts rests _ ih =>
    have unfolds := Unfolds.pair found firsts rests
    have inside := (Array.getElem?_eq_some_iff.mp found).1
    have member : .pair address ∈ (List.range h.pairs.size).map Value.pair := by simp [inside]
    have room := way.length_lt unfolds member
    rw [List.length_map, List.length_range] at room
    obtain ⟨bound, rfl⟩ : ∃ less, bound = less + 1 := ⟨bound - 1, by omega⟩
    unfold Heap.chainWithin
    rw [found]
    refine ih (way.enter unfolds member (first.sizeOf_rest_lt rest)) ?_ (cell.first :: seen)
    rw [List.length_cons]
    omega
  | _ =>
    unfold Heap.chainWithin
    exact ⟨_, rfl⟩

theorem Unfolds.chain? (unfolds : h.Unfolds v t) : ∃ chain, h.chain? v = some chain :=
  unfolds.chainWithin (.start h _ t) (by simp) []

end Heap

end SexprReader
