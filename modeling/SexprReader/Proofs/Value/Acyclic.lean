import SexprReader.Proofs.Store.Spans

/-! Values that do not contain themselves. They are the values which unfold to trees, for the ways into
such a value never meet the same pair or vector twice, and there are only so many of them. -/

namespace SexprReader.Heap

variable {h : Heap} {v u w : Value} {t : Tree Symbol} {step : Toward} {path : List Toward}

def Holds (h : Heap) : Value → Prop
  | .pair address => address < h.pairs.size
  | .vector address => address < h.vectors.size
  | _ => True

/-- Whatever the value is made of exists. -/
def Whole (h : Heap) (v : Value) : Prop := ∀ path w, h.follow v path = some w → h.Holds w

/-- Whatever the value is made of exists, and contains itself nowhere. -/
structure Acyclic (h : Heap) (v : Value) : Prop where
  whole : h.Whole v
  noReturn : ∀ path path' w, h.follow v path = some w → h.follow w path' = some w → path' = []

namespace Unfolds

theorem holds (unfolds : h.Unfolds v t) : h.Holds v := by
  cases unfolds with
  | pair found => exact (Array.getElem?_eq_some_iff.mp found).1
  | vector found => exact (Array.getElem?_eq_some_iff.mp found).1
  | _ => trivial

theorem part (unfolds : h.Unfolds v t) (part : h.part? v step = some u) :
    ∃ t', h.Unfolds u t' ∧ sizeOf t' < sizeOf t := by
  cases unfolds with
  | pair found firsts rests =>
    obtain ⟨-, rfl⟩ | ⟨-, rfl⟩ := part?_pair found part
    · exact ⟨_, firsts, Tree.sizeOf_first_lt _ _⟩
    · exact ⟨_, rests, Tree.sizeOf_rest_lt _ _⟩
  | vector found length each =>
    obtain ⟨i, -, element⟩ := part?_vector found part
    have inside := (List.getElem?_eq_some_iff.mp element).1
    have tree := List.getElem?_eq_getElem (length ▸ inside)
    exact ⟨_, each i _ _ element tree, Tree.sizeOf_lt_of_mem (List.mem_of_getElem? tree)⟩
  | _ => cases step <;> cases part

theorem follow (unfolds : h.Unfolds v t) (leads : h.follow v path = some w) :
    ∃ t', h.Unfolds w t' ∧ sizeOf t' + path.length ≤ sizeOf t := by
  induction path generalizing v t with
  | nil =>
    cases leads
    exact ⟨t, unfolds, Nat.le_refl _⟩
  | cons step path ih =>
    obtain ⟨u, part, onward⟩ := follow_cons_eq_some.mp leads
    obtain ⟨t', unfolds', smaller⟩ := unfolds.part part
    obtain ⟨t'', unfolds'', less⟩ := ih unfolds' onward
    refine ⟨t'', unfolds'', ?_⟩
    rw [List.length_cons]
    omega

theorem acyclic (unfolds : h.Unfolds v t) : h.Acyclic v where
  whole path w leads := by
    obtain ⟨t', unfolds', -⟩ := unfolds.follow leads
    exact unfolds'.holds
  noReturn path path' w leads returns := by
    obtain ⟨t', unfolds', -⟩ := unfolds.follow leads
    obtain ⟨t'', unfolds'', less⟩ := unfolds'.follow returns
    rw [unfolds'.unique unfolds''] at less
    exact List.length_eq_zero_iff.mp (by omega)

end Unfolds

theorem Whole.part (whole : h.Whole v) (part : h.part? v step = some u) : h.Whole u :=
  fun path w leads => whole (step :: path) w (follow_cons_eq_some.mpr ⟨u, part, leads⟩)

namespace Acyclic

theorem part (acyclic : h.Acyclic v) (part : h.part? v step = some u) : h.Acyclic u where
  whole := acyclic.whole.part part
  noReturn path path' w leads :=
    acyclic.noReturn (step :: path) path' w (follow_cons_eq_some.mpr ⟨u, part, leads⟩)

theorem exists_unfolds_behind (acyclic : h.Acyclic v) {met : List Value} (distinct : met.Nodup)
    (inside : met ⊆ h.containers)
    (leads : ∀ w ∈ met, ∃ step path, h.follow w (step :: path) = some v) : ∃ t, h.Unfolds v t := by
  -- Each container on the way is a new one, so the induction is on how many are not met yet.
  induction room : h.containers.length - met.length using Nat.strongRecOn generalizing v met with
  | ind room' ih =>
    have onward (container : v ∈ h.containers) (step : Toward) {u : Value}
        (part : h.part? v step = some u) : ∃ t, h.Unfolds u t := by
      have fresh : v ∉ met := by
        intro again
        obtain ⟨step, path, returns⟩ := leads v again
        cases acyclic.noReturn [] (step :: path) v rfl returns
      have distinct' : (v :: met).Nodup := List.nodup_cons.mpr ⟨fresh, distinct⟩
      have inside' : v :: met ⊆ h.containers := List.cons_subset.mpr ⟨container, inside⟩
      have few := (List.subperm_of_subset distinct' inside').length_le
      rw [List.length_cons] at few
      refine ih _ ?_ (acyclic.part part) distinct' inside' (fun w member => ?_) rfl
      · rw [List.length_cons]
        omega
      · rcases List.mem_cons.mp member with rfl | earlier
        · exact ⟨step, [], follow_cons_eq_some.mpr ⟨u, part, rfl⟩⟩
        · obtain ⟨step', path, reaches⟩ := leads w earlier
          refine ⟨step', path ++ [step], ?_⟩
          rw [← List.cons_append, follow_append, reaches]
          exact follow_cons_eq_some.mpr ⟨u, part, rfl⟩
    have there := acyclic.whole [] v rfl
    cases v with
    | pair address =>
      have found := Array.getElem?_eq_getElem there
      have container := mem_containers_of_cell? found
      obtain ⟨first, firsts⟩ := onward container .first (congrArg (Option.map Cell.first) found)
      obtain ⟨rest, rests⟩ := onward container .rest (congrArg (Option.map Cell.rest) found)
      exact ⟨_, .pair found firsts rests⟩
    | vector address =>
      have found := Array.getElem?_eq_getElem there
      have container := mem_containers_of_elements? found
      obtain ⟨trees, unfold⟩ := exists_forall₂_of_each (R := h.Unfolds) fun i u element =>
        onward container (.element i) ((congrArg (Option.bind · (·[i]?)) found).trans element)
      exact ⟨_, .vector found unfold.length_eq (getElem?_of_forall₂ unfold)⟩
    | _ => exact exists_unfolds_of_atom trivial

theorem exists_unfolds (acyclic : h.Acyclic v) : ∃ t, h.Unfolds v t :=
  acyclic.exists_unfolds_behind .nil (List.nil_subset _) nofun

end Acyclic

theorem acyclic_iff : h.Acyclic v ↔ ∃ t, h.tree? v = some t := by
  constructor
  · intro acyclic
    obtain ⟨t, unfolds⟩ := acyclic.exists_unfolds
    exact ⟨t, tree?_eq_some_iff.mpr unfolds⟩
  · rintro ⟨t, known⟩
    exact (tree?_eq_some_iff.mp known).acyclic

end SexprReader.Heap
