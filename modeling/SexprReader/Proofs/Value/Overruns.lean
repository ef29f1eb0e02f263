import SexprReader.Proofs.Value.Acyclic

/-! Comparisons that nest too many calls. Each vector takes a call of its own, so this can only happen where
vectors are in each other; and of three values that look alike, two do not fail alone. -/

namespace SexprReader.Heap

variable {h : Heap} {u v w : Value} {t : Tree Symbol} {limit depth : Nat}

/-- Comparing the values nests too many calls before it comes to a difference. It goes from left to right,
down to parts that are the same object. -/
inductive Overruns (h : Heap) (limit : Nat) : (depth : Nat) → Value → Value → Prop
  | deep {depth : Nat} {v w : Value} (apart : v ≠ w) (deep : limit < depth) : Overruns h limit depth v w
  | first {depth : Nat} {v w : Value} {cell cell' : Cell} (apart : v ≠ w) (found : h.cell? v = some cell)
      (found' : h.cell? w = some cell')
      (overruns : Overruns h limit (cell.first.depthInPair depth) cell.first cell'.first) :
      Overruns h limit depth v w
  | rest {depth : Nat} {v w : Value} {cell cell' : Cell} (apart : v ≠ w) (found : h.cell? v = some cell)
      (found' : h.cell? w = some cell') (same : h.tree? cell.first = h.tree? cell'.first)
      (overruns : Overruns h limit (cell.rest.depthInPair depth) cell.rest cell'.rest) :
      Overruns h limit depth v w
  | element {depth : Nat} {v w x y : Value} {before after before' after' : List Value} (apart : v ≠ w)
      (found : h.elements? v = some (before ++ x :: after))
      (found' : h.elements? w = some (before' ++ y :: after')) (length : after.length = after'.length)
      (same : List.Forall₂ (fun a b => h.tree? a = h.tree? b) before before')
      (overruns : Overruns h limit (x.depthInVector depth) x y) : Overruns h limit depth v w

namespace Overruns

/-- An object is not compared with itself. -/
theorem apart (overruns : h.Overruns limit depth v w) : v ≠ w := by
  cases overruns <;> assumption

theorem lt_nesting (overruns : h.Overruns limit depth v w) (unfolds : h.Unfolds v t) :
    limit < t.nesting depth := by
  induction overruns generalizing t with
  | @deep depth _ _ _ deep => exact Nat.lt_of_lt_of_le deep (t.le_nesting depth)
  | first _ found _ _ ih =>
    obtain ⟨first, rest, rfl, firsts, -⟩ := unfolds.of_cell found
    have inside := ih firsts
    rw [firsts.depthInPair_eq] at inside
    rw [Tree.nesting]
    omega
  | rest _ found _ _ _ ih =>
    obtain ⟨first, rest, rfl, -, rests⟩ := unfolds.of_cell found
    have inside := ih rests
    rw [rests.depthInPair_eq] at inside
    rw [Tree.nesting]
    omega
  | element _ found _ _ _ _ ih =>
    obtain ⟨trees, rfl, all⟩ := unfolds.of_elements found
    obtain ⟨before, tree, after, rfl, -, element, -⟩ := exists_split_of_forall₂ all
    have member : tree ∈ before ++ tree :: after := by simp
    have inside := ih element
    rw [element.depthInVector_eq] at inside
    rw [Tree.nesting]
    exact Nat.lt_of_lt_of_le inside
      (Nat.le_trans (Tree.nesting_le_nestingAll _ member) (Nat.le_max_right _ _))

theorem symm (overruns : h.Overruns limit depth v w) (unfolds : h.Unfolds v t)
    (unfolds' : h.Unfolds w t) : h.Overruns limit depth w v := by
  induction overruns generalizing t with
  | deep apart deep => exact .deep apart.symm deep
  | first apart found found' _ ih =>
    obtain ⟨first, rest, rfl, firsts, -⟩ := unfolds.of_cell found
    obtain ⟨_, _, ⟨⟩, firsts', -⟩ := unfolds'.of_cell found'
    refine .first apart.symm found' found ?_
    rw [firsts'.depthInPair_eq, ← firsts.depthInPair_eq]
    exact ih firsts firsts'
  | rest apart found found' same _ ih =>
    obtain ⟨first, rest, rfl, -, rests⟩ := unfolds.of_cell found
    obtain ⟨_, _, ⟨⟩, -, rests'⟩ := unfolds'.of_cell found'
    refine .rest apart.symm found' found same.symm ?_
    rw [rests'.depthInPair_eq, ← rests.depthInPair_eq]
    exact ih rests rests'
  | element apart found found' length same _ ih =>
    obtain ⟨trees, rfl, all⟩ := unfolds.of_elements found
    obtain ⟨_, ⟨⟩, all'⟩ := unfolds'.of_elements found'
    obtain ⟨before, tree, after, rfl, firsts, element, -⟩ := exists_split_of_forall₂ all
    obtain ⟨_, _, _, split, firsts', element', -⟩ := exists_split_of_forall₂ all'
    have equal : before.length = _ := firsts.length_eq.symm.trans (same.length_eq.trans firsts'.length_eq)
    obtain ⟨rfl, ⟨⟩⟩ := List.append_inj split equal
    refine .element apart.symm found' found length.symm (same.flip.imp fun _ _ => Eq.symm) ?_
    rw [element'.depthInVector_eq, ← element.depthInVector_eq]
    exact ih element element'

theorem cotrans (overruns : h.Overruns limit depth u w) (unfolds : h.Unfolds u t)
    (unfolds' : h.Unfolds w t) (between : h.Unfolds v t) :
    h.Overruns limit depth u v ∨ h.Overruns limit depth v w := by
  induction overruns generalizing v t with
  | @deep _ u w apart deep =>
    by_cases left : u = v
    · exact .inr (.deep (left ▸ apart) deep)
    · exact .inl (.deep left deep)
  | @first _ u w _ _ apart found found' overruns ih =>
    -- The value between may be one of the two, and then nothing is compared on that side.
    by_cases left : u = v
    · exact .inr (left ▸ .first apart found found' overruns)
    by_cases right : v = w
    · exact .inl (right ▸ .first apart found found' overruns)
    obtain ⟨first, rest, rfl, firsts, -⟩ := unfolds.of_cell found
    obtain ⟨_, _, ⟨⟩, firsts', -⟩ := unfolds'.of_cell found'
    obtain ⟨cell, middle, firsts'', -⟩ := between.exists_cell
    refine (ih firsts firsts' firsts'').imp (.first left found middle) fun overruns => ?_
    rw [firsts.depthInPair_eq, ← firsts''.depthInPair_eq] at overruns
    exact .first right middle found' overruns
  | @rest _ u w _ _ apart found found' same overruns ih =>
    by_cases left : u = v
    · exact .inr (left ▸ .rest apart found found' same overruns)
    by_cases right : v = w
    · exact .inl (right ▸ .rest apart found found' same overruns)
    obtain ⟨first, rest, rfl, firsts, rests⟩ := unfolds.of_cell found
    obtain ⟨_, _, ⟨⟩, firsts', rests'⟩ := unfolds'.of_cell found'
    obtain ⟨cell, middle, firsts'', rests''⟩ := between.exists_cell
    refine (ih rests rests' rests'').imp (.rest left found middle (firsts.tree?_eq firsts''))
      fun overruns => ?_
    rw [rests.depthInPair_eq, ← rests''.depthInPair_eq] at overruns
    exact .rest right middle found' (firsts''.tree?_eq firsts') overruns
  | @element _ u w _ _ _ _ _ _ apart found found' length same overruns ih =>
    by_cases left : u = v
    · exact .inr (left ▸ .element apart found found' length same overruns)
    by_cases right : v = w
    · exact .inl (right ▸ .element apart found found' length same overruns)
    obtain ⟨trees, rfl, all⟩ := unfolds.of_elements found
    obtain ⟨_, ⟨⟩, all'⟩ := unfolds'.of_elements found'
    obtain ⟨before, tree, after, rfl, firsts, element, others⟩ := exists_split_of_forall₂ all
    obtain ⟨_, _, _, split, firsts', element', others'⟩ := exists_split_of_forall₂ all'
    have equal : before.length = _ := firsts.length_eq.symm.trans (same.length_eq.trans firsts'.length_eq)
    obtain ⟨rfl, ⟨⟩⟩ := List.append_inj split equal
    obtain ⟨values, middle, all''⟩ := between.exists_elements
    obtain ⟨_, _, _, rfl, firsts'', element'', others''⟩ := exists_split_of_forall₂ all''.flip
    refine (ih element element' element'').imp (.element left found middle ?_ ?_) fun overruns =>
      .element right middle found' ?_ ?_ ?_
    · exact others.length_eq.trans others''.length_eq
    · exact forall₂_same firsts firsts''.flip
    · exact others''.length_eq.symm.trans others'.length_eq.symm
    · exact forall₂_same firsts''.flip firsts'
    · rwa [element.depthInVector_eq, ← element''.depthInVector_eq] at overruns

end Overruns

end SexprReader.Heap
