import SexprReader.Proofs.Value.Compared
import SexprReader.Proofs.Value.Nests
import SexprReader.Proofs.Value.Overruns

/-! Equality is structural. What a list of pending comparisons will come to can be told from the trees of
the values alone, but for vectors in each other, each of which takes a call of its own. A step does not
change what is to be told. -/

namespace SexprReader.Heap

variable {h : Heap} {u v w : Value} {t t' : Tree Symbol} {limit depth : Nat} {pending : List Comparison}
  {result : Except ValueFault Bool}

/-- Both values are written out as the same tree. -/
def Same (h : Heap) (c : Comparison) : Prop := h.tree? c.left = h.tree? c.right

def OverrunsAmong (h : Heap) (limit : Nat) : List Comparison → Prop
  | [] => False
  | c :: pending => h.Overruns limit c.depth c.left c.right ∨ h.Same c ∧ OverrunsAmong h limit pending

/-- What the pending comparisons come to together. -/
inductive Verdict (h : Heap) (limit : Nat) (pending : List Comparison) : Except ValueFault Bool → Prop
  | tooDeep (overruns : h.OverrunsAmong limit pending) : Verdict h limit pending (.error .tooDeep)
  | answer {same : Bool} (within : ¬ h.OverrunsAmong limit pending)
      (decides : same = true ↔ ∀ c ∈ pending, h.Same c) : Verdict h limit pending (.ok same)

def HaveTrees (h : Heap) (pending : List Comparison) : Prop :=
  ∀ c ∈ pending, (∃ t, h.Unfolds c.left t) ∧ ∃ t, h.Unfolds c.right t

theorem overrunsAmong_append (pending pending' : List Comparison) :
    h.OverrunsAmong limit (pending ++ pending') ↔
      h.OverrunsAmong limit pending ∨ (∀ c ∈ pending, h.Same c) ∧ h.OverrunsAmong limit pending' := by
  induction pending with
  | nil => simp [OverrunsAmong]
  | cons c pending ih =>
    simp only [List.cons_append, OverrunsAmong, ih, List.forall_mem_cons]
    tauto

theorem Verdict.replace {c : Comparison} {parts : List Comparison}
    (verdict : h.Verdict limit (parts ++ pending) result)
    (overruns : h.OverrunsAmong limit parts ↔ h.Overruns limit c.depth c.left c.right)
    (same : (∀ part ∈ parts, h.Same part) ↔ h.Same c) : h.Verdict limit (c :: pending) result := by
  have alike : h.OverrunsAmong limit (parts ++ pending) ↔ h.OverrunsAmong limit (c :: pending) := by
    rw [overrunsAmong_append, overruns, same, OverrunsAmong]
  cases verdict with
  | tooDeep among => exact .tooDeep (alike.mp among)
  | answer within decides =>
    refine .answer (fun among => within (alike.mpr among)) (decides.trans ?_)
    rw [List.forall_mem_append, List.forall_mem_cons, same]

section Parts

variable {cell cell' : Cell} {values values' : List Value} (shallow : depth ≤ limit) (apart : v ≠ w)

include shallow apart

theorem overruns_pair_iff (found : h.cell? v = some cell) (found' : h.cell? w = some cell') :
    h.OverrunsAmong limit (compareCells depth cell cell') ↔ h.Overruns limit depth v w := by
  simp only [compareCells, OverrunsAmong, and_false, or_false]
  constructor
  · rintro (overruns | ⟨same, overruns⟩)
    · exact .first apart found found' overruns
    · exact .rest apart found found' same overruns
  · intro overruns
    cases overruns with
    | deep _ deep => exact absurd shallow (Nat.not_le.mpr deep)
    | first _ known known' overruns =>
      cases found.symm.trans known
      cases found'.symm.trans known'
      exact .inl overruns
    | rest _ known known' same overruns =>
      cases found.symm.trans known
      cases found'.symm.trans known'
      exact .inr ⟨same, overruns⟩
    | element _ known =>
      cases v with
      | pair address => cases known
      | _ => cases found

omit shallow apart in
theorem overrunsAmong_elements (length : values.length = values'.length) :
    h.OverrunsAmong limit (values.zipWith (fun a b => ⟨a.depthInVector depth, a, b⟩) values') ↔
      ∃ before x after before' y after', values = before ++ x :: after ∧
        values' = before' ++ y :: after' ∧ after.length = after'.length ∧
        List.Forall₂ (fun a b => h.tree? a = h.tree? b) before before' ∧
        h.Overruns limit (x.depthInVector depth) x y := by
  induction values generalizing values' with
  | nil => simp [OverrunsAmong]
  | cons a values ih =>
    cases values' with
    | nil => cases length
    | cons b values' =>
      rw [List.zipWith_cons_cons, OverrunsAmong, ih (Nat.succ.inj length)]
      constructor
      · rintro (overruns | ⟨same, before, x, after, before', y, after', rfl, rfl, ends, others, overruns⟩)
        · exact ⟨[], a, values, [], b, values', rfl, rfl, Nat.succ.inj length, .nil, overruns⟩
        · exact ⟨a :: before, x, after, b :: before', y, after', rfl, rfl, ends, .cons same others,
            overruns⟩
      · rintro ⟨before, x, after, before', y, after', split, split', ends, same, overruns⟩
        cases same with
        | nil =>
          cases split
          cases split'
          exact .inl overruns
        | cons first others =>
          cases split
          cases split'
          exact .inr ⟨first, _, x, after, _, y, after', rfl, rfl, ends, others, overruns⟩

theorem overruns_vector_iff (found : h.elements? v = some values) (found' : h.elements? w = some values')
    (length : values.length = values'.length) :
    h.OverrunsAmong limit (values.zipWith (fun a b => ⟨a.depthInVector depth, a, b⟩) values') ↔
      h.Overruns limit depth v w := by
  rw [overrunsAmong_elements length]
  constructor
  · rintro ⟨before, x, after, before', y, after', rfl, rfl, ends, same, overruns⟩
    exact .element apart found found' ends same overruns
  · intro overruns
    cases overruns with
    | deep _ deep => exact absurd shallow (Nat.not_le.mpr deep)
    | first _ known =>
      cases v with
      | vector address => cases known
      | _ => cases found
    | rest _ known =>
      cases v with
      | vector address => cases known
      | _ => cases found
    | element _ known known' ends same overruns =>
      cases found.symm.trans known
      cases found'.symm.trans known'
      exact ⟨_, _, _, _, _, _, rfl, rfl, ends, same, overruns⟩

end Parts

theorem same_pair_iff {cell cell' : Cell} {address address' : Nat} {first first' rest rest' : Tree Symbol}
    (found : h.cell? (.pair address) = some cell) (found' : h.cell? (.pair address') = some cell')
    (firsts : h.Unfolds cell.first first) (firsts' : h.Unfolds cell'.first first')
    (rests : h.Unfolds cell.rest rest) (rests' : h.Unfolds cell'.rest rest') :
    (∀ part ∈ compareCells depth cell cell', h.Same part) ↔
      h.tree? (.pair address) = h.tree? (.pair address') := by
  simp only [compareCells, List.forall_mem_cons, List.not_mem_nil, IsEmpty.forall_iff, implies_true,
    and_true, Same]
  rw [tree?_eq_some_iff.mpr firsts, tree?_eq_some_iff.mpr firsts', tree?_eq_some_iff.mpr rests,
    tree?_eq_some_iff.mpr rests', tree?_eq_some_iff.mpr (.pair found firsts rests),
    tree?_eq_some_iff.mpr (.pair found' firsts' rests')]
  simp

theorem same_elements_iff {values values' : List Value} {trees trees' : List (Tree Symbol)}
    (all : List.Forall₂ h.Unfolds values trees) (all' : List.Forall₂ h.Unfolds values' trees')
    (length : values.length = values'.length) :
    (∀ part ∈ values.zipWith (fun a b => ⟨a.depthInVector depth, a, b⟩) values', h.Same part) ↔
      trees = trees' := by
  induction all generalizing values' trees' with
  | nil =>
    cases all' with
    | nil => simp
    | cons => cases length
  | cons first others ih =>
    cases all' with
    | nil => cases length
    | cons first' others' =>
      rw [List.zipWith_cons_cons, List.forall_mem_cons, ih others' (Nat.succ.inj length), Same,
        tree?_eq_some_iff.mpr first, tree?_eq_some_iff.mpr first', Option.some_inj, List.cons.injEq]

theorem haveTrees_elements {values values' : List Value} {trees trees' : List (Tree Symbol)}
    (all : List.Forall₂ h.Unfolds values trees) (all' : List.Forall₂ h.Unfolds values' trees') :
    h.HaveTrees (values.zipWith (fun a b => ⟨a.depthInVector depth, a, b⟩) values') := by
  induction all generalizing values' trees' with
  | nil => simp [HaveTrees]
  | cons first others ih =>
    cases all' with
    | nil => simp [HaveTrees]
    | cons first' others' => exact List.forall_mem_cons.mpr ⟨⟨⟨_, first⟩, _, first'⟩, ih others'⟩

structure Reduces (h : Heap) (limit depth : Nat) (v w : Value) (parts : List Comparison) : Prop where
  trees : h.HaveTrees parts
  overruns : h.OverrunsAmong limit parts ↔ h.Overruns limit depth v w
  same : (∀ part ∈ parts, h.Same part) ↔ h.tree? v = h.tree? w

inductive RootVerdict (h : Heap) (limit depth : Nat) (v w : Value) : Option (List Comparison) → Prop
  | parts {parts : List Comparison} (reduces : h.Reduces limit depth v w parts) :
      RootVerdict h limit depth v w (some parts)
  | different (within : ¬ h.Overruns limit depth v w) (different : h.tree? v ≠ h.tree? w) :
      RootVerdict h limit depth v w none

namespace RootVerdict

theorem nothing_left (within : ¬ h.Overruns limit depth v w) (same : h.tree? v = h.tree? w) :
    h.RootVerdict limit depth v w (some []) :=
  .parts ⟨nofun, by simp [OverrunsAmong, within], by simp [same]⟩

section

variable (shallow : depth ≤ limit)

include shallow

theorem pairs {address address' : Nat} {cell cell' : Cell} {first first' rest rest' : Tree Symbol}
    (apart : Value.pair address ≠ .pair address') (found : h.cell? (.pair address) = some cell)
    (found' : h.cell? (.pair address') = some cell') (firsts : h.Unfolds cell.first first)
    (firsts' : h.Unfolds cell'.first first') (rests : h.Unfolds cell.rest rest)
    (rests' : h.Unfolds cell'.rest rest') :
    h.RootVerdict limit depth (.pair address) (.pair address')
      (h.compareRoots depth (.pair address) (.pair address')) := by
  simp only [compareRoots, found, found']
  refine .parts ⟨?_, overruns_pair_iff shallow apart found found',
    same_pair_iff found found' firsts firsts' rests rests'⟩
  exact List.forall_mem_cons.mpr ⟨⟨⟨_, firsts⟩, _, firsts'⟩,
    List.forall_mem_singleton.mpr ⟨⟨_, rests⟩, _, rests'⟩⟩

theorem vectors {address address' : Nat} {values values' : List Value} {trees trees' : List (Tree Symbol)}
    (apart : Value.vector address ≠ .vector address')
    (found : h.elements? (.vector address) = some values)
    (found' : h.elements? (.vector address') = some values')
    (all : List.Forall₂ h.Unfolds values trees) (all' : List.Forall₂ h.Unfolds values' trees') :
    h.RootVerdict limit depth (.vector address) (.vector address')
      (h.compareRoots depth (.vector address) (.vector address')) := by
  have known := tree?_eq_some_iff.mpr (.vector found all.length_eq (getElem?_of_forall₂ all))
  have known' := tree?_eq_some_iff.mpr (.vector found' all'.length_eq (getElem?_of_forall₂ all'))
  simp only [compareRoots, found, found', compareElements]
  split
  next equal =>
    refine .parts ⟨haveTrees_elements all all', overruns_vector_iff shallow apart found found' equal, ?_⟩
    rw [same_elements_iff all all' equal, known, known']
    simp
  next other =>
    refine .different (fun overruns => ?_) ?_
    · cases overruns with
      | deep _ deep => exact absurd shallow (Nat.not_le.mpr deep)
      | first _ known => cases known
      | rest _ known => cases known
      | element _ seen seen' ends same =>
        cases found.symm.trans seen
        cases found'.symm.trans seen'
        simp [same.length_eq, ends] at other
    · rw [known, known']
      rintro ⟨⟩
      exact other (all.length_eq.trans all'.length_eq.symm)

/-- Values of which one refers to no others, or which are of different kinds, are told apart at once. -/
theorem of_kinds (unfolds : h.Unfolds v t) (unfolds' : h.Unfolds w t')
    (single : h.cell? v = none ∨ h.cell? w = none)
    (flat : h.elements? v = none ∨ h.elements? w = none) :
    h.RootVerdict limit depth v w (h.compareRoots depth v w) := by
  have within : ¬ h.Overruns limit depth v w := by
    intro overruns
    cases overruns with
    | deep _ deep => exact absurd shallow (Nat.not_le.mpr deep)
    | first _ found found' => simp [found, found'] at single
    | rest _ found found' => simp [found, found'] at single
    | element _ found found' => simp [found, found'] at flat
  have decided : h.compareRoots depth v w = some [] ∧ t = t' ∨
      h.compareRoots depth v w = none ∧ t ≠ t' := by
    cases unfolds <;> cases unfolds' <;> simp_all [compareRoots, leafEqual, Decidable.em]
  have known := tree?_eq_some_iff.mpr unfolds
  have known' := tree?_eq_some_iff.mpr unfolds'
  obtain ⟨roots, rfl⟩ | ⟨roots, other⟩ := decided
  · rw [roots]
    exact .nothing_left within (known.trans known'.symm)
  · rw [roots]
    exact .different within (by simpa [known, known'] using other)

end

end RootVerdict

theorem rootVerdict (unfolds : h.Unfolds v t) (unfolds' : h.Unfolds w t') (apart : v ≠ w)
    (shallow : depth ≤ limit) : h.RootVerdict limit depth v w (h.compareRoots depth v w) := by
  have otherwise := RootVerdict.of_kinds shallow unfolds unfolds'
  cases unfolds with
  | pair found firsts rests =>
    cases unfolds' with
    | pair found' firsts' rests' =>
      exact .pairs shallow apart found found' firsts firsts' rests rests'
    | _ => exact otherwise (.inr rfl) (.inl rfl)
  | vector found length each =>
    cases unfolds' with
    | vector found' length' each' =>
      exact .vectors shallow apart found found' (forall₂_of_getElem? length each)
        (forall₂_of_getElem? length' each')
    | _ => exact otherwise (.inl rfl) (.inr rfl)
  | _ => exact otherwise (.inl rfl) (.inl rfl)

theorem compareStep_verdict (trees : h.HaveTrees pending) :
    (∃ result, h.compareStep limit pending = .inr result ∧ h.Verdict limit pending result) ∨
      ∃ pending', h.compareStep limit pending = .inl pending' ∧ h.HaveTrees pending' ∧
        ∀ result, h.Verdict limit pending' result → h.Verdict limit pending result := by
  cases pending with
  | nil => exact .inl ⟨_, rfl, .answer (by simp [OverrunsAmong]) (by simp)⟩
  | cons comparison pending =>
    obtain ⟨depth, v, w⟩ := comparison
    obtain ⟨⟨⟨t, unfolds⟩, t', unfolds'⟩, others⟩ := List.forall_mem_cons.mp trees
    by_cases apart : v = w
    · subst apart
      refine .inr ⟨pending, compareStep_self .., others, fun result verdict => ?_⟩
      have within : ¬ h.Overruns limit depth v v := fun overruns => overruns.apart rfl
      have alone : h.Verdict limit ([] ++ pending) result := verdict
      exact alone.replace (by simp [OverrunsAmong, within]) (by simp [Same])
    by_cases deep : limit < depth
    · exact .inl ⟨_, compareStep_deep apart deep, .tooDeep (.inl (.deep apart deep))⟩
    have shallow := Nat.le_of_not_lt deep
    have roots := rootVerdict unfolds unfolds' apart shallow
    cases compared : h.compareRoots depth v w with
    | some parts =>
      rw [compared] at roots
      cases roots with
      | parts reduces =>
        refine .inr ⟨parts ++ pending, compareStep_parts apart shallow compared,
          List.forall_mem_append.mpr ⟨reduces.trees, others⟩, fun result verdict => ?_⟩
        exact verdict.replace reduces.overruns reduces.same
    | none =>
      rw [compared] at roots
      cases roots with
      | different within different =>
        refine .inl ⟨_, compareStep_different apart shallow compared, .answer ?_ ?_⟩
        · rintro (overruns | ⟨same, -⟩)
          · exact within overruns
          · exact different same
        · simp [Same, different]

theorem verdict_of_runFor {bound : Nat} (trees : h.HaveTrees pending)
    (ends : Steps.runFor (h.compareStep limit) bound pending = .inr result) :
    h.Verdict limit pending result := by
  induction bound generalizing pending with
  | zero => cases ends
  | succ bound ih =>
    unfold Steps.runFor at ends
    obtain ⟨result', step, verdict⟩ | ⟨pending', step, trees', keeps⟩ := compareStep_verdict trees
    · rw [step] at ends
      cases ends
      exact verdict
    · rw [step] at ends
      exact keeps result (ih trees' ends)

theorem Unfolds.equal_verdict (unfolds : h.Unfolds v t) (unfolds' : h.Unfolds w t') :
    h.Verdict limit [⟨0, v, w⟩] (h.equal v w limit) := by
  have trees : h.HaveTrees [⟨0, v, w⟩] := List.forall_mem_singleton.mpr ⟨⟨t, unfolds⟩, t', unfolds'⟩
  have ends := unfolds.equal_ne_cyclic w limit
  rw [equal, Steps.runDoubling_eq] at ends ⊢
  cases ran : Steps.runFor (h.compareStep limit) ((Nat.pow 2 h.rounds - 1) * 1) [⟨0, v, w⟩] with
  | inl pending =>
    rw [ran] at ends
    exact absurd rfl ends
  | inr result => exact verdict_of_runFor trees ran

theorem equal_self (h : Heap) (v : Value) (limit : Nat) : h.equal v v limit = .ok true := by
  have ends : Steps.runFor (h.compareStep limit) 2 [⟨0, v, v⟩] = .inr (.ok true) := by
    simp [Steps.runFor, compareStep]
  have many : 2 ≤ (Nat.pow 2 h.rounds - 1) * 1 := by
    have few : 6 * 6 ≤ h.rounds := Nat.mul_le_mul (Nat.le_add_left 6 _) (Nat.le_add_left 6 _)
    have power : 2 ^ 2 ≤ Nat.pow 2 h.rounds := Nat.pow_le_pow_right (by decide) (by omega)
    omega
  rw [equal, Steps.runDoubling_eq, Steps.runFor_of_le ends many]
  rfl

theorem Verdict.tooDeep_iff (verdict : h.Verdict limit [⟨0, v, w⟩] result) :
    result = .error .tooDeep ↔ h.Overruns limit 0 v w := by
  cases verdict with
  | tooDeep overruns => simpa [OverrunsAmong] using overruns
  | answer within => simpa [OverrunsAmong] using within

theorem Verdict.ok_iff (verdict : h.Verdict limit [⟨0, v, w⟩] result) (same : Bool) :
    result = .ok same ↔ ¬ h.Overruns limit 0 v w ∧ (same = true ↔ h.tree? v = h.tree? w) := by
  cases verdict with
  | tooDeep overruns =>
    have overruns : h.Overruns limit 0 v w := by simpa [OverrunsAmong] using overruns
    simp [overruns]
  | @answer same' within decides =>
    have decides : same' = true ↔ h.tree? v = h.tree? w := by simpa [Same] using decides
    have within : ¬ h.Overruns limit 0 v w := by simpa [OverrunsAmong] using within
    simp only [Except.ok.injEq, within, not_false_eq_true, true_and, ← decides]
    exact ⟨fun equal => by rw [equal], fun equal => Bool.eq_iff_iff.mpr equal.symm⟩

/-- Two values are equal exactly if they are written out as the same tree, with symbols and constants that
are the same and with numbers, strings and characters that have the same value. How they share their parts
does not matter. There is an answer unless vectors are in each other beyond the limit for calls, and values
that were found equal are related like equals. -/
theorem equal_structural (h : Heap) (limit : Nat) :
    (∀ v w, h.Acyclic v → h.Acyclic w →
      (h.equal v w limit = .error .tooDeep ↔ h.Overruns limit 0 v w) ∧
      (h.equal v w limit = .ok true ↔ ¬ h.Overruns limit 0 v w ∧ h.tree? v = h.tree? w) ∧
      (h.equal v w limit = .ok false ↔ ¬ h.Overruns limit 0 v w ∧ h.tree? v ≠ h.tree? w)) ∧
    (∀ v w t, h.tree? v = some t → t.nesting 0 ≤ limit → ¬ h.Overruns limit 0 v w) ∧
    (∀ v, h.equal v v limit = .ok true) ∧
    (∀ v w, h.Acyclic v → h.Acyclic w → h.equal v w limit = .ok true → h.equal w v limit = .ok true) ∧
    (∀ u v w, h.Acyclic u → h.Acyclic v → h.Acyclic w → h.equal u v limit = .ok true →
      h.equal v w limit = .ok true → h.equal u w limit = .ok true) ∧
    ∀ (h' : Heap) (limit' : Nat) (v w v' w' : Value), h.Acyclic v → h.Acyclic w →
      h.tree? v = h'.tree? v' → h.tree? w = h'.tree? w' → ∀ same same', h.equal v w limit = .ok same →
        h'.equal v' w' limit' = .ok same' → same = same' := by
  have verdict {h : Heap} {v w : Value} {limit : Nat} (acyclic : h.Acyclic v) (acyclic' : h.Acyclic w) :
      h.Verdict limit [⟨0, v, w⟩] (h.equal v w limit) := by
    obtain ⟨t, unfolds⟩ := acyclic.exists_unfolds
    obtain ⟨t', unfolds'⟩ := acyclic'.exists_unfolds
    exact unfolds.equal_verdict unfolds'
  have equals {v w : Value} (acyclic : h.Acyclic v) (acyclic' : h.Acyclic w) :
      h.equal v w limit = .ok true ↔ ¬ h.Overruns limit 0 v w ∧ h.tree? v = h.tree? w := by
    simpa using (verdict acyclic acyclic').ok_iff true
  refine ⟨fun v w acyclic acyclic' => ⟨(verdict acyclic acyclic').tooDeep_iff, equals acyclic acyclic', ?_⟩,
    fun v w t known shallow overruns => ?_, fun v => h.equal_self v limit,
    fun v w acyclic acyclic' equal => ?_, fun u v w acyclic between acyclic' equal equal' => ?_,
    fun h' limit' v w v' w' acyclic acyclic' same same' answer answer' one other => ?_⟩
  · simpa using (verdict acyclic acyclic').ok_iff false
  · exact absurd (overruns.lt_nesting (tree?_eq_some_iff.mp known)) (Nat.not_lt.mpr shallow)
  · obtain ⟨within, same⟩ := (equals acyclic acyclic').mp equal
    obtain ⟨t, known⟩ := acyclic_iff.mp acyclic
    refine (equals acyclic' acyclic).mpr ⟨fun overruns => within ?_, same.symm⟩
    exact overruns.symm (tree?_eq_some_iff.mp (same.symm.trans known)) (tree?_eq_some_iff.mp known)
  · obtain ⟨within, same⟩ := (equals acyclic between).mp equal
    obtain ⟨within', same'⟩ := (equals between acyclic').mp equal'
    obtain ⟨t, known⟩ := acyclic_iff.mp between
    refine (equals acyclic acyclic').mpr ⟨fun overruns => ?_, same.trans same'⟩
    have apart := overruns.cotrans (tree?_eq_some_iff.mp (same.trans known))
      (tree?_eq_some_iff.mp (same'.symm.trans known)) (tree?_eq_some_iff.mp known)
    exact apart.elim within within'
  -- A value with a tree is without cycles, so the values of the other heap are as well.
  · have trees {v v' : Value} (acyclic : h.Acyclic v) (same : h.tree? v = h'.tree? v') :
        h'.Acyclic v' := by
      obtain ⟨t, known⟩ := acyclic_iff.mp acyclic
      exact acyclic_iff.mpr ⟨t, same.symm.trans known⟩
    obtain ⟨-, decides⟩ := ((verdict acyclic acyclic').ok_iff answer).mp one
    obtain ⟨-, decides'⟩ := ((verdict (trees acyclic same) (trees acyclic' same')).ok_iff answer').mp other
    rw [same, same'] at decides
    exact Bool.eq_iff_iff.mpr (decides.trans decides'.symm)

/-- A list that shares its parts, one that does not, and one that ends in another way. -/
theorem equal_structural_shared :
    let h : Heap := ⟨#[⟨.string "s", .nil⟩, ⟨.pair 0, .pair 0⟩, ⟨.string "s", .nil⟩, ⟨.pair 0, .pair 2⟩,
      ⟨.pair 0, .integer 1⟩], #[[.pair 1], [.pair 3], [.pair 4]], 0⟩
    h.Acyclic (.vector 0) ∧ h.Acyclic (.vector 1) ∧ h.Acyclic (.vector 2) ∧
      h.equal (.vector 0) (.vector 1) 1 = .ok true ∧ h.equal (.vector 1) (.vector 0) 1 = .ok true ∧
      h.equal (.vector 0) (.vector 2) 1 = .ok false := by
  intro h
  have acyclic : h.Acyclic (.vector 0) := acyclic_iff.mpr ⟨_, rfl⟩
  have acyclic' : h.Acyclic (.vector 1) := acyclic_iff.mpr ⟨_, rfl⟩
  have acyclic'' : h.Acyclic (.vector 2) := acyclic_iff.mpr ⟨_, rfl⟩
  obtain ⟨decides, shallow, -, symmetric, -⟩ := equal_structural h 1
  have within (w : Value) : ¬ h.Overruns 1 0 (.vector 0) w := shallow _ w _ rfl (by decide)
  have equal : h.equal (.vector 0) (.vector 1) 1 = .ok true :=
    (decides _ _ acyclic acyclic').2.1.mpr ⟨within _, rfl⟩
  have different : h.tree? (.vector 0) ≠ h.tree? (.vector 2) := by
    intro same
    cases same
  exact ⟨acyclic, acyclic', acyclic'', equal, symmetric _ _ acyclic acyclic' equal,
    (decides _ _ acyclic acyclic'').2.2.mpr ⟨within _, different⟩⟩

theorem twins_overrun {count depth inner : Nat} (inside : inner < count)
    (deep : limit < depth + inner) :
    (twins count).Overruns limit depth (.vector (2 * inner)) (.vector (2 * inner + 1)) := by
  induction inner generalizing depth with
  | zero => exact .deep (by simp) deep
  | succ inner ih =>
    have found : (twins count).elements? (.vector (2 * (inner + 1))) = _ := elements?_twins (by omega)
    have found' : (twins count).elements? (.vector (2 * (inner + 1) + 1)) = _ :=
      elements?_twins (by omega)
    rw [if_neg (by omega), show 2 * (inner + 1) - 2 = 2 * inner by omega] at found
    rw [if_neg (by omega), show 2 * (inner + 1) + 1 - 2 = 2 * inner + 1 by omega] at found'
    have apart : Value.vector (2 * (inner + 1)) ≠ .vector (2 * (inner + 1) + 1) := by simp
    rw [← List.nil_append [Value.vector (2 * inner)]] at found
    rw [← List.nil_append [Value.vector (2 * inner + 1)]] at found'
    have inside' : limit < depth + 1 + inner := by omega
    exact .element apart found found' rfl .nil (ih (by omega) inside')

/-- No limit for calls is high enough for all values that are alike to be found equal. -/
theorem not_exists_comparing_limit :
    ¬ ∃ limit, ∀ (h : Heap) (v w : Value), h.Acyclic v → h.Acyclic w → h.tree? v = h.tree? w →
      h.equal v w limit = .ok true := by
  rintro ⟨limit, compares⟩
  have inside := Nat.lt_succ_self (limit + 1)
  have unfolds : (twins (limit + 2)).Unfolds (.vector (2 * (limit + 1))) (nest (limit + 1)) :=
    unfolds_twins Nat.two_pos inside
  have unfolds' : (twins (limit + 2)).Unfolds (.vector (2 * (limit + 1) + 1)) (nest (limit + 1)) :=
    unfolds_twins Nat.one_lt_two inside
  have equal := compares _ _ _ unfolds.acyclic unfolds'.acyclic (unfolds.tree?_eq unfolds')
  have overruns := twins_overrun inside (by omega : limit < 0 + (limit + 1))
  cases equal.symm.trans ((unfolds.equal_verdict unfolds').tooDeep_iff.mpr overruns)

end SexprReader.Heap
