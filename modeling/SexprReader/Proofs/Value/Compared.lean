import SexprReader.Proofs.Value.Written
import SexprReader.Value.Equality

/-! Work on a value that is a tree comes to an end. Each comparison takes the left value apart, so that
what is left of the trees gets smaller. Writing and listing such a value never run in a circle. -/

namespace SexprReader

namespace Tree

theorem costAll_append {S : Type} (trees trees' : List (Tree S)) :
    costAll (trees ++ trees') = costAll trees + costAll trees' := by
  induction trees with
  | nil => rw [List.nil_append, costAll, Nat.zero_add]
  | cons tree trees ih =>
    rw [List.cons_append, costAll, costAll, ih]
    omega

end Tree

namespace Heap

variable {h : Heap} {v w : Value} {t : Tree Symbol} {limit depth : Nat}
  {parts pending : List Comparison} {trees : List (Tree Symbol)}

theorem compareStep_self (h : Heap) (limit depth : Nat) (v : Value) (pending : List Comparison) :
    h.compareStep limit (⟨depth, v, v⟩ :: pending) = .inl pending := by
  simp [compareStep]

theorem compareStep_deep (apart : v ≠ w) (deep : limit < depth) :
    h.compareStep limit (⟨depth, v, w⟩ :: pending) = .inr (.error .tooDeep) := by
  simp [compareStep, apart, deep]

theorem compareStep_parts (apart : v ≠ w) (shallow : depth ≤ limit)
    (compares : h.compareRoots depth v w = some parts) :
    h.compareStep limit (⟨depth, v, w⟩ :: pending) = .inl (parts ++ pending) := by
  simp [compareStep, apart, Nat.not_lt.mpr shallow, compares]

theorem compareStep_different (apart : v ≠ w) (shallow : depth ≤ limit)
    (compares : h.compareRoots depth v w = none) :
    h.compareStep limit (⟨depth, v, w⟩ :: pending) = .inr (.ok false) := by
  simp [compareStep, apart, Nat.not_lt.mpr shallow, compares]

/-- The left values of these comparisons are the trees. -/
def Takes (h : Heap) (pending : List Comparison) (trees : List (Tree Symbol)) : Prop :=
  List.Forall₂ h.Unfolds (pending.map Comparison.left) trees

namespace Takes

theorem append {pending' : List Comparison} {trees' : List (Tree Symbol)}
    (first : h.Takes pending trees) (second : h.Takes pending' trees') :
    h.Takes (pending ++ pending') (trees ++ trees') := by
  rw [Takes, List.map_append]
  exact List.rel_append first second

theorem cells {a b : Cell} {first rest : Tree Symbol} (firsts : h.Unfolds a.first first)
    (rests : h.Unfolds a.rest rest) : h.Takes (compareCells depth a b) [first, rest] :=
  .cons firsts (.cons rests .nil)

theorem elements {values values' : List Value} (all : List.Forall₂ h.Unfolds values trees)
    (length : values.length = values'.length) :
    h.Takes (values.zipWith (fun a b => ⟨a.depthInVector depth, a, b⟩) values') trees := by
  induction all generalizing values' with
  | nil => exact .nil
  | cons first _ ih =>
    cases values' with
    | nil => cases length
    | cons _ values' => exact .cons first (ih (Nat.succ.inj length))

end Takes

theorem exists_takes_of_compareRoots (unfolds : h.Unfolds v t)
    (compares : h.compareRoots depth v w = some pending) :
    ∃ trees, h.Takes pending trees ∧ Tree.costAll trees < t.cost := by
  have some := t.cost_pos
  cases unfolds with
  | @pair address cell first rest found firsts rests =>
    cases w with
    | pair address' =>
      simp only [compareRoots, found] at compares
      cases found' : h.cell? (.pair address') with
      | none =>
        rw [found'] at compares
        cases compares
      | some cell' =>
        rw [found'] at compares
        cases compares
        refine ⟨[first, rest], .cells firsts rests, ?_⟩
        simp only [Tree.costAll, Tree.cost]
        omega
    | _ => cases compares
  | @vector address values trees found length each =>
    cases w with
    | vector address' =>
      simp only [compareRoots, found] at compares
      cases found' : h.elements? (.vector address') with
      | none =>
        rw [found'] at compares
        cases compares
      | some values' =>
        simp only [found', compareElements] at compares
        split at compares
        next same =>
          cases compares
          refine ⟨trees, .elements (forall₂_of_getElem? length each) same, ?_⟩
          rw [Tree.cost]
          omega
        next => cases compares
    | _ => cases compares
  | _ =>
    cases w <;> (simp only [compareRoots] at compares; split at compares) <;> cases compares <;>
      exact ⟨[], .nil, some⟩

theorem compareStep_cases (takes : h.Takes pending trees) :
    (∃ result, h.compareStep limit pending = .inr result ∧ result ≠ .error .cyclic) ∨
      ∃ pending' trees', h.compareStep limit pending = .inl pending' ∧ h.Takes pending' trees' ∧
        Tree.costAll trees' + 2 ≤ Tree.costAll trees := by
  cases pending with
  | nil => exact .inl ⟨_, rfl, by simp⟩
  | cons comparison pending =>
    obtain ⟨depth, a, b⟩ := comparison
    cases takes with
    | @cons _ t _ trees first others =>
      by_cases apart : a = b
      · subst apart
        refine .inr ⟨pending, trees, compareStep_self .., others, ?_⟩
        have some := t.cost_pos
        rw [Tree.costAll]
        omega
      by_cases deep : limit < depth
      · exact .inl ⟨_, compareStep_deep apart deep, by simp⟩
      have shallow := Nat.le_of_not_lt deep
      cases compares : h.compareRoots depth a b with
      | none => exact .inl ⟨_, compareStep_different apart shallow compares, by simp⟩
      | some parts =>
        obtain ⟨trees', takes, less⟩ := exists_takes_of_compareRoots first compares
        refine .inr ⟨parts ++ pending, trees' ++ trees, compareStep_parts apart shallow compares,
          takes.append others, ?_⟩
        rw [Tree.costAll_append, Tree.costAll]
        omega

theorem exists_comparison (takes : h.Takes pending trees) {bound : Nat} (positive : 0 < bound)
    (enough : Tree.costAll trees ≤ bound) :
    ∃ result, Steps.runFor (h.compareStep limit) bound pending = .inr result ∧ result ≠ .error .cyclic := by
  induction bound generalizing pending trees with
  | zero => exact absurd positive (Nat.lt_irrefl _)
  | succ bound ih =>
    unfold Steps.runFor
    obtain ⟨result, ends, other⟩ | ⟨pending', trees', onward, takes', less⟩ := compareStep_cases takes
    · rw [ends]
      exact ⟨result, rfl, other⟩
    · rw [onward]
      exact ih takes' (by omega) (by omega)

theorem Unfolds.equal_ne_cyclic (unfolds : h.Unfolds v t) (w : Value) (limit : Nat) :
    h.equal v w limit ≠ .error .cyclic := by
  have room := cost_lt_rounds (tree?_eq_some_iff.mpr unfolds)
  have power : Nat.pow 2 h.rounds = 2 ^ h.rounds := rfl
  have takes : h.Takes [⟨0, v, w⟩] [t] := .cons unfolds .nil
  have cost : Tree.costAll [t] = t.cost + 1 := by rw [Tree.costAll, Tree.costAll]
  obtain ⟨result, ends, other⟩ : ∃ result, Steps.runFor (h.compareStep limit)
      ((Nat.pow 2 h.rounds - 1) * 1) [⟨0, v, w⟩] = .inr result ∧ result ≠ .error .cyclic :=
    exists_comparison takes (by omega) (by omega)
  rw [equal, Steps.runDoubling_eq, ends]
  exact other

theorem Unfolds.iterate_ne_cyclic (unfolds : h.Unfolds v t) : (h.iterate v).fault ≠ some .cyclic := by
  obtain ⟨chain, known⟩ := unfolds.chain?
  cases v with
  | pair address =>
    simp only [iterate, known]
    split <;> nofun
  | _ => nofun

theorem Unfolds.toList_ne_cyclic (unfolds : h.Unfolds v t) : h.toList v ≠ .error .cyclic := by
  have other := unfolds.iterate_ne_cyclic
  unfold toList
  split
  · nofun
  next members fault iterated =>
    rw [iterated] at other
    intro cyclic
    cases cyclic
    exact other rfl

theorem Unfolds.isProper_ne_cyclic (unfolds : h.Unfolds v t) : h.isProper v ≠ .error .cyclic := by
  obtain ⟨chain, known⟩ := unfolds.chain?
  cases v with
  | pair address =>
    rw [isProper, known]
    nofun
  | _ => nofun

end Heap

theorem joined_ne_error {first second : Except ValueFault String} {fault : ValueFault}
    (one : first ≠ .error fault) (other : second ≠ .error fault) :
    joined first second ≠ .error fault := by
  cases first with
  | error _ => exact one
  | ok _ =>
    cases second with
    | error _ => exact other
    | ok _ => nofun

theorem Character.text_ne_cyclic (c : Character) : c.text ≠ .error .cyclic := by
  have char : c.char ≠ .error .cyclic := by
    unfold Character.char
    split
    · nofun
    · split <;> nofun
  unfold Character.text
  cases known : c.char with
  | error fault =>
    intro cyclic
    cases cyclic
    exact char known
  | ok shown =>
    simp only [bind, Except.bind]
    split <;> nofun

theorem integerText_ne_cyclic (n : Int) : integerText n ≠ .error .cyclic := by
  unfold integerText
  split <;> nofun

namespace Datum

variable {limit : Nat}

theorem text_leaf_ne_cyclic {d : Datum} (single : ∀ first rest, d ≠ .pair first rest)
    (flat : ∀ elements, d ≠ .vector elements) (depth : Nat) : d.text limit depth ≠ .error .cyclic := by
  by_cases shallow : limit < depth
  · rw [text_of_deep shallow]
    nofun
  · rw [text.eq_def, if_neg shallow]
    cases d with
    | integer n => exact integerText_ne_cyclic n
    | character codePoint => exact Character.text_ne_cyclic _
    | pair first rest => exact absurd rfl (single first rest)
    | vector elements => exact absurd rfl (flat elements)
    | _ => nofun

theorem elementsText_ne_cyclic {depth : Nat} {ds : List Datum}
    (each : ∀ d ∈ ds, d.text limit (d.depthInVector depth) ≠ .error .cyclic) :
    elementsText limit depth ds ≠ .error .cyclic := by
  induction ds with
  | nil =>
    rw [elementsText_nil]
    nofun
  | cons d ds ih =>
    have first := each d List.mem_cons_self
    have others := ih fun e member => each e (List.mem_cons_of_mem _ member)
    cases ds with
    | nil => rwa [elementsText_singleton]
    | cons e ds =>
      rw [elementsText_cons]
      exact joined_ne_error (joined_ne_error first nofun) others

theorem tailText_ne_cyclic {d : Datum} {depth : Nat} (single : ∀ first rest, d ≠ .pair first rest)
    (text : d.text limit (d.depthInPair depth) ≠ .error .cyclic) :
    d.tailText limit depth ≠ .error .cyclic := by
  by_cases nil : d = .nil
  · subst nil
    simp [tailText]
  · rw [tailText_of_atom limit depth nil single]
    exact joined_ne_error (joined_ne_error (by simp) text) (by simp)

theorem text_ne_cyclic (d : Datum) (limit depth : Nat) :
    d.text limit depth ≠ .error .cyclic ∧ d.tailText limit depth ≠ .error .cyclic := by
  have deep {depth : Nat} (d : Datum) (shallow : ¬depth ≤ limit) :
      d.text limit depth ≠ .error .cyclic := by
    rw [text_of_deep (Nat.lt_of_not_le shallow)]
    nofun
  induction d using Tree.induct generalizing depth with
  | leaf d single flat =>
    have text (depth : Nat) : text limit depth d ≠ .error .cyclic :=
      text_leaf_ne_cyclic single flat depth
    exact ⟨text depth, tailText_ne_cyclic single (text _)⟩
  | pair first rest firsts rests =>
    constructor
    · by_cases shallow : depth ≤ limit
      · rw [text_pair shallow]
        exact joined_ne_error (joined_ne_error nofun (firsts _).1) (rests depth).2
      · exact deep _ shallow
    · rw [tailText_pair]
      exact joined_ne_error (joined_ne_error nofun (firsts _).1) (rests depth).2
  | vector elements all =>
    have text (depth : Nat) : text limit depth (.vector elements) ≠ .error .cyclic := by
      by_cases shallow : depth ≤ limit
      · rw [text_vector shallow]
        have each := elementsText_ne_cyclic fun d member => (all d member (d.depthInVector depth)).1
        exact joined_ne_error (joined_ne_error nofun each) nofun
      · exact deep _ shallow
    exact ⟨text depth, tailText_ne_cyclic nofun (text _)⟩

end Datum

theorem Heap.Unfolds.write_ne_cyclic {h : Heap} {v : Value} {t : Tree Symbol} (unfolds : h.Unfolds v t)
    (limit : Nat) : h.write v limit ≠ .error .cyclic := by
  rw [write_eq_text (tree?_eq_some_iff.mpr unfolds)]
  exact (Datum.text_ne_cyclic _ limit 0).1

end SexprReader
