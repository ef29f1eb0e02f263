import Mathlib.Order.Monotone.Basic
import SexprReader.Proofs.Store.Denotes

/-! Values that are trees. The pairs of such a value are in a range of addresses, and its parts have
ranges of their own in there, with nothing in common. So from the value there is one way to each pair. -/

namespace SexprReader

open Store

def Value.IsAtom : Value → Prop
  | .pair _ | .vector _ => False
  | _ => True

namespace Heap

inductive Toward where
  | first
  | rest
  | element (i : Nat)
deriving DecidableEq

def part? (h : Heap) (v : Value) : Toward → Option Value
  | .first => (h.cell? v).map Cell.first
  | .rest => (h.cell? v).map Cell.rest
  | .element i => (h.elements? v).bind (·[i]?)

def follow (h : Heap) (v : Value) : List Toward → Option Value
  | [] => some v
  | step :: path => (h.part? v step).bind (h.follow · path)

/-- The pairs of a value are from `lo` up to `hi`. Its parts share none of them with each other. -/
inductive Spans (h : Heap) : (lo hi : Nat) → Value → Prop
  | atom {lo hi : Nat} {v : Value} (atom : v.IsAtom) : Spans h lo hi v
  /-- The first is below the rest, and the pair itself is in between, or above both. -/
  | pair {lo mid lo' hi' hi address : Nat} {first rest : Value}
      (cell : h.pairs[address]? = some ⟨first, rest⟩) (firsts : Spans h lo mid first)
      (rests : Spans h lo' hi' rest) (above : lo ≤ address) (below : address < hi)
      (behind : mid ≤ address) (apart : address < lo' ∨ hi' ≤ address) (order : mid ≤ lo')
      (begins : lo ≤ lo') (ends : hi' ≤ hi) : Spans h lo hi (.pair address)
  | vector {lo hi address : Nat} {values : List Value} {marks : Nat → Nat}
      (elements : h.vectors[address]? = some values) (order : Monotone marks) (begins : lo ≤ marks 0)
      (ends : marks values.length ≤ hi)
      (each : ∀ (i : Nat) (v : Value), values[i]? = some v → Spans h (marks i) (marks (i + 1)) v) :
      Spans h lo hi (.vector address)

section

variable {h : Heap} {v u w : Value} {step : Toward} {path : List Toward} {address : Nat}

theorem follow_cons_eq_some :
    h.follow v (step :: path) = some w ↔ ∃ u, h.part? v step = some u ∧ h.follow u path = some w :=
  Option.bind_eq_some_iff

theorem follow_append (h : Heap) (v : Value) (path path' : List Toward) :
    h.follow v (path ++ path') = (h.follow v path).bind (h.follow · path') := by
  induction path generalizing v with
  | nil => rfl
  | cons step path ih =>
    rw [List.cons_append, follow, follow, Option.bind_assoc]
    congr 1
    funext u
    exact ih u

theorem part?_atom (atom : v.IsAtom) : h.part? v step = none := by
  cases v with
  | pair address => exact atom.elim
  | vector address => exact atom.elim
  | _ => cases step <;> rfl

theorem part?_pair {cell : Cell} (found : h.pairs[address]? = some cell)
    (part : h.part? (.pair address) step = some u) :
    step = .first ∧ u = cell.first ∨ step = .rest ∧ u = cell.rest := by
  cases step with
  | first =>
    rw [part?, cell?, found] at part
    cases part
    exact .inl ⟨rfl, rfl⟩
  | rest =>
    rw [part?, cell?, found] at part
    cases part
    exact .inr ⟨rfl, rfl⟩
  | element i => cases part

theorem part?_vector {values : List Value} (found : h.vectors[address]? = some values)
    (part : h.part? (.vector address) step = some u) :
    ∃ i, step = .element i ∧ values[i]? = some u := by
  cases step with
  | first => cases part
  | rest => cases part
  | element i =>
    rw [part?, elements?, found] at part
    exact ⟨i, rfl, part⟩

end

theorem exists_unfolds_of_atom {h : Heap} {v : Value} (atom : v.IsAtom) : ∃ t, h.Unfolds v t := by
  cases v with
  | pair address => exact atom.elim
  | vector address => exact atom.elim
  | sentinel s => exact ⟨_, .sentinel s⟩
  | null => exact ⟨_, .null⟩
  | symbol s => exact ⟨_, .symbol s⟩
  | string s => exact ⟨_, .string s⟩
  | integer n => exact ⟨_, .integer n⟩
  | character c => exact ⟨_, .character c⟩

namespace Spans

variable {store store' : Store} {h : Heap} {lo hi lo' hi' address : Nat} {v : Value}

theorem widen (spans : h.Spans lo hi v) (above : lo' ≤ lo) (below : hi ≤ hi') :
    h.Spans lo' hi' v := by
  induction spans generalizing lo' hi' with
  | atom atom => exact .atom atom
  | pair cell _ rests above' below' behind apart order begins ends firsts _ =>
    exact .pair cell (firsts above (Nat.le_refl _)) rests (by omega) (by omega) behind apart order
      (by omega) (by omega)
  | vector elements order begins ends each _ =>
    exact .vector elements order (by omega) (by omega) each

theorem marks_le {values : List Value} {marks : Nat → Nat} {i : Nat} (order : Monotone marks)
    (found : values[i]? = some v) : marks 0 ≤ marks i ∧ marks (i + 1) ≤ marks values.length :=
  ⟨order (Nat.zero_le i), order (Nat.succ_le_of_lt (List.getElem?_eq_some_iff.mp found).1)⟩

theorem agrees (spans : store.heap.Spans lo hi v) (agrees : Agrees lo hi store store') :
    store'.heap.Spans lo hi v := by
  induction spans with
  | atom atom => exact .atom atom
  | pair cell _ _ above below behind apart order begins ends firsts rests =>
    refine .pair ((agrees.cells _ above below).trans cell) (firsts ?_) (rests ?_) above below behind
      apart order begins ends
    · exact agrees.narrow (Nat.le_refl _) (by omega)
    · exact agrees.narrow begins ends
  | vector elements order begins ends _ each =>
    refine .vector (agrees.vectors _ _ elements) order begins ends fun i v found => ?_
    have inside := marks_le order found
    exact each i v found (agrees.narrow (by omega) (by omega))

theorem range (spans : h.Spans lo hi v) {path : List Toward}
    (leads : h.follow v path = some (.pair address)) : lo ≤ address ∧ address < hi := by
  induction spans generalizing path with
  | atom atom =>
    cases path with
    | nil =>
      cases leads
      exact atom.elim
    | cons step path =>
      obtain ⟨u, part, -⟩ := follow_cons_eq_some.mp leads
      rw [part?_atom atom] at part
      cases part
  | pair cell _ _ above below behind apart order begins ends firsts rests =>
    cases path with
    | nil =>
      cases leads
      exact ⟨above, below⟩
    | cons step path =>
      obtain ⟨u, part, onward⟩ := follow_cons_eq_some.mp leads
      obtain ⟨-, rfl⟩ | ⟨-, rfl⟩ := part?_pair cell part
      · have inside := firsts onward
        omega
      · have inside := rests onward
        omega
  | vector elements order begins ends _ each =>
    cases path with
    | nil => cases leads
    | cons step path =>
      obtain ⟨u, part, onward⟩ := follow_cons_eq_some.mp leads
      obtain ⟨i, -, found⟩ := part?_vector elements part
      have inside := each i u found onward
      have around := marks_le order found
      omega

theorem part {step : Toward} {u : Value} (spans : h.Spans lo hi v) (part : h.part? v step = some u) :
    ∃ lo' hi', h.Spans lo' hi' u := by
  cases spans with
  | atom atom =>
    rw [part?_atom atom] at part
    cases part
  | pair cell firsts rests =>
    obtain ⟨-, rfl⟩ | ⟨-, rfl⟩ := part?_pair cell part
    · exact ⟨_, _, firsts⟩
    · exact ⟨_, _, rests⟩
  | vector elements _ _ _ each =>
    obtain ⟨i, -, found⟩ := part?_vector elements part
    exact ⟨_, _, each i u found⟩

theorem not_follow_self (spans : h.Spans lo hi (.pair address)) (step : Toward) (path : List Toward) :
    h.follow (.pair address) (step :: path) ≠ some (.pair address) := by
  intro leads
  obtain ⟨u, part, onward⟩ := follow_cons_eq_some.mp leads
  cases spans with
  | atom atom => exact atom.elim
  | pair cell firsts rests =>
    obtain ⟨-, rfl⟩ | ⟨-, rfl⟩ := part?_pair cell part
    · have inside := firsts.range onward
      omega
    · have inside := rests.range onward
      omega

theorem step_unique (spans : h.Spans lo hi v) {step step' : Toward} {u u' : Value}
    {path path' : List Toward} (part : h.part? v step = some u) (part' : h.part? v step' = some u')
    (leads : h.follow u path = some (.pair address))
    (leads' : h.follow u' path' = some (.pair address)) : step = step' := by
  cases spans with
  | atom atom =>
    rw [part?_atom atom] at part
    cases part
  | pair cell firsts rests =>
    obtain ⟨rfl, rfl⟩ | ⟨rfl, rfl⟩ := part?_pair cell part
    · obtain ⟨rfl, rfl⟩ | ⟨rfl, rfl⟩ := part?_pair cell part'
      · rfl
      · have inside := firsts.range leads
        have inside' := rests.range leads'
        omega
    · obtain ⟨rfl, rfl⟩ | ⟨rfl, rfl⟩ := part?_pair cell part'
      · have inside := rests.range leads
        have inside' := firsts.range leads'
        omega
      · rfl
  | vector elements order _ _ each =>
    obtain ⟨i, rfl, found⟩ := part?_vector elements part
    obtain ⟨j, rfl, found'⟩ := part?_vector elements part'
    have inside := (each i u found).range leads
    have inside' := (each j u' found').range leads'
    obtain before | same | behind := Nat.lt_trichotomy i j
    · have apart := order (Nat.succ_le_of_lt before)
      rw [Nat.succ_eq_add_one] at apart
      omega
    · rw [same]
    · have apart := order (Nat.succ_le_of_lt behind)
      rw [Nat.succ_eq_add_one] at apart
      omega

theorem path_unique (spans : h.Spans lo hi v) {path path' : List Toward}
    (leads : h.follow v path = some (.pair address))
    (leads' : h.follow v path' = some (.pair address)) : path = path' := by
  induction path generalizing v lo hi path' with
  | nil =>
    cases leads
    cases path' with
    | nil => rfl
    | cons step' path' => exact (spans.not_follow_self step' path' leads').elim
  | cons step path ih =>
    cases path' with
    | nil =>
      cases leads'
      exact (spans.not_follow_self step path leads).elim
    | cons step' path' =>
      obtain ⟨u, part, onward⟩ := follow_cons_eq_some.mp leads
      obtain ⟨u', part', onward'⟩ := follow_cons_eq_some.mp leads'
      obtain rfl := spans.step_unique part part' onward onward'
      rw [part] at part'
      cases part'
      obtain ⟨_, _, inner⟩ := spans.part part
      rw [ih inner onward onward']

theorem exists_unfolds (spans : h.Spans lo hi v) : ∃ t, h.Unfolds v t := by
  induction spans with
  | atom atom => exact exists_unfolds_of_atom atom
  | pair cell _ _ _ _ _ _ _ _ _ firsts rests =>
    obtain ⟨t, first⟩ := firsts
    obtain ⟨t', rest⟩ := rests
    exact ⟨_, .pair cell first rest⟩
  | vector elements _ _ _ _ each =>
    obtain ⟨trees, unfold⟩ := exists_forall₂_of_each each
    exact ⟨_, .vector elements unfold.length_eq (getElem?_of_forall₂ unfold)⟩

end Spans

inductive SpansEach (h : Heap) : (lo hi : Nat) → List Value → Prop
  | nil {lo hi : Nat} (order : lo ≤ hi) : SpansEach h lo hi []
  | cons {lo mid hi : Nat} {v : Value} {values : List Value} (order : lo ≤ mid)
      (first : h.Spans lo mid v) (others : SpansEach h mid hi values) : SpansEach h lo hi (v :: values)

namespace SpansEach

variable {store store' : Store} {h : Heap} {lo hi lo' hi' : Nat} {values : List Value}

theorem le (spans : h.SpansEach lo hi values) : lo ≤ hi := by
  induction spans with
  | nil order => exact order
  | cons order _ _ ih => omega

theorem widen (spans : h.SpansEach lo hi values) (above : lo' ≤ lo) (below : hi ≤ hi') :
    h.SpansEach lo' hi' values := by
  induction spans generalizing lo' with
  | nil order => exact .nil (by omega)
  | cons order first _ ih =>
    exact .cons (by omega) (first.widen above (Nat.le_refl _)) (ih (Nat.le_refl _) below)

theorem agrees (spans : store.heap.SpansEach lo hi values) (agrees : Agrees lo hi store store') :
    store'.heap.SpansEach lo hi values := by
  induction spans with
  | nil order => exact .nil order
  | cons order first others ih =>
    have inside := others.le
    exact .cons order (first.agrees (agrees.narrow (Nat.le_refl _) inside))
      (ih (agrees.narrow order (Nat.le_refl _)))

def marksBehind (first : Nat) (marks : Nat → Nat) : Nat → Nat
  | 0 => first
  | i + 1 => marks i

theorem exists_marks (spans : h.SpansEach lo hi values) :
    ∃ marks : Nat → Nat, Monotone marks ∧ lo ≤ marks 0 ∧ marks values.length ≤ hi ∧
      ∀ (i : Nat) (v : Value), values[i]? = some v → h.Spans (marks i) (marks (i + 1)) v := by
  induction spans with
  | @nil lo hi order => exact ⟨fun _ => lo, monotone_const, Nat.le_refl _, order, nofun⟩
  | @cons lo mid hi v values order first _ ih =>
    obtain ⟨marks, grows, begins, ends, each⟩ := ih
    refine ⟨marksBehind lo marks, monotone_nat_of_le_succ fun i => ?_, Nat.le_refl _, ends,
      fun i w found => ?_⟩
    · cases i with
      | zero => exact Nat.le_trans order begins
      | succ i => exact grows (Nat.le_succ i)
    · cases i with
      | zero =>
        cases found
        exact first.widen (Nat.le_refl _) begins
      | succ i => exact each i w found

theorem vector (spans : h.SpansEach lo hi values) {address : Nat}
    (elements : h.vectors[address]? = some values) : h.Spans lo hi (.vector address) := by
  obtain ⟨marks, order, begins, ends, each⟩ := spans.exists_marks
  exact .vector elements order begins ends each

end SpansEach

/-- A chain of pairs from `head` to `last`, where it goes on with `ending`. The first of each pair is
below the pair, and above the pair in front of it. -/
inductive Strung (h : Heap) (ending : Value) (last : Nat) : (lo head : Nat) → Prop
  | single {lo : Nat} {v : Value} (cell : h.pairs[last]? = some ⟨v, ending⟩) (above : lo ≤ last)
      (first : h.Spans lo last v) : Strung h ending last lo last
  | link {lo head next : Nat} {v : Value} (cell : h.pairs[head]? = some ⟨v, .pair next⟩)
      (above : lo ≤ head) (first : h.Spans lo head v) (others : Strung h ending last (head + 1) next) :
      Strung h ending last lo head

namespace Strung

variable {store store' : Store} {h : Heap} {ending v : Value} {last lo head : Nat}

theorem le_last (strung : h.Strung ending last lo head) : lo ≤ head ∧ head ≤ last := by
  induction strung with
  | single _ above _ => exact ⟨above, Nat.le_refl _⟩
  | link _ above _ _ ih => omega

theorem agrees (strung : store.heap.Strung ending last lo head)
    (agrees : Agrees lo (last + 1) store store') : store'.heap.Strung ending last lo head := by
  induction strung with
  | single cell above first =>
    refine .single ((agrees.cells _ above (Nat.lt_succ_self _)).trans cell) above (first.agrees ?_)
    exact agrees.narrow (Nat.le_refl _) (Nat.le_succ _)
  | link cell above first others ih =>
    have inside := others.le_last
    refine .link ((agrees.cells _ above (by omega)).trans cell) above (first.agrees ?_) (ih ?_)
    · exact agrees.narrow (Nat.le_refl _) (by omega)
    · exact agrees.narrow (by omega) (Nat.le_refl _)

theorem changeRest (strung : store.heap.Strung ending last lo head) (value : Value) :
    (store.changeRest last value).heap.Strung value last lo head := by
  have below (lo : Nat) : Agrees lo last store (store.changeRest last value) :=
    store.agrees_changeRest value (.inr (Nat.le_refl _))
  induction strung with
  | single cell above first =>
    exact .single (store.changeRest_self cell value) above (first.agrees (below _))
  | @link lo head next v cell above first others ih =>
    have inside := others.le_last
    have before : Agrees lo last store (store.changeRest last value) := below lo
    refine .link ((before.cells _ above (by omega)).trans cell) above (first.agrees ?_) ih
    exact before.narrow (Nat.le_refl _) (by omega)

theorem snoc {next : Nat} (strung : h.Strung (.pair next) last lo head) (order : last < next)
    (cell : h.pairs[next]? = some ⟨v, ending⟩) (first : h.Spans (last + 1) next v) :
    h.Strung ending next lo head := by
  induction strung with
  | single cell' above first' => exact .link cell' above first' (.single cell order first)
  | link cell' above first' _ ih => exact .link cell' above first' ih

theorem spans {hi : Nat} (strung : h.Strung ending last lo head) (ends : h.Spans (last + 1) hi ending)
    (below : last < hi) : h.Spans lo hi (.pair head) := by
  induction strung with
  | single cell above first =>
    exact .pair cell first ends above below (Nat.le_refl _) (.inl (Nat.lt_succ_self _))
      (Nat.le_succ _) (by omega) (Nat.le_refl _)
  | link cell above first others ih =>
    have inside := others.le_last
    exact .pair cell first ih above (by omega) (Nat.le_refl _) (.inl (Nat.lt_succ_self _))
      (Nat.le_succ _) (by omega) (Nat.le_refl _)

theorem spansEach (strung : h.Strung .nil last lo head) {bound : Nat} {seen : List Value}
    {chain : Chain} (follows : h.chainWithin bound seen (.pair head) = some chain) :
    ∃ values, chain.firsts = seen.reverse ++ values ∧ h.SpansEach lo last values := by
  induction strung generalizing bound seen with
  | @single lo v cell above first =>
    unfold chainWithin at follows
    simp only [cell?, cell] at follows
    cases bound with
    | zero => cases follows
    | succ bound =>
      unfold chainWithin at follows
      simp only [cell?, Option.some.injEq] at follows
      refine ⟨[v], ?_, .cons above first (.nil (Nat.le_refl _))⟩
      rw [← follows, List.reverse_cons]
  | @link lo head next v cell above first others ih =>
    unfold chainWithin at follows
    simp only [cell?, cell] at follows
    cases bound with
    | zero => cases follows
    | succ bound =>
      obtain ⟨values, firsts, each⟩ := ih follows
      rw [List.reverse_cons, List.append_assoc, List.singleton_append] at firsts
      exact ⟨v :: values, firsts,
        .cons (by omega) (first.widen (Nat.le_refl _) (Nat.le_succ _)) each⟩

theorem spansEach_of_vectorMembers (strung : h.Strung .nil last lo head) {values : List Value}
    (members : h.vectorMembers (.pair head) = .ok values) : h.SpansEach lo last values := by
  simp only [vectorMembers, toList, iterate, reduceCtorEq, if_false] at members
  cases follows : h.chain? (.pair head) with
  | none =>
    rw [follows] at members
    cases members
  | some chain =>
    obtain ⟨firsts, same, each⟩ := strung.spansEach follows
    obtain ⟨_, ending⟩ := chain
    rw [follows] at members
    by_cases proper : ending = .nil
    · simp only [proper, if_true] at members
      cases members
      rw [show firsts = _ from same.symm] at each
      exact each
    · simp only [proper, if_false] at members
      cases members

end Strung

end Heap

end SexprReader
