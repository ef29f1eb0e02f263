import Mathlib.Algebra.Group.Nat.Defs
import SexprReader.Proofs.Store.Unfolds

/-! Writing a value piece by piece comes to the text that recursion on its tree gives, with the same
error if there is one. It takes fewer steps than are allowed. -/

namespace SexprReader

def joined (first second : Except ValueFault String) : Except ValueFault String :=
  do return (← first) ++ (← second)

namespace Heap

/-- Where writing has come to behind the text already `done`. -/
def behind (done : String) (work : List Piece) :
    Except ValueFault String → (String × List Piece) ⊕ Except ValueFault String
  | .ok s => .inl (done ++ s, work)
  | .error fault => .inr (.error fault)

/-- The pieces are written in at most `cost` steps, whatever comes before and after them. -/
def Emits (h : Heap) (limit cost : Nat) (pieces : List Piece) (text : Except ValueFault String) : Prop :=
  ∃ steps, steps ≤ cost ∧ ∀ done work,
    Steps.runFor (h.writeStep limit) steps (done, pieces ++ work) = behind done work text

namespace Emits

variable {h : Heap} {limit cost cost' depth : Nat} {pieces pieces' : List Piece} {v : Value}
  {text text' : Except ValueFault String}

theorem mono (emits : h.Emits limit cost pieces text) (le : cost ≤ cost') :
    h.Emits limit cost' pieces text := by
  obtain ⟨steps, few, runs⟩ := emits
  exact ⟨steps, Nat.le_trans few le, runs⟩

theorem nil (h : Heap) : h.Emits limit 0 [] (.ok "") :=
  ⟨0, Nat.le_refl _, fun done work => by simp [Steps.runFor, behind]⟩

theorem piece (h : Heap) (s : String) : h.Emits limit 1 [.text s] (.ok s) :=
  ⟨1, Nat.le_refl _, fun _ _ => rfl⟩

theorem append (first : h.Emits limit cost pieces text) (second : h.Emits limit cost' pieces' text') :
    h.Emits limit (cost + cost') (pieces ++ pieces') (joined text text') := by
  obtain ⟨steps, few, runs⟩ := first
  obtain ⟨steps', few', runs'⟩ := second
  cases text with
  | error fault =>
    refine ⟨steps, by omega, fun done work => ?_⟩
    rw [List.append_assoc, runs]
    rfl
  | ok s =>
    refine ⟨steps + steps', by omega, fun done work => ?_⟩
    rw [List.append_assoc, Steps.runFor_add, runs]
    change Steps.runFor (h.writeStep limit) steps' (done ++ s, pieces' ++ work) = _
    rw [runs']
    cases text' with
    | error fault => rfl
    | ok s' => simp [behind, joined, bind, Except.bind, pure, Except.pure, String.append_assoc]

theorem value (shallow : depth ≤ limit) (expands : h.expand depth v = .ok pieces)
    (emits : h.Emits limit cost pieces text) : h.Emits limit (cost + 1) [.value depth v] text := by
  obtain ⟨steps, few, runs⟩ := emits
  refine ⟨steps + 1, by omega, fun done work => ?_⟩
  have step : h.writeStep limit (done, .value depth v :: work) = .inl (done, pieces ++ work) := by
    simp [writeStep, Nat.not_lt.mpr shallow, expands]
  rw [List.singleton_append, Steps.runFor, step]
  exact runs done work

theorem value_of_error {fault : ValueFault} (shallow : depth ≤ limit)
    (expands : h.expand depth v = .error fault) : h.Emits limit 1 [.value depth v] (.error fault) := by
  refine ⟨1, Nat.le_refl _, fun done work => ?_⟩
  simp [Steps.runFor, writeStep, Nat.not_lt.mpr shallow, expands, behind]

theorem value_of_deep (h : Heap) (v : Value) (deep : limit < depth) :
    h.Emits limit 1 [.value depth v] (.error .tooDeep) := by
  refine ⟨1, Nat.le_refl _, fun done work => ?_⟩
  simp [Steps.runFor, writeStep, deep, behind]

end Emits

end Heap

namespace Datum

variable {limit depth : Nat}

theorem text_of_deep (deep : limit < depth) (d : Datum) : d.text limit depth = .error .tooDeep := by
  rw [text.eq_def, if_pos deep]

theorem text_pair (shallow : depth ≤ limit) (first rest : Datum) :
    text limit depth (.pair first rest) =
      joined (joined (.ok "(") (first.text limit (first.depthInPair depth))) (rest.tailText limit depth) := by
  rw [text, if_neg (Nat.not_lt.mpr shallow)]
  cases first.text limit (first.depthInPair depth) <;> cases rest.tailText limit depth <;> rfl

def elementsText (limit depth : Nat) (ds : List Datum) : Except ValueFault String :=
  do return " ".intercalate (← texts limit depth ds)

theorem text_vector (shallow : depth ≤ limit) (elements : List Datum) :
    text limit depth (.vector elements) =
      joined (joined (.ok "#(") (elementsText limit depth elements)) (.ok ")") := by
  rw [text, if_neg (Nat.not_lt.mpr shallow), elementsText]
  cases texts limit depth elements <;> rfl

theorem elementsText_nil (limit depth : Nat) : elementsText limit depth [] = .ok "" := by
  rw [elementsText, texts]
  rfl

theorem elementsText_singleton (limit depth : Nat) (d : Datum) :
    elementsText limit depth [d] = d.text limit (d.depthInVector depth) := by
  rw [elementsText, texts, texts]
  cases d.text limit (d.depthInVector depth) with
  | error fault => rfl
  | ok s => exact congrArg Except.ok String.intercalate_singleton

theorem elementsText_cons (limit depth : Nat) (d e : Datum) (ds : List Datum) :
    elementsText limit depth (d :: e :: ds) =
      joined (joined (d.text limit (d.depthInVector depth)) (.ok " "))
        (elementsText limit depth (e :: ds)) := by
  rw [elementsText, elementsText, texts, texts]
  cases d.text limit (d.depthInVector depth) with
  | error fault => rfl
  | ok s =>
    cases e.text limit (e.depthInVector depth) with
    | error fault => rfl
    | ok s' =>
      cases texts limit depth ds with
      | error fault => rfl
      | ok ss => exact congrArg Except.ok String.intercalate_cons_cons

theorem tailText_pair (limit depth : Nat) (first rest : Datum) :
    tailText limit depth (.pair first rest) =
      joined (joined (.ok " ") (first.text limit (first.depthInPair depth))) (rest.tailText limit depth) := by
  rw [tailText]
  cases first.text limit (first.depthInPair depth) <;> cases rest.tailText limit depth <;> rfl

theorem tailText_of_atom {d : Datum} (limit depth : Nat) (some : d ≠ .nil)
    (single : ∀ first rest, d ≠ .pair first rest) :
    d.tailText limit depth = joined (joined (.ok " . ") (d.text limit (d.depthInPair depth))) (.ok ")") := by
  rw [tailText]
  · cases d.text limit (d.depthInPair depth) <;> rfl
  · exact some
  · exact single

end Datum

/-- A text of which nothing but the nesting of calls decides whether it is written. -/
def LimitedBy (limit nesting : Nat) (text : Except ValueFault String) : Prop :=
  (nesting ≤ limit → ∃ s, text = .ok s) ∧ (limit < nesting → text = .error .tooDeep)

namespace LimitedBy

variable {first second : Except ValueFault String} {limit m n : Nat}

theorem ok (shallow : n ≤ limit) (s : String) : LimitedBy limit n (.ok s) :=
  ⟨fun _ => ⟨s, rfl⟩, fun deep => absurd shallow (Nat.not_le.mpr deep)⟩

theorem joined (left : LimitedBy limit m first) (right : LimitedBy limit n second) :
    LimitedBy limit (max m n) (SexprReader.joined first second) := by
  constructor
  · intro shallow
    obtain ⟨s, rfl⟩ := left.1 (by omega)
    obtain ⟨s', rfl⟩ := right.1 (by omega)
    exact ⟨s ++ s', rfl⟩
  · intro deep
    by_cases early : limit < m
    · rw [left.2 early]
      rfl
    · obtain ⟨s, rfl⟩ := left.1 (by omega)
      rw [right.2 (by omega)]
      rfl

theorem text_of_deep {d : Datum} {depth : Nat} (deep : ¬depth ≤ limit) (more : depth ≤ n) :
    LimitedBy limit n (d.text limit depth) := by
  rw [d.text_of_deep (Nat.lt_of_not_le deep)]
  exact ⟨fun shallow => absurd (Nat.le_trans more shallow) deep, fun _ => rfl⟩

theorem behind (right : LimitedBy limit n second) (s : String) :
    LimitedBy limit n (SexprReader.joined (.ok s) second) := by
  simpa using (ok (Nat.zero_le _) s).joined right

theorem before (left : LimitedBy limit m first) (s : String) :
    LimitedBy limit m (SexprReader.joined first (.ok s)) := by
  simpa using left.joined (ok (Nat.zero_le _) s)

end LimitedBy

namespace Tree

variable {S : Type}

@[simp] theorem datum_pair (first rest : Tree Symbol) :
    (pair first rest).datum = .pair first.datum rest.datum := by
  simp [datum, map]

@[simp] theorem datum_vector (elements : List (Tree Symbol)) :
    (vector elements).datum = .vector (elements.map datum) := by
  simp only [datum, map, mapAll_eq_map]
  rfl

mutual

/-- More steps than writing a tree takes. -/
def cost : Tree S → Nat
  | pair first rest => first.cost + rest.cost + 4
  | vector elements => costAll elements + 3
  | _ => 2

def costAll : List (Tree S) → Nat
  | [] => 0
  | tree :: trees => tree.cost + costAll trees + 1

end

theorem cost_pos (tree : Tree S) : 0 < tree.cost := by
  cases tree <;> simp [cost]

end Tree

namespace Piece

theorem spaced_cons (piece : Piece) (pieces : List Piece) :
    spaced (piece :: pieces) = piece :: pieces.flatMap fun piece => [.text " ", piece] := by
  induction pieces generalizing piece with
  | nil => rfl
  | cons next pieces ih =>
    simp only [spaced] at ih ⊢
    rw [List.intersperse_cons_cons, ih]
    rfl

def ofRest (depth : Nat) (chain : Chain) : List Piece :=
  (chain.firsts.map (part depth)).flatMap (fun piece => [.text " ", piece]) ++
    (if chain.ending = .nil then [] else [.text " . ", part depth chain.ending]) ++ [.text ")"]

theorem ofChain_cons (depth : Nat) (first : Value) (firsts : List Value) (ending : Value) :
    ofChain depth ⟨first :: firsts, ending⟩ =
      [.text "("] ++ [part depth first] ++ ofRest depth ⟨firsts, ending⟩ := by
  simp [ofChain, ofRest, spaced_cons]

theorem ofRest_cons (depth : Nat) (first : Value) (firsts : List Value) (ending : Value) :
    ofRest depth ⟨first :: firsts, ending⟩ =
      [.text " "] ++ [part depth first] ++ ofRest depth ⟨firsts, ending⟩ := by
  simp [ofRest]

end Piece

namespace Heap

variable {h : Heap} {limit : Nat} {v : Value} {t : Tree Symbol}

theorem chainWithin_atom (single : h.cell? v = none) (bound : Nat) :
    h.chainWithin bound [] v = some ⟨[], v⟩ := by
  unfold chainWithin
  simp [single]

theorem chainWithin_pair {cell : Cell} {bound : Nat} {chain : Chain} (found : h.cell? v = some cell)
    (known : h.chainWithin bound [] v = some chain) :
    ∃ less firsts ending, h.chainWithin less [] cell.rest = some ⟨firsts, ending⟩ ∧
      chain = ⟨cell.first :: firsts, ending⟩ := by
  unfold chainWithin at known
  simp only [found] at known
  match bound with
  | bound + 1 =>
    simp only at known
    rw [chainWithin_seen] at known
    obtain ⟨⟨firsts, ending⟩, rests, rfl⟩ := Option.map_eq_some_iff.mp known
    exact ⟨bound, firsts, ending, rests, rfl⟩

theorem Unfolds.depthInPair (unfolds : h.Unfolds v t) (depth : Nat) :
    v.depthInPair depth = t.datum.depthInPair depth := by
  cases unfolds <;> simp [Value.depthInPair, Tree.datum, Tree.map, Tree.depthInPair]

theorem Unfolds.depthInVector (unfolds : h.Unfolds v t) (depth : Nat) :
    v.depthInVector depth = t.datum.depthInVector depth := by
  cases unfolds <;> simp [Value.depthInVector, Tree.datum, Tree.map, Tree.depthInVector]

theorem Unfolds.datum_ne_nil (unfolds : h.Unfolds v t) (some : v ≠ .nil) : t.datum ≠ .nil := by
  cases unfolds with
  | sentinel s => simpa [Tree.datum, Tree.map] using some
  | _ => simp [Tree.datum, Tree.map]

theorem Unfolds.datum_ne_pair (unfolds : h.Unfolds v t) (single : h.cell? v = none) (first rest : Datum) :
    t.datum ≠ .pair first rest := by
  cases unfolds with
  | pair found => cases found.symm.trans single
  | _ => simp [Tree.datum, Tree.map]

/-- What is written behind the members of a list when it ends in a value that is no pair. -/
theorem emits_rest_of_atom (unfolds : h.Unfolds v t) (single : h.cell? v = none)
    (emits : ∀ depth, h.Emits limit t.cost [.value depth v] (t.datum.text limit depth)) (depth bound : Nat)
    {chain : Chain} (known : h.chainWithin bound [] v = some chain) :
    h.Emits limit (t.cost + 2) (Piece.ofRest depth chain) (t.datum.tailText limit depth) := by
  rw [chainWithin_atom single] at known
  cases known
  by_cases nil : v = .nil
  · subst nil
    cases unfolds
    have closes : Datum.tailText limit depth (.nil : Tree Symbol).datum = .ok ")" := by
      rw [Tree.datum, Tree.map, Datum.tailText]
    rw [closes]
    exact (Emits.piece h ")").mono (by omega)
  · have some := unfolds.datum_ne_nil nil
    rw [Datum.tailText_of_atom limit depth some (unfolds.datum_ne_pair single), ← unfolds.depthInPair]
    have tail := ((Emits.piece h " . ").append (emits (v.depthInPair depth))).append (.piece h ")")
    have pieces : Piece.ofRest depth ⟨[], v⟩ =
        [.text " . "] ++ [.value (v.depthInPair depth) v] ++ [.text ")"] := by
      simp [Piece.ofRest, nil, Piece.part]
    rw [pieces]
    exact tail.mono (by omega)

structure WrittenAs (h : Heap) (limit : Nat) (v : Value) (t : Tree Symbol) : Prop where
  unfolds : h.Unfolds v t
  value : ∀ depth, h.Emits limit t.cost [.value depth v] (t.datum.text limit depth)
  rest : ∀ depth bound chain, h.chainWithin bound [] v = some chain →
    h.Emits limit (t.cost + 2) (Piece.ofRest depth chain) (t.datum.tailText limit depth)

namespace WrittenAs

theorem value_of_deep {depth : Nat} (h : Heap) (v : Value) (t : Tree Symbol)
    (deep : ¬depth ≤ limit) : h.Emits limit t.cost [.value depth v] (t.datum.text limit depth) := by
  rw [Datum.text_of_deep (Nat.lt_of_not_le deep)]
  exact (Emits.value_of_deep h v (Nat.lt_of_not_le deep)).mono t.cost_pos

theorem leaf (unfolds : h.Unfolds v t) (single : h.cell? v = none) (small : t.cost = 2)
    (expands : ∀ depth, h.expand depth v = do return [.text (← leafText v)])
    (texts : ∀ depth, depth ≤ limit → t.datum.text limit depth = leafText v) : h.WrittenAs limit v t := by
  have value (depth : Nat) : h.Emits limit t.cost [.value depth v] (t.datum.text limit depth) := by
    by_cases shallow : depth ≤ limit
    · have expanded := expands depth
      rw [texts depth shallow, small]
      cases text : leafText v with
      | error fault =>
        rw [text] at expanded
        exact (Emits.value_of_error shallow expanded).mono (by omega)
      | ok s =>
        rw [text] at expanded
        exact .value shallow expanded (.piece h s)
    · exact value_of_deep h v t shallow
  exact ⟨unfolds, value, fun depth bound chain => emits_rest_of_atom unfolds single value depth bound⟩

theorem members {cell : Cell} {first rest : Tree Symbol} (firsts : h.WrittenAs limit cell.first first)
    (rests : h.WrittenAs limit cell.rest rest) (opening : String) (depth bound : Nat) {chain : Chain}
    (behind : h.chainWithin bound [] cell.rest = some chain) :
    h.Emits limit (first.cost + rest.cost + 3)
      ([.text opening] ++ [Piece.part depth cell.first] ++ Piece.ofRest depth chain)
      (joined (joined (.ok opening) (first.datum.text limit (cell.first.depthInPair depth)))
        (rest.datum.tailText limit depth)) := by
  have head := (Emits.piece h opening).append (firsts.value (cell.first.depthInPair depth))
  exact (head.append (rests.rest depth bound chain behind)).mono (by omega)

theorem pair {address : Nat} {cell : Cell} {first rest : Tree Symbol}
    (found : h.cell? (.pair address) = some cell) (firsts : h.WrittenAs limit cell.first first)
    (rests : h.WrittenAs limit cell.rest rest) : h.WrittenAs limit (.pair address) (.pair first rest) where
  unfolds := .pair found firsts.unfolds rests.unfolds
  value depth := by
    by_cases shallow : depth ≤ limit
    · obtain ⟨chain, chained⟩ := (Unfolds.pair found firsts.unfolds rests.unfolds).chain?
      obtain ⟨less, others, ending, behind, rfl⟩ := chainWithin_pair found chained
      have expands : h.expand depth (.pair address) =
          .ok (Piece.ofChain depth ⟨cell.first :: others, ending⟩) := by
        simp [expand, chained]
      rw [Piece.ofChain_cons] at expands
      rw [Tree.datum_pair, Datum.text_pair shallow, ← firsts.unfolds.depthInPair, Tree.cost]
      exact .value shallow expands (members firsts rests "(" depth less behind)
    · exact value_of_deep h _ _ shallow
  rest depth bound chain known := by
    obtain ⟨less, others, ending, behind, rfl⟩ := chainWithin_pair found known
    rw [Piece.ofRest_cons, Tree.datum_pair, Datum.tailText_pair, ← firsts.unfolds.depthInPair, Tree.cost]
    exact (members firsts rests " " depth less behind).mono (by omega)

theorem elements {values : List Value} {trees : List (Tree Symbol)}
    (all : List.Forall₂ (h.WrittenAs limit) values trees) (depth : Nat) :
    h.Emits limit (Tree.costAll trees)
      (Piece.spaced (values.map fun v => .value (v.depthInVector depth) v))
      (Datum.elementsText limit depth (trees.map Tree.datum)) := by
  induction all with
  | nil =>
    rw [List.map_nil, List.map_nil, Datum.elementsText_nil]
    exact .nil h
  | @cons v t values trees first others ih =>
    have emits := first.value (v.depthInVector depth)
    cases others with
    | nil =>
      rw [List.map_singleton, List.map_singleton, Datum.elementsText_singleton, Tree.costAll,
        ← first.unfolds.depthInVector]
      exact emits.mono (by omega)
    | @cons v' t' values trees _ _ =>
      simp only [List.map_cons] at ih ⊢
      rw [Datum.elementsText_cons, Tree.costAll, ← first.unfolds.depthInVector]
      exact ((emits.append (.piece h " ")).append ih).mono (by omega)

theorem vector {address : Nat} {values : List Value} {trees : List (Tree Symbol)}
    (found : h.elements? (.vector address) = some values)
    (all : List.Forall₂ (h.WrittenAs limit) values trees) :
    h.WrittenAs limit (.vector address) (.vector trees) := by
  have unfolds : h.Unfolds (.vector address) (.vector trees) :=
    .vector found all.length_eq (getElem?_of_forall₂ (all.imp fun _ _ written => written.unfolds))
  have value (depth : Nat) : h.Emits limit (Tree.vector trees).cost [.value depth (.vector address)]
      ((Tree.vector trees).datum.text limit depth) := by
    by_cases shallow : depth ≤ limit
    · have expands : h.expand depth (.vector address) = .ok (Piece.ofElements depth values) := by
        simp [expand, found]
      have whole := ((Emits.piece h "#(").append (elements all depth)).append (.piece h ")")
      rw [Tree.datum_vector, Datum.text_vector shallow, Tree.cost]
      exact (Emits.value shallow expands whole).mono (by omega)
    · exact value_of_deep h _ _ shallow
  exact ⟨unfolds, value, fun depth bound chain => emits_rest_of_atom unfolds rfl value depth bound⟩

end WrittenAs

theorem Unfolds.writtenAs (unfolds : h.Unfolds v t) : h.WrittenAs limit v t := by
  induction unfolds with
  | pair found _ _ firsts rests => exact .pair found firsts rests
  | vector found length _ ih => exact .vector found (forall₂_of_getElem? length ih)
  | _ =>
    refine .leaf (by constructor) rfl (by simp [Tree.cost]) (fun _ => rfl) fun depth shallow => ?_
    rw [Tree.datum, Tree.map, Datum.text, if_neg (Nat.not_lt.mpr shallow)]
    rfl

theorem foldl_lengths_le (elements : List (List Value)) (start : Nat) :
    start + elements.length ≤ elements.foldl (fun n values => n + values.length + 1) start := by
  induction elements generalizing start with
  | nil => exact Nat.le_refl _
  | cons values elements ih =>
    have others := ih (start + values.length + 1)
    rw [List.foldl_cons, List.length_cons]
    omega

theorem foldl_lengths_lt {elements : List (List Value)} {values : List Value}
    (member : values ∈ elements) (start : Nat) :
    values.length < elements.foldl (fun n values => n + values.length + 1) start := by
  induction elements generalizing start with
  | nil => cases member
  | cons first elements ih =>
    rw [List.foldl_cons]
    cases member with
    | head =>
      have others := foldl_lengths_le elements (start + values.length + 1)
      omega
    | tail _ member => exact ih member _

theorem containers_le_size (h : Heap) : h.pairs.size + h.vectors.size ≤ h.size := by
  rw [size, ← Array.foldl_toList, ← Array.length_toList]
  exact foldl_lengths_le h.vectors.toList h.pairs.size

theorem elements_lt_size {values : List Value} (found : h.elements? v = some values) :
    values.length < h.size := by
  have member : values ∈ h.vectors.toList := by
    cases v with
    | vector address => exact Array.mem_toList_iff.mpr (Array.mem_of_getElem? found)
    | _ => cases found
  rw [size, ← Array.foldl_toList]
  exact foldl_lengths_lt member h.pairs.size

theorem costAll_le {trees : List (Tree Symbol)} {most : Nat} (each : ∀ t ∈ trees, t.cost ≤ most) :
    Tree.costAll trees ≤ trees.length * (most + 1) := by
  induction trees with
  | nil => simp [Tree.costAll]
  | cons t trees ih =>
    have first := each t (List.mem_cons_self ..)
    have others := ih fun t' member => each t' (List.mem_cons_of_mem _ member)
    rw [Tree.costAll, List.length_cons, Nat.succ_mul]
    omega

theorem cost_vector_le {trees : List (Tree Symbol)} {most size : Nat} (positive : 1 ≤ most)
    (each : ∀ t ∈ trees, t.cost ≤ most) (few : trees.length ≤ size)
    (wide : trees ≠ [] → size + 6 ≤ most) : (Tree.vector trees).cost ≤ (size + 6) * most := by
  have sum := costAll_le each
  have six : 6 * most ≤ (size + 6) * most := Nat.mul_le_mul_right most (by omega)
  rw [Tree.cost]
  cases trees with
  | nil =>
    rw [Tree.costAll]
    omega
  | cons first others =>
    have enough := wide (List.cons_ne_nil first others)
    have less := Nat.mul_le_mul_right most few
    rw [Nat.mul_add] at sum
    rw [Nat.add_mul]
    omega

theorem cost_le_of_treeWithin {depth : Nat} (known : h.treeWithin depth v = some t) :
    t.cost ≤ (h.size + 6) ^ depth := by
  induction depth generalizing v t with
  | zero => cases known
  | succ depth ih =>
    -- A level multiplies the cost by no more than the size of the heap and six.
    have positive : 1 ≤ (h.size + 6) ^ depth := Nat.one_le_pow _ _ (by omega)
    have six : 6 * (h.size + 6) ^ depth ≤ (h.size + 6) * (h.size + 6) ^ depth :=
      Nat.mul_le_mul_right _ (by omega)
    rw [Nat.pow_succ, Nat.mul_comm]
    cases v with
    | pair address =>
      obtain ⟨cell, found, known⟩ := Option.bind_eq_some_iff.mp known
      obtain ⟨first, firsts, known⟩ := Option.bind_eq_some_iff.mp known
      obtain ⟨rest, rests, known⟩ := Option.bind_eq_some_iff.mp known
      cases known
      have left := ih firsts
      have right := ih rests
      rw [Tree.cost]
      omega
    | vector address =>
      obtain ⟨values, found, known⟩ := Option.bind_eq_some_iff.mp known
      obtain ⟨trees, mapped, known⟩ := Option.bind_eq_some_iff.mp known
      cases known
      have all := forall₂_of_mapM mapped
      have few : trees.length < h.size := all.length_eq ▸ elements_lt_size found
      refine cost_vector_le positive (fun t member => ?_) (Nat.le_of_lt few) fun some => ?_
      · obtain ⟨i, inside, rfl⟩ := List.getElem_of_mem member
        have within : i < values.length := all.length_eq ▸ inside
        exact ih (getElem?_of_forall₂ all i _ _ (List.getElem?_eq_getElem within)
          (List.getElem?_eq_getElem inside))
      · -- An element has some depth.
        cases depth with
        | zero =>
          cases all with
          | nil => exact absurd rfl some
          | cons known _ => cases known
        | succ depth => exact Nat.le_self_pow (Nat.succ_ne_zero depth) _
    | _ =>
      cases known
      rw [Tree.cost]
      · omega
      · simp
      · simp

theorem cost_lt_rounds (known : h.tree? v = some t) : t.cost + 2 ≤ 2 ^ h.rounds := by
  let width := h.size + 6
  have cost : t.cost ≤ width ^ (h.size + 1) := by
    have depth : h.pairs.size + h.vectors.size + 1 ≤ h.size + 1 := by
      have containers := h.containers_le_size
      omega
    exact Nat.le_trans (cost_le_of_treeWithin known) (Nat.pow_le_pow_right (by omega) depth)
  have exponent : width * (h.size + 1) + 2 ≤ h.rounds := by
    have split : h.rounds = width * (h.size + 1) + width * 5 := by
      rw [← Nat.mul_add]
      rfl
    omega
  calc t.cost + 2
    _ ≤ (2 ^ width) ^ (h.size + 1) + 2 :=
      Nat.add_le_add_right
        (Nat.le_trans cost (Nat.pow_le_pow_left (Nat.le_of_lt Nat.lt_two_pow_self) _)) 2
    _ = 2 ^ (width * (h.size + 1)) + 2 := by rw [Nat.pow_mul]
    _ ≤ 2 ^ (width * (h.size + 1) + 2) := by
      have positive : 1 ≤ 2 ^ (width * (h.size + 1)) := Nat.one_le_two_pow
      rw [Nat.pow_add]
      omega
    _ ≤ 2 ^ h.rounds := Nat.pow_le_pow_right (by omega) exponent

/-- The text of a value that is nested in `depth` calls. -/
def writeFrom (h : Heap) (limit depth : Nat) (value : Value) : Except ValueFault String :=
  (Steps.runDoubling (h.writeStep limit) h.rounds 1 ("", [.value depth value])).getD (.error .cyclic)

theorem writeFrom_eq_text (known : h.tree? v = some t) (limit depth : Nat) :
    h.writeFrom limit depth v = t.datum.text limit depth := by
  have enough := cost_lt_rounds known
  obtain ⟨steps, few, runs⟩ := (tree?_eq_some_iff.mp known).writtenAs.value depth
  specialize runs "" []
  have result : Steps.runFor (h.writeStep limit) (steps + 1) ("", [.value depth v]) =
      .inr (t.datum.text limit depth) := by
    rw [Steps.runFor_add]
    change (Steps.runFor (h.writeStep limit) steps ("", [.value depth v] ++ [])).elim _ _ = _
    rw [runs]
    cases t.datum.text limit depth with
    | error fault => rfl
    | ok s => simp [behind, Steps.runFor, writeStep]
  have many : steps + 1 ≤ (Nat.pow 2 h.rounds - 1) * 1 := by
    have power : Nat.pow 2 h.rounds = 2 ^ h.rounds := rfl
    omega
  rw [writeFrom, Steps.runDoubling_eq, Steps.runFor_of_le result many]
  rfl

/-- Writing a value comes to the text of its tree, or to the error which that text has. -/
theorem write_eq_text (known : h.tree? v = some t) (limit : Nat) :
    h.write v limit = t.datum.text limit 0 :=
  writeFrom_eq_text known limit 0

end Heap

end SexprReader
