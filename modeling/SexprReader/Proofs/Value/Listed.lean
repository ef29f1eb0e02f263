import SexprReader.Proofs.Value.Chains

/-! The text of a list. It is made of the texts of the members of its chain, and of that of its ending. A
text that is a part of another can only come out differently where no calls are left for its vectors. -/

namespace SexprReader

/-- Nothing but calls nested beyond the limit keeps the text from being the other one. -/
def Cut (limit nesting : Nat) (text full : Except ValueFault String) : Prop :=
  limit < nesting ∧ text = .error .tooDeep ∨ text = full

namespace Cut

variable {limit m n : Nat} {text text' full full' : Except ValueFault String}

theorem refl (n : Nat) (text : Except ValueFault String) : Cut limit n text text := .inr rfl

theorem mono (cut : Cut limit m text full) (le : m ≤ n) : Cut limit n text full :=
  cut.imp_left fun ⟨deep, failed⟩ => ⟨Nat.lt_of_lt_of_le deep le, failed⟩

theorem joined (cut : Cut limit m text full) (cut' : Cut limit n text' full') :
    Cut limit (max m n) (SexprReader.joined text text') (SexprReader.joined full full') := by
  obtain ⟨deep, rfl⟩ | rfl := cut
  · exact .inl ⟨Nat.lt_of_lt_of_le deep (Nat.le_max_left m n), rfl⟩
  · obtain ⟨deep, rfl⟩ | rfl := cut'
    · cases text with
      | error fault => exact .inr rfl
      | ok s => exact .inl ⟨Nat.lt_of_lt_of_le deep (Nat.le_max_right m n), rfl⟩
    · exact .inr rfl

theorem behind (cut : Cut limit n text full) (s : String) :
    Cut limit n (SexprReader.joined (.ok s) text) (SexprReader.joined (.ok s) full) := by
  simpa using (refl 0 (.ok s)).joined cut

theorem before (cut : Cut limit n text full) (s : String) :
    Cut limit n (SexprReader.joined text (.ok s)) (SexprReader.joined full (.ok s)) := by
  simpa using cut.joined (refl 0 (.ok s))

end Cut

namespace Datum

variable {limit depth depth' : Nat}

theorem cut_of_shallow {d : Datum} (le : depth ≤ depth')
    (cut : depth ≤ limit → depth' ≤ limit →
      Cut limit (d.nesting depth') (d.text limit depth') (d.text limit depth)) :
    Cut limit (d.nesting depth') (d.text limit depth') (d.text limit depth) := by
  by_cases shallow : depth' ≤ limit
  · exact cut (Nat.le_trans le shallow) shallow
  · have deep := Nat.lt_of_not_le shallow
    exact .inl ⟨Nat.lt_of_lt_of_le deep (d.le_nesting depth'), d.text_of_deep deep⟩

theorem cut_leaf {d : Datum} (single : ∀ first rest, d ≠ .pair first rest)
    (flat : ∀ elements, d ≠ .vector elements) (le : depth ≤ depth') :
    Cut limit (d.nesting depth') (d.text limit depth') (d.text limit depth) := by
  refine cut_of_shallow le fun shallow shallow' => .inr ?_
  rw [text.eq_def, text.eq_def, if_neg (Nat.not_lt.mpr shallow), if_neg (Nat.not_lt.mpr shallow')]
  cases d with
  | pair first rest => exact absurd rfl (single first rest)
  | vector elements => exact absurd rfl (flat elements)
  | _ => rfl

theorem cut_tail {d : Datum} (single : ∀ first rest, d ≠ .pair first rest)
    (cut : Cut limit (d.nesting (d.depthInPair depth')) (d.text limit (d.depthInPair depth'))
      (d.text limit (d.depthInPair depth))) :
    Cut limit (d.nesting (d.depthInPair depth')) (d.tailText limit depth') (d.tailText limit depth) := by
  by_cases nil : d = .nil
  · subst nil
    simpa [tailText] using .refl _ _
  · rw [tailText_of_atom limit depth' nil single, tailText_of_atom limit depth nil single]
    exact (cut.behind " . ").before ")"

theorem cut_elements {ds : List Datum}
    (all : ∀ d ∈ ds, Cut limit (d.nesting (d.depthInVector depth')) (d.text limit (d.depthInVector depth'))
      (d.text limit (d.depthInVector depth))) :
    Cut limit (Tree.nestingAll depth' ds) (elementsText limit depth' ds) (elementsText limit depth ds) := by
  induction ds with
  | nil =>
    rw [elementsText_nil, elementsText_nil]
    exact .refl _ _
  | cons d ds ih =>
    obtain ⟨first, others⟩ := List.forall_mem_cons.mp all
    rw [Tree.nestingAll]
    cases ds with
    | nil =>
      rw [elementsText_singleton, elementsText_singleton]
      exact first.mono (Nat.le_max_left _ _)
    | cons e ds =>
      rw [elementsText_cons, elementsText_cons]
      exact (first.before " ").joined (ih others)

/-- With more calls open a datum has the same text, by itself and as the rest of a list, if it has one. -/
theorem cut (d : Datum) (le : depth ≤ depth') :
    Cut limit (d.nesting depth') (d.text limit depth') (d.text limit depth) ∧
      Cut limit (d.nesting (d.depthInPair depth')) (d.tailText limit depth') (d.tailText limit depth) := by
  induction d using Tree.induct generalizing depth depth' with
  | leaf d single flat =>
    exact ⟨cut_leaf single flat le, cut_tail single (cut_leaf single flat (d.depthInPair_mono le))⟩
  | pair first rest firsts rests =>
    have firsts := (firsts (first.depthInPair_mono le)).1.behind
    have rests := (rests le).2
    constructor
    · refine cut_of_shallow le fun shallow shallow' => ?_
      rw [text_pair shallow, text_pair shallow', Tree.nesting]
      exact (firsts "(").joined rests
    · rw [tailText_pair, tailText_pair, Tree.depthInPair, Tree.nesting]
      · exact (firsts " ").joined rests
      · simp
  | vector elements all =>
    have text {depth depth' : Nat} (le : depth ≤ depth') :
        Cut limit (Tree.nesting depth' (.vector elements)) (text limit depth' (.vector elements))
          (text limit depth (.vector elements)) := by
      refine cut_of_shallow le fun shallow shallow' => ?_
      rw [text_vector shallow, text_vector shallow', Tree.nesting]
      have each := cut_elements fun d member => (all d member (d.depthInVector_mono le)).1
      exact ((each.mono (Nat.le_max_right _ _)).behind "#(").before ")"
    exact ⟨text le, cut_tail (by simp) (text (Nat.succ_le_succ le))⟩

end Datum

namespace Chain

variable {write write' : Value → Except ValueFault String}

def endingText (write : Value → Except ValueFault String) (chain : Chain) : Except ValueFault String :=
  if chain.ending = .nil then .ok "" else do return " . " ++ (← write chain.ending)

/-- The text of a list, given those of its parts. -/
def text (write : Value → Except ValueFault String) (chain : Chain) : Except ValueFault String := do
  let members ← chain.firsts.mapM write
  return "(" ++ " ".intercalate members ++ (← chain.endingText write) ++ ")"

def restText (write : Value → Except ValueFault String) (chain : Chain) : Except ValueFault String := do
  let members ← chain.firsts.mapM write
  return .join (members.map (" " ++ ·)) ++ (← chain.endingText write) ++ ")"

theorem intercalate_cons (s : String) (ss : List String) :
    " ".intercalate (s :: ss) = s ++ .join (ss.map (" " ++ ·)) := by
  induction ss generalizing s with
  | nil => simp
  | cons t ss ih =>
    rw [String.intercalate_cons_cons, ih, List.map_cons, String.join_cons]
    simp only [String.append_assoc]

variable (write) (first : Value) (firsts : List Value) (ending : Value)

theorem restText_nil : restText write ⟨[], .nil⟩ = .ok ")" := rfl

theorem restText_of_ending (some : ending ≠ .nil) : restText write ⟨[], ending⟩ =
    joined (joined (.ok " . ") (write ending)) (.ok ")") := by
  simp only [restText, endingText, if_neg some]
  cases write ending with
  | error fault => rfl
  | ok s => simp [joined, pure, Except.pure, bind, Except.bind]

/-- However the members are put together, the first comes with what opens the text, the others as behind
it. -/
theorem bind_members {render : List String → String} {opening : String}
    (renders : ∀ s ss, render (s :: ss) = opening ++ s ++ .join (ss.map (" " ++ ·))) :
    (do
      let members ← (first :: firsts).mapM write
      return render members ++ (← endingText write ⟨firsts, ending⟩) ++ ")") =
    joined (joined (.ok opening) (write first)) (restText write ⟨firsts, ending⟩) := by
  simp only [restText, List.mapM_cons]
  cases write first with
  | error fault => rfl
  | ok s =>
    cases firsts.mapM write with
    | error fault => rfl
    | ok members =>
      cases endingText write ⟨firsts, ending⟩ with
      | error fault => rfl
      | ok s' => simp [joined, pure, Except.pure, bind, Except.bind, renders, String.append_assoc]

theorem restText_cons : restText write ⟨first :: firsts, ending⟩ =
    joined (joined (.ok " ") (write first)) (restText write ⟨firsts, ending⟩) :=
  bind_members write first firsts ending fun s ss => by simp

theorem text_cons : text write ⟨first :: firsts, ending⟩ =
    joined (joined (.ok "(") (write first)) (restText write ⟨firsts, ending⟩) :=
  bind_members write first firsts ending fun s ss => by rw [intercalate_cons, String.append_assoc]

end Chain

namespace Heap

variable {h : Heap} {u v w : Value} {t : Tree Symbol} {addresses : List Nat} {firsts : List Value}
  {limit depth : Nat}

/-- The text of a part of a pair for which `depth` calls are open. -/
def partText (h : Heap) (limit depth : Nat) (part : Value) : Except ValueFault String :=
  h.writeFrom limit (part.depthInPair depth) part

namespace Unfolds

theorem writeFrom (unfolds : h.Unfolds v t) (limit depth : Nat) :
    h.writeFrom limit depth v = t.datum.text limit depth :=
  writeFrom_eq_text (tree?_eq_some_iff.mpr unfolds) limit depth

theorem partText (unfolds : h.Unfolds v t) (limit depth : Nat) :
    h.partText limit depth v = t.datum.text limit (t.datum.depthInPair depth) := by
  rw [Heap.partText, unfolds.depthInPair, unfolds.writeFrom]

end Unfolds

theorem Links.tailText (links : h.Links addresses firsts v w) (ends : h.cell? w = none)
    (unfolds : h.Unfolds v t) (limit depth : Nat) :
    t.datum.tailText limit depth = (Chain.mk firsts w).restText (h.partText limit depth) := by
  induction links generalizing t with
  | here v =>
    by_cases nil : v = .nil
    · subst nil
      cases unfolds
      rw [Tree.datum, Tree.map, Datum.tailText, Chain.restText_nil]
    · rw [Datum.tailText_of_atom limit depth (unfolds.datum_ne_nil nil) (unfolds.datum_ne_pair ends),
        Chain.restText_of_ending _ _ nil, unfolds.partText]
  | next found _ ih =>
    obtain ⟨first, rest, rfl, firsts, rests⟩ := unfolds.of_cell found
    rw [Tree.datum_pair, Datum.tailText_pair, Chain.restText_cons, firsts.partText, ih ends rests]

theorem Links.exists_members {address : Nat} (links : h.Links addresses firsts (.pair address) w)
    (ends : h.cell? w = none) (unfolds : h.Unfolds (.pair address) t) :
    ∃ v u more others first rest, firsts = v :: others ∧ t = .pair first rest ∧ h.Unfolds v first ∧
      h.Unfolds u rest ∧ h.Links more others u w := by
  cases unfolds with
  | pair found firsts rests =>
    cases links with
    | here => cases found.symm.trans ends
    | next found' onward =>
      cases found.symm.trans found'
      exact ⟨_, _, _, _, _, _, rfl, rfl, firsts, rests, onward⟩

theorem Links.writeFrom {address : Nat} (links : h.Links addresses firsts (.pair address) w)
    (ends : h.cell? w = none) (unfolds : h.Unfolds (.pair address) t) (shallow : depth ≤ limit) :
    h.writeFrom limit depth (.pair address) = (Chain.mk firsts w).text (h.partText limit depth) := by
  obtain ⟨_, _, _, _, _, _, rfl, rfl, firsts, rests, onward⟩ := links.exists_members ends unfolds
  rw [unfolds.writeFrom, Tree.datum_pair, Datum.text_pair shallow, Chain.text_cons, firsts.partText,
    onward.tailText ends rests]

theorem Unfolds.cut_part (unfolds : h.Unfolds v t) :
    Cut limit (t.datum.nesting (t.datum.depthInPair 0)) (h.partText limit 0 v) (h.write v limit) := by
  rw [unfolds.partText, write_eq_text (tree?_eq_some_iff.mpr unfolds)]
  exact (t.datum.cut (t.datum.le_depthInPair 0)).1

theorem Links.cut_rest (links : h.Links addresses firsts v w) (ends : h.cell? w = none)
    (unfolds : h.Unfolds v t) : Cut limit (t.datum.nesting (t.datum.depthInPair 0))
      ((Chain.mk firsts w).restText (h.partText limit 0))
      ((Chain.mk firsts w).restText (h.write · limit)) := by
  induction links generalizing t with
  | here v =>
    by_cases nil : v = .nil
    · subst nil
      exact .refl _ _
    · rw [Chain.restText_of_ending _ _ nil, Chain.restText_of_ending _ _ nil]
      exact (unfolds.cut_part.behind " . ").before ")"
  | next found _ ih =>
    obtain ⟨first, rest, rfl, firsts, rests⟩ := unfolds.of_cell found
    rw [Chain.restText_cons, Chain.restText_cons, Tree.datum_pair, Tree.depthInPair, Tree.nesting]
    · exact (firsts.cut_part.behind " ").joined (ih ends rests)
    · simp

theorem Links.cut {address : Nat} (links : h.Links addresses firsts (.pair address) w)
    (ends : h.cell? w = none) (unfolds : h.Unfolds (.pair address) t) :
    Cut limit (t.datum.nesting 0) (h.write (.pair address) limit)
      ((Chain.mk firsts w).text (h.write · limit)) := by
  have text : h.write (.pair address) limit = (Chain.mk firsts w).text (h.partText limit 0) :=
    links.writeFrom ends unfolds (Nat.zero_le limit)
  obtain ⟨_, _, _, _, _, _, rfl, rfl, firsts, rests, onward⟩ := links.exists_members ends unfolds
  rw [text, Chain.text_cons, Chain.text_cons, Tree.datum_pair, Tree.nesting]
  exact (firsts.cut_part.behind "(").joined (onward.cut_rest ends rests)

/-- A list is written as the members of its chain, with spaces between them, and its ending behind a dot,
unless that is the empty list. As its parts they are written as they are by themselves; only vectors inside
that are nested too deep, in the list or by themselves, keep it from being written so. -/
theorem write_list (h : Heap) (address limit : Nat) (acyclic : h.Acyclic (.pair address)) :
    ∃ t chain, h.tree? (.pair address) = some t ∧ h.chain? (.pair address) = some chain ∧
      chain.firsts ≠ [] ∧ h.write (.pair address) limit ≠ .error .cyclic ∧
      (∀ depth ≤ limit, h.writeFrom limit depth (.pair address) = chain.text (h.partText limit depth)) ∧
      (limit < t.datum.nesting 0 ∧ h.write (.pair address) limit = .error .tooDeep ∨
        h.write (.pair address) limit = chain.text (h.write · limit)) := by
  obtain ⟨t, unfolds⟩ := acyclic.exists_unfolds
  obtain ⟨addresses, firsts, ending, links, ends⟩ := acyclic.exists_links
  have some : firsts ≠ [] := by
    obtain ⟨_, _, _, _, _, _, rfl, -⟩ := links.exists_members ends unfolds
    exact List.cons_ne_nil _ _
  exact ⟨t, ⟨firsts, ending⟩, tree?_eq_some_iff.mpr unfolds, links.chain? ends, some,
    unfolds.write_ne_cyclic limit, fun depth shallow => links.writeFrom ends unfolds shallow,
    links.cut ends unfolds⟩

/-- `((a) (a) . #((a)))`, in which the lists of one member are one list. -/
theorem write_list_shared :
    let h : Heap := ⟨#[⟨.symbol ⟨0, "a"⟩, .nil⟩, ⟨.pair 0, .pair 2⟩, ⟨.pair 0, .vector 0⟩], #[[.pair 0]], 0⟩
    h.Acyclic (.pair 1) ∧ ∃ chain, h.chain? (.pair 1) = some chain ∧
      h.write (.pair 1) 2 = chain.text (h.write · 2) ∧ h.write (.pair 1) 2 = .ok "((a) (a) . #((a)))" := by
  intro h
  have acyclic : h.Acyclic (.pair 1) := acyclic_iff.mpr ⟨_, rfl⟩
  obtain ⟨t, chain, known, chained, -, -, -, written⟩ := write_list h 1 2 acyclic
  cases known
  refine ⟨acyclic, chain, chained, written.resolve_left fun cut => ?_, ?_⟩
  · exact absurd cut.1 (by decide)
  · rfl

/-- No limit for calls is high enough for all lists to be written as the texts of their members. A vector
that can just be written by itself is too deep in a list. -/
theorem not_exists_listing_limit :
    ¬ ∃ limit, ∀ (h : Heap) (address : Nat) (chain : Chain), h.Acyclic (.pair address) →
      h.chain? (.pair address) = some chain →
        h.write (.pair address) limit = chain.text (h.write · limit) := by
  rintro ⟨limit, writes⟩
  let v : Value := .vector (2 * limit)
  have unfolds : (twins (limit + 1)).Unfolds v (nest limit) :=
    unfolds_twins Nat.two_pos (Nat.lt_succ_self limit)
  obtain ⟨addresses, grows, links⟩ := exists_links_ofList (twins (limit + 1)) [v] .nil
  generalize (twins (limit + 1)).ofList [v] .nil = built at grows links
  obtain ⟨head, h⟩ := built
  obtain ⟨address, more, rest, rfl, found, onward⟩ := links.exists_cell
  cases onward
  have member : h.Unfolds v (nest limit) := grows.unfolds unfolds
  have list : h.Unfolds (.pair address) (.pair (nest limit) .nil) := .pair found member (.sentinel .nil)
  obtain ⟨s, text⟩ := (limitedBy_nest limit 0 limit).1 (by omega)
  have alone : h.write v limit = .ok s := (write_eq_text (tree?_eq_some_iff.mpr member) limit).trans text
  have deep : h.write (.pair address) limit = .error .tooDeep := by
    rw [write_eq_text (tree?_eq_some_iff.mpr list), Tree.datum_pair, Datum.text_pair (Nat.zero_le _),
      depthInPair_nest, (limitedBy_nest limit 1 limit).2 (by omega)]
    rfl
  have listed := writes h address _ list.acyclic (links.chain? rfl)
  rw [deep] at listed
  simp [Chain.text, Chain.endingText, alone, bind, Except.bind, pure, Except.pure] at listed

end Heap

end SexprReader
