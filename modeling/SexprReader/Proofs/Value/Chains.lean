import SexprReader.Proofs.Store.Serves
import SexprReader.Proofs.Value.Structural

namespace SexprReader

namespace Heap

variable {h h' : Heap} {u v w : Value} {t : Tree Symbol} {addresses more : List Nat}
  {firsts others : List Value}

/-- From one value the rests lead through the pairs at these addresses, with these firsts, to another. -/
inductive Links (h : Heap) : (addresses : List Nat) → (firsts : List Value) → Value → Value → Prop
  | here (v : Value) : Links h [] [] v v
  | next {address : Nat} {addresses : List Nat} {firsts : List Value} {cell : Cell} {w : Value}
      (found : h.cell? (.pair address) = some cell) (onward : Links h addresses firsts cell.rest w) :
      Links h (address :: addresses) (cell.first :: firsts) (.pair address) w

namespace Links

theorem append (links : h.Links addresses firsts u v) (onward : h.Links more others v w) :
    h.Links (addresses ++ more) (firsts ++ others) u w := by
  induction links with
  | here => exact onward
  | next found _ ih => exact .next found (ih onward)

theorem exists_cell {first : Value} (links : h.Links addresses (first :: firsts) v w) :
    ∃ address more rest, v = .pair address ∧ h.cell? v = some ⟨first, rest⟩ ∧ h.Links more firsts rest w := by
  cases links with
  | next found onward => exact ⟨_, _, _, rfl, found, onward⟩

theorem of_cells (links : h.Links addresses firsts v w)
    (same : ∀ address ∈ addresses, h'.cell? (.pair address) = h.cell? (.pair address)) :
    h'.Links addresses firsts v w := by
  induction links with
  | here v => exact .here v
  | next found _ ih =>
    have kept := (same _ List.mem_cons_self).trans found
    exact .next kept (ih fun address member => same address (List.mem_cons_of_mem _ member))

theorem lt_size (links : h.Links addresses firsts v w) (address : Nat) (member : address ∈ addresses) :
    address < h.pairs.size := by
  induction links with
  | here => cases member
  | next found _ ih =>
    rcases List.mem_cons.mp member with rfl | later
    · exact (Array.getElem?_eq_some_iff.mp found).1
    · exact ih later

theorem suffix (links : h.Links addresses firsts v w) (ends : h.cell? w = none)
    (start : h.Links more others v u) :
    ∃ addresses' firsts', addresses = more ++ addresses' ∧ firsts = others ++ firsts' ∧
      h.Links addresses' firsts' u w := by
  induction start generalizing addresses firsts with
  | here => exact ⟨addresses, firsts, rfl, rfl, links⟩
  | next found _ ih =>
    cases links with
    | here => cases ends.symm.trans found
    | next found' onward =>
      cases found.symm.trans found'
      obtain ⟨addresses', firsts', rfl, rfl, rest⟩ := ih onward
      exact ⟨addresses', firsts', rfl, rfl, rest⟩

theorem exists_behind {address : Nat} (links : h.Links addresses firsts v w)
    (member : address ∈ addresses) :
    ∃ behind firsts', behind.length ≤ addresses.length ∧
      h.Links behind firsts' (.pair address) w := by
  induction links with
  | here => cases member
  | @next _ behind _ _ _ found onward ih =>
    rcases List.mem_cons.mp member with rfl | later
    · exact ⟨_, _, Nat.le_refl _, .next found onward⟩
    · obtain ⟨behind, firsts', shorter, rest⟩ := ih later
      exact ⟨behind, firsts', Nat.le_succ_of_le shorter, rest⟩

theorem nodup (links : h.Links addresses firsts v w) (ends : h.cell? w = none) : addresses.Nodup := by
  induction links with
  | here => exact .nil
  | @next address rest _ _ _ found onward ih =>
    refine List.nodup_cons.mpr ⟨fun again => ?_, ih ends⟩
    obtain ⟨behind, firsts', shorter, links⟩ := onward.exists_behind again
    obtain ⟨left, -, equal, -, -⟩ := links.suffix ends (.next found onward)
    rw [equal, List.length_append, List.length_cons] at shorter
    omega

theorem length_le (links : h.Links addresses firsts v w) (ends : h.cell? w = none) :
    addresses.length ≤ h.pairs.size := by
  have inside : addresses ⊆ List.range h.pairs.size := fun address member =>
    List.mem_range.mpr (links.lt_size address member)
  have few := (List.subperm_of_subset (links.nodup ends) inside).length_le
  rwa [List.length_range] at few

theorem chainWithin (links : h.Links addresses firsts v w) (ends : h.cell? w = none) {bound : Nat}
    (enough : addresses.length ≤ bound) (seen : List Value) :
    h.chainWithin bound seen v = some ⟨seen.reverse ++ firsts, w⟩ := by
  induction links generalizing bound seen with
  | here =>
    unfold Heap.chainWithin
    rw [ends]
    simp
  | next found _ ih =>
    obtain ⟨bound, rfl⟩ : ∃ less, bound = less + 1 := ⟨bound - 1, by simp at enough; omega⟩
    unfold Heap.chainWithin
    rw [found]
    simp only
    rw [ih ends (Nat.le_of_succ_le_succ enough)]
    simp

end Links

theorem exists_links_of_chainWithin {bound : Nat} {seen : List Value} {chain : Chain}
    (known : h.chainWithin bound seen v = some chain) :
    ∃ addresses firsts, chain.firsts = seen.reverse ++ firsts ∧ h.Links addresses firsts v chain.ending ∧
      h.cell? chain.ending = none := by
  fun_induction h.chainWithin bound seen v with
  | case1 _ _ v single =>
    cases known
    exact ⟨[], [], (List.append_nil _).symm, .here v, single⟩
  | case2 => cases known
  | case3 seen v cell found bound ih =>
    obtain ⟨addresses, firsts, members, links, ends⟩ := ih known
    cases v with
    | pair address =>
      refine ⟨address :: addresses, cell.first :: firsts, ?_, .next found links, ends⟩
      rw [members, List.reverse_cons, List.append_assoc, List.singleton_append]
    | _ => cases found

/-- The chain of a value is what the rests lead through, up to a value that is no pair. -/
theorem chain?_eq_some_iff {chain : Chain} : h.chain? v = some chain ↔
    ∃ addresses, h.Links addresses chain.firsts v chain.ending ∧ h.cell? chain.ending = none := by
  constructor
  · intro known
    obtain ⟨addresses, firsts, members, links, ends⟩ := exists_links_of_chainWithin known
    exact ⟨addresses, (show chain.firsts = firsts from members) ▸ links, ends⟩
  · rintro ⟨addresses, links, ends⟩
    exact links.chainWithin ends (links.length_le ends) []

theorem Links.chain? (links : h.Links addresses firsts v w) (ends : h.cell? w = none) :
    h.chain? v = some ⟨firsts, w⟩ :=
  chain?_eq_some_iff.mpr ⟨addresses, links, ends⟩

section Growth

theorem cell?_cons_of_lt {address : Nat} (old : address < h.pairs.size) (first rest : Value) :
    (h.cons first rest).2.cell? (.pair address) = h.cell? (.pair address) := by
  simp [cons, cell?, Array.getElem?_push, Nat.ne_of_lt old]

/-- The heap has got new pairs at exactly these addresses. All there was is as before. -/
structure Grows (h h' : Heap) (addresses : List Nat) : Prop where
  distinct : addresses.Nodup
  new : ∀ address, address ∈ addresses ↔ h.pairs.size ≤ address ∧ address < h'.pairs.size
  size : h'.pairs.size = h.pairs.size + addresses.length
  kept : ∀ address < h.pairs.size, h'.cell? (.pair address) = h.cell? (.pair address)
  vectors : h'.vectors = h.vectors

namespace Grows

theorem refl (h : Heap) : h.Grows h [] where
  distinct := .nil
  new address := by
    simp only [List.not_mem_nil, false_iff]
    omega
  size := rfl
  kept _ _ := rfl
  vectors := rfl

theorem cons (grows : h.Grows h' addresses) (first rest : Value) :
    h.Grows (h'.cons first rest).2 (h'.pairs.size :: addresses) where
  distinct := List.nodup_cons.mpr
    ⟨fun again => Nat.lt_irrefl _ ((grows.new _).mp again).2, grows.distinct⟩
  new address := by
    have size := grows.size
    simp only [List.mem_cons, grows.new, Heap.cons, Array.size_push]
    omega
  size := by rw [Heap.cons, Array.size_push, grows.size, List.length_cons, Nat.add_assoc]
  kept address old := by
    have size := grows.size
    exact (cell?_cons_of_lt (by omega) first rest).trans (grows.kept address old)
  vectors := grows.vectors

theorem links (grows : h.Grows h' more) (links : h.Links addresses firsts v w) :
    h'.Links addresses firsts v w :=
  links.of_cells fun address member => grows.kept address (links.lt_size address member)

theorem cell?_eq (grows : h.Grows h' addresses) (holds : h.Holds v) : h'.cell? v = h.cell? v := by
  cases v with
  | pair address => exact grows.kept address holds
  | _ => rfl

theorem agrees (grows : h.Grows h' addresses) (symbols : SymbolTables) :
    Store.Agrees 0 h.pairs.size ⟨h, symbols⟩ ⟨h', symbols⟩ where
  cells address _ below := grows.kept address below
  size := Nat.le.intro grows.size.symm
  vectors _ _ found := (congrArg (·[_]?) grows.vectors).trans found
  symbols _ _ _ found := found
  tables := rfl

theorem unfolds (grows : h.Grows h' addresses) (unfolds : h.Unfolds v t) : h'.Unfolds v t :=
  have unfolds : (Store.mk h .initial).heap.Unfolds v t := unfolds
  unfolds.agrees (grows.agrees .initial)

end Grows

theorem Whole.rest {address : Nat} {cell : Cell} (whole : h.Whole (.pair address))
    (found : h.cell? (.pair address) = some cell) : h.Whole cell.rest :=
  have part : h.part? (.pair address) .rest = some cell.rest := congrArg (Option.map Cell.rest) found
  whole.part part

theorem Whole.links_iff (whole : h.Whole v) (grows : h.Grows h' more) :
    h'.Links addresses firsts v w ↔ h.Links addresses firsts v w := by
  refine ⟨fun links => ?_, grows.links⟩
  induction links with
  | here v => exact .here v
  | next found _ ih =>
    rw [grows.kept _ (whole [] _ rfl)] at found
    exact .next found (ih (whole.rest found))

theorem Whole.of_links (whole : h.Whole v) (links : h.Links addresses firsts v w) : h.Whole w := by
  induction links with
  | here => exact whole
  | next found _ ih => exact ih (whole.rest found)

theorem ofList_cons (h : Heap) (first : Value) (firsts : List Value) (tail : Value) :
    h.ofList (first :: firsts) tail = (h.ofList firsts tail).2.cons first (h.ofList firsts tail).1 := by
  simp [ofList]

/-- A new list is a new pair for each of its members, in front of the tail itself. -/
theorem exists_links_ofList (h : Heap) (firsts : List Value) (tail : Value) :
    ∃ addresses, h.Grows (h.ofList firsts tail).2 addresses ∧
      (h.ofList firsts tail).2.Links addresses firsts (h.ofList firsts tail).1 tail := by
  induction firsts with
  | nil => exact ⟨[], .refl h, .here tail⟩
  | cons first firsts ih =>
    obtain ⟨addresses, grows, links⟩ := ih
    rw [ofList_cons]
    generalize h.ofList firsts tail = rest at grows links ⊢
    have kept : (rest.2.cons first rest.1).2.Links addresses firsts rest.1 tail :=
      links.of_cells fun address member => cell?_cons_of_lt (links.lt_size address member) first rest.1
    exact ⟨_, grows.cons first rest.1, .next (cell?_cons_self _ _ _) kept⟩

end Growth

section Change

/-- The heap after rests of pairs were set, one after the other. -/
def setRests (h : Heap) (changes : List (Nat × Value)) : Heap :=
  changes.foldl (fun h change => h.setRest change.1 change.2) h

theorem Links.setRest {address : Nat} (links : h.Links addresses firsts v w) (outside : address ∉ addresses)
    (value : Value) : (h.setRest address value).Links addresses firsts v w := by
  refine links.of_cells fun other member => ?_
  rw [cell?_setRest]
  have apart : address ≠ other := fun same => outside (same ▸ member)
  simp [apart]

theorem Links.setRests {changes : List (Nat × Value)} (links : h.Links addresses firsts v w)
    (outside : ∀ change ∈ changes, change.1 ∉ addresses) :
    (h.setRests changes).Links addresses firsts v w := by
  induction changes generalizing h with
  | nil => exact links
  | cons change changes ih =>
    obtain ⟨one, others⟩ := List.forall_mem_cons.mp outside
    exact ih (links.setRest one change.2) others

@[simp] theorem elements?_setRests (h : Heap) (changes : List (Nat × Value)) (vector : Value) :
    (h.setRests changes).elements? vector = h.elements? vector := by
  induction changes generalizing h with
  | nil => rfl
  | cons change changes ih => exact (ih _).trans (elements?_setRest h change.1 change.2 vector)

end Change

section Alike

namespace Links

theorem unfolds (links : h.Links addresses firsts v w) (links' : h.Links more firsts u w)
    (unfolds : h.Unfolds v t) : h.Unfolds u t := by
  induction links generalizing more u t with
  | here =>
    cases links'
    exact unfolds
  | next found _ ih =>
    obtain ⟨_, _, _, rfl, found', onward'⟩ := links'.exists_cell
    obtain ⟨first, rest, rfl, firsts, rests⟩ := unfolds.of_cell found
    exact .pair found' firsts (ih onward' rests)

theorem not_overruns (links : h.Links addresses firsts v w) (links' : h.Links more firsts u w)
    {limit depth : Nat} (shallow : depth ≤ limit) : ¬ h.Overruns limit (v.depthInPair depth) v u := by
  induction links generalizing more u with
  | here =>
    cases links'
    exact fun overruns => overruns.apart rfl
  | next found _ ih =>
    obtain ⟨_, _, _, rfl, found', onward'⟩ := links'.exists_cell
    intro overruns
    cases overruns with
    | deep _ deep => exact absurd deep (Nat.not_lt.mpr shallow)
    | first _ known known' overruns =>
      cases found.symm.trans known
      cases found'.symm.trans known'
      exact overruns.apart rfl
    | rest _ known known' _ overruns =>
      cases found.symm.trans known
      cases found'.symm.trans known'
      exact ih onward' overruns
    | element _ known => cases known

theorem equal {address : Nat} (links : h.Links addresses firsts (.pair address) w)
    (links' : h.Links more firsts u w) (unfolds : h.Unfolds (.pair address) t) (limit : Nat) :
    h.equal (.pair address) u limit = .ok true := by
  have unfolds' := links.unfolds links' unfolds
  refine ((unfolds.equal_verdict unfolds').ok_iff true).mpr ⟨?_, ?_⟩
  · exact links.not_overruns links' (Nat.zero_le limit)
  · exact iff_of_true rfl (unfolds.tree?_eq unfolds')

theorem iterate {address : Nat} (links : h.Links addresses firsts (.pair address) w)
    (ends : h.cell? w = none) :
    h.iterate (.pair address) = ⟨firsts, if w = .nil then none else some .improperList⟩ := by
  rw [Heap.iterate, links.chain? ends]

theorem isProper {address : Nat} (links : h.Links addresses firsts (.pair address) w)
    (ends : h.cell? w = none) : h.isProper (.pair address) = .ok (w == .nil) := by
  rw [Heap.isProper, links.chain? ends]

end Links

theorem Acyclic.exists_links (acyclic : h.Acyclic v) :
    ∃ addresses firsts w, h.Links addresses firsts v w ∧ h.cell? w = none := by
  obtain ⟨t, unfolds⟩ := acyclic.exists_unfolds
  obtain ⟨chain, known⟩ := unfolds.chain?
  obtain ⟨addresses, links, ends⟩ := chain?_eq_some_iff.mp known
  exact ⟨addresses, chain.firsts, chain.ending, links, ends⟩

theorem Links.iterate_proper {address : Nat} (links : h.Links addresses firsts (.pair address) .nil) :
    h.iterate (.pair address) = ⟨firsts, none⟩ :=
  links.iterate rfl

theorem Links.exists_copy {address : Nat} (links : h.Links addresses firsts (.pair address) .nil)
    (unfolds : h.Unfolds (.pair address) t) : ∃ copy copies h', h.ofList firsts .nil = (.pair copy, h') ∧
      h.Grows h' copies ∧ h'.Links copies firsts (.pair copy) .nil ∧
      (∀ limit, h'.equal (.pair copy) (.pair address) limit = .ok true) ∧
      (∀ changes : List (Nat × Value), (∀ change ∈ changes, change.1 ∈ addresses) →
        (h'.setRests changes).iterate (.pair copy) = ⟨firsts, none⟩) ∧
      ∀ changes : List (Nat × Value), (∀ change ∈ changes, change.1 ∈ copies) →
        (h'.setRests changes).iterate (.pair address) = ⟨firsts, none⟩ := by
  obtain ⟨copies, grows, copied⟩ := exists_links_ofList h firsts .nil
  generalize h.ofList firsts .nil = built at grows copied
  obtain ⟨head, h'⟩ := built
  obtain ⟨copy, rfl⟩ : ∃ copy, head = .pair copy := by
    cases links with
    | next =>
      obtain ⟨copy, -, -, same, -⟩ := copied.exists_cell
      exact ⟨copy, same⟩
  have kept := grows.links links
  have apart (address : Nat) (old : address ∈ addresses) (new : address ∈ copies) : False :=
    Nat.not_lt.mpr ((grows.new address).mp new).1 (links.lt_size address old)
  refine ⟨copy, copies, h', rfl, grows, copied, ?_, fun changes among => ?_, fun changes among => ?_⟩
  · exact copied.equal kept (kept.unfolds copied (grows.unfolds unfolds))
  · refine (copied.setRests fun change member => ?_).iterate_proper
    exact apart change.1 (among change member)
  · refine (kept.setRests fun change member old => ?_).iterate_proper
    exact apart change.1 old (among change member)

theorem Whole.chain?_ofList (whole : h.Whole v) (firsts : List Value) :
    (h.ofList firsts v).2.chain? (h.ofList firsts v).1 =
      (h.chain? v).map fun own => ⟨firsts ++ own.firsts, own.ending⟩ := by
  obtain ⟨addresses, grows, links⟩ := exists_links_ofList h firsts v
  refine Option.ext fun chain => ?_
  rw [chain?_eq_some_iff, Option.map_eq_some_iff]
  constructor
  · rintro ⟨all, onward, ends⟩
    obtain ⟨more, others, -, members, rest⟩ := onward.suffix ends links
    have rest := (whole.links_iff grows).mp rest
    have single := (grows.cell?_eq (whole.of_links rest [] _ rfl)).symm.trans ends
    refine ⟨⟨others, chain.ending⟩, chain?_eq_some_iff.mpr ⟨more, rest, single⟩, ?_⟩
    rw [← members]
  · rintro ⟨own, known, rfl⟩
    obtain ⟨more, rest, ends⟩ := chain?_eq_some_iff.mp known
    have single := (grows.cell?_eq (whole.of_links rest [] _ rfl)).trans ends
    exact ⟨_, links.append (grows.links rest), single⟩

end Alike

/-- A list made from members and a tail is a new pair for each member in front of the tail itself. To
iterate over a list is to follow its chain. If the chain ends in the empty list, the copy of the list is
equal to it, and neither of the two nor a vector made from it knows of later changes to the other's rests. -/
theorem list_conversions (h : Heap) :
    (∀ firsts tail, h.Whole tail → ∃ addresses, h.Grows (h.ofList firsts tail).2 addresses ∧
      (h.ofList firsts tail).2.Links addresses firsts (h.ofList firsts tail).1 tail ∧
      (∀ own others w, h.Links own others tail w → (h.ofList firsts tail).2.Links own others tail w) ∧
      (h.ofList firsts tail).2.chain? (h.ofList firsts tail).1 =
        (h.chain? tail).map fun own => ⟨firsts ++ own.firsts, own.ending⟩) ∧
    ∀ address, h.Acyclic (.pair address) → ∃ addresses firsts ending,
      h.Links addresses firsts (.pair address) ending ∧ h.cell? ending = none ∧
      (h.iterate (.pair address)).members = firsts ∧
      ((h.iterate (.pair address)).fault = some .improperList ↔ h.isProper (.pair address) = .ok false) ∧
      ((h.iterate (.pair address)).fault = none ↔ h.isProper (.pair address) = .ok true) ∧
      (h.isProper (.pair address) = .ok true ↔ ending = .nil) ∧
      (ending = .nil → h.toList (.pair address) = .ok firsts ∧
        (∃ copy copies h', h.ofList firsts .nil = (.pair copy, h') ∧ h.Grows h' copies ∧
          h'.Links copies firsts (.pair copy) .nil ∧
          (∀ limit, h'.equal (.pair copy) (.pair address) limit = .ok true) ∧
          (∀ changes : List (Nat × Value), (∀ change ∈ changes, change.1 ∈ addresses) →
            (h'.setRests changes).iterate (.pair copy) = ⟨firsts, none⟩) ∧
          ∀ changes : List (Nat × Value), (∀ change ∈ changes, change.1 ∈ copies) →
            (h'.setRests changes).iterate (.pair address) = ⟨firsts, none⟩) ∧
        ∀ symbols, ∃ vector h', Store.listToVector (.pair address) ⟨h, symbols⟩ = .ok vector ⟨h', symbols⟩ ∧
          ∀ changes, (h'.setRests changes).elements? vector = some firsts) := by
  refine ⟨fun firsts tail whole => ?_, fun address acyclic => ?_⟩
  · obtain ⟨addresses, grows, links⟩ := exists_links_ofList h firsts tail
    exact ⟨addresses, grows, links, fun _ _ _ own => grows.links own, whole.chain?_ofList firsts⟩
  · obtain ⟨addresses, firsts, ending, links, ends⟩ := acyclic.exists_links
    have iterates := links.iterate ends
    have proper := links.isProper ends
    refine ⟨addresses, firsts, ending, links, ends, ?_, ?_, ?_, ?_, ?_⟩
    · rw [iterates]
    · rw [iterates, proper]
      by_cases nil : ending = .nil <;> simp [nil]
    · rw [iterates, proper]
      by_cases nil : ending = .nil <;> simp [nil]
    · rw [proper]
      simp
    · rintro rfl
      have list : h.toList (.pair address) = .ok firsts := by
        rw [toList, iterates]
        rfl
      refine ⟨list, ?_, fun symbols => ?_⟩
      · obtain ⟨t, unfolds⟩ := acyclic.exists_unfolds
        exact links.exists_copy unfolds
      · have members : h.vectorMembers (.pair address) = .ok firsts := by
          simpa [vectorMembers] using list
        refine ⟨_, (h.makeVector firsts).2, Store.listToVector_of_ok members, fun changes => ?_⟩
        exact (elements?_setRests _ changes _).trans (elements?_makeVector_self h firsts)

/-- A list behind two new members, and its copy after a rest of either of the two lists was set. -/
theorem list_conversions_shared :
    let h : Heap := ⟨#[⟨.string "s", .pair 1⟩, ⟨.pair 2, .nil⟩, ⟨.integer 1, .integer 2⟩], #[], 0⟩
    h.Acyclic (.pair 0) ∧ h.Acyclic (.pair 2) ∧
      (h.ofList [.null, .integer 3] (.pair 0)).2.chain? (h.ofList [.null, .integer 3] (.pair 0)).1 =
        some ⟨[.null, .integer 3, .string "s", .pair 2], .nil⟩ ∧
      (h.iterate (.pair 2)).fault = some .improperList ∧ h.isProper (.pair 2) = .ok false ∧
      h.toList (.pair 0) = .ok [.string "s", .pair 2] ∧
      ∃ copy h', h.ofList [.string "s", .pair 2] .nil = (.pair copy, h') ∧
        (∀ limit, h'.equal (.pair copy) (.pair 0) limit = .ok true) ∧
        (h'.setRests [(1, .integer 4), (0, .null)]).iterate (.pair copy) =
          ⟨[.string "s", .pair 2], none⟩ := by
  intro h
  have acyclic : h.Acyclic (.pair 0) := acyclic_iff.mpr ⟨_, rfl⟩
  have acyclic' : h.Acyclic (.pair 2) := acyclic_iff.mpr ⟨_, rfl⟩
  obtain ⟨lists, chains⟩ := list_conversions h
  obtain ⟨_, -, -, -, shares⟩ := lists [.null, .integer 3] (.pair 0) acyclic.whole
  obtain ⟨addresses, firsts, ending, links, ends, members, -, -, proper, copies⟩ := chains 0 acyclic
  obtain ⟨_, _, _, -, -, -, improper, -⟩ := chains 2 acyclic'
  cases members
  obtain ⟨list, ⟨copy, _, h', built, -, -, equal, kept, -⟩, -⟩ := copies (proper.mp rfl)
  refine ⟨acyclic, acyclic', shares, improper.mpr rfl, rfl, list, copy, h', built, equal, kept _ ?_⟩
  have last : h.Links [1] [.pair 2] (.pair 1) .nil := @Links.next h _ _ _ ⟨.pair 2, .nil⟩ _ rfl (.here _)
  have start := @Links.next h 0 _ _ ⟨.string "s", .pair 1⟩ _ rfl last
  obtain ⟨_, _, rfl, -⟩ := links.suffix ends start
  simp

end Heap

end SexprReader
