import SexprReader.Proofs.Store.Unfolds
import SexprReader.Store

/-! Which values of a store stand for which data. A value read from a text is made of pairs that were
all made during the read, so that the addresses of its pairs lie between two sizes of the heap. -/

namespace SexprReader

namespace SymbolTables

variable {s : SymbolTables} {table other : TableId} {name name' : String} {symbol : Symbol}

theorem find?_learn {made : Nat} (missing : s.find? table name = none)
    (found : s.find? other name' = some symbol) :
    (⟨s.tables.modify table.index (⟨made, name⟩ :: ·), s.made + 1⟩ : SymbolTables).find? other name' =
      some symbol := by
  by_cases same : table.index = other.index
  · have different : name ≠ name' := by
      rintro rfl
      have conflict : s.find? other name = none := by rwa [find?, symbols, ← same]
      rw [conflict] at found
      cases found
    by_cases inside : other.index < s.tables.size
    · simpa [find?, symbols, Array.getElem_modify, same, inside, different] using found
    · simp [find?, symbols, inside] at found
  · simpa [find?, symbols, Array.getElem?_modify, same] using found

theorem find?_intern_of_eq_some (found : s.find? other name' = some symbol) :
    (s.intern table name).2.find? other name' = some symbol := by
  cases known : s.find? table name with
  | some _ => rwa [intern_of_find? known]
  | none =>
    rw [intern_of_find?_none known]
    exact find?_learn known found

@[simp] theorem size_tables_intern (s : SymbolTables) (table : TableId) (name : String) :
    (s.intern table name).2.tables.size = s.tables.size := by
  cases known : s.find? table name with
  | some _ => rw [intern_of_find? known]
  | none => simp [intern_of_find?_none known]

end SymbolTables

namespace Store

/-- What is between two addresses is the same in both stores, and nothing else got lost but the
contents of pairs. -/
structure Agrees (lo hi : Nat) (before after : Store) : Prop where
  cells : ∀ address : Nat, lo ≤ address → address < hi →
    after.heap.pairs[address]? = before.heap.pairs[address]?
  size : before.heap.pairs.size ≤ after.heap.pairs.size
  vectors : ∀ (address : Nat) (elements : List Value), before.heap.vectors[address]? = some elements →
    after.heap.vectors[address]? = some elements
  symbols : ∀ (table : TableId) (name : String) (symbol : Symbol),
    before.symbols.find? table name = some symbol →
      after.symbols.find? table name = some symbol
  tables : after.symbols.tables.size = before.symbols.tables.size

namespace Agrees

variable {lo hi lo' hi' : Nat} {store store' store'' : Store}

theorem refl (lo hi : Nat) (store : Store) : Agrees lo hi store store :=
  ⟨fun _ _ _ => rfl, Nat.le_refl _, fun _ _ found => found, fun _ _ _ found => found, rfl⟩

theorem trans (first : Agrees lo hi store store') (second : Agrees lo hi store' store'') :
    Agrees lo hi store store'' where
  cells address above below :=
    (second.cells address above below).trans (first.cells address above below)
  size := Nat.le_trans first.size second.size
  vectors address elements found := second.vectors _ _ (first.vectors address elements found)
  symbols table name symbol found := second.symbols _ _ _ (first.symbols table name symbol found)
  tables := second.tables.trans first.tables

theorem narrow (agrees : Agrees lo hi store store') (above : lo ≤ lo') (below : hi' ≤ hi) :
    Agrees lo' hi' store store' where
  cells address above' below' := agrees.cells address (by omega) (by omega)
  size := agrees.size
  vectors := agrees.vectors
  symbols := agrees.symbols
  tables := agrees.tables

theorem apart_from_pairs (agrees : Agrees lo hi store store') : Agrees 0 0 store store' where
  cells _ _ below := absurd below (Nat.not_lt_zero _)
  size := agrees.size
  vectors := agrees.vectors
  symbols := agrees.symbols
  tables := agrees.tables

theorem known {table : TableId} (agrees : Agrees lo hi store store')
    (known : table.index < store.symbols.tables.size) : table.index < store'.symbols.tables.size := by
  rw [agrees.tables]
  exact known

end Agrees

def pushPair (store : Store) (first rest : Value) : Store :=
  { store with heap := (store.heap.cons first rest).2 }

def changeRest (store : Store) (address : Nat) (value : Value) : Store :=
  { store with heap := store.heap.setRest address value }

def pushVector (store : Store) (elements : List Value) : Store :=
  { store with heap := (store.heap.makeVector elements).2 }

def pushCharacter (store : Store) (codePoint : Int) : Store :=
  { store with heap := (store.heap.makeCharacter codePoint).2 }

def learn (store : Store) (table : TableId) (name : String) : Store :=
  { store with symbols := (store.symbols.intern table name).2 }

section

variable (store : Store)

@[simp] theorem size_pushPair (first rest : Value) :
    (store.pushPair first rest).heap.pairs.size = store.heap.pairs.size + 1 := by
  simp [pushPair, Heap.cons]

theorem pushPair_self (first rest : Value) :
    (store.pushPair first rest).heap.pairs[store.heap.pairs.size]? = some ⟨first, rest⟩ := by
  simp [pushPair, Heap.cons]

theorem agrees_pushPair (lo : Nat) (first rest : Value) :
    Agrees lo store.heap.pairs.size store (store.pushPair first rest) where
  cells address _ below := by
    simp [pushPair, Heap.cons, Array.getElem?_push, Nat.ne_of_lt below]
  size := by simp
  vectors _ _ found := found
  symbols _ _ _ found := found
  tables := rfl

@[simp] theorem size_changeRest (address : Nat) (value : Value) :
    (store.changeRest address value).heap.pairs.size = store.heap.pairs.size := by
  simp [changeRest, Heap.setRest]

theorem agrees_changeRest {lo hi address : Nat} (value : Value) (outside : address < lo ∨ hi ≤ address) :
    Agrees lo hi store (store.changeRest address value) where
  cells other above below := by
    have different : address ≠ other := by omega
    simp [changeRest, Heap.setRest, Array.getElem?_modify, different]
  size := by simp
  vectors _ _ found := found
  symbols _ _ _ found := found
  tables := rfl

theorem changeRest_self {address : Nat} {cell : Cell}
    (found : store.heap.pairs[address]? = some cell) (value : Value) :
    (store.changeRest address value).heap.pairs[address]? = some ⟨cell.first, value⟩ := by
  simp [changeRest, Heap.setRest, Array.getElem?_modify, found]

theorem agrees_pushVector (lo hi : Nat) (elements : List Value) :
    Agrees lo hi store (store.pushVector elements) where
  cells _ _ _ := rfl
  size := Nat.le_refl _
  vectors address others found := by
    have inside := (Array.getElem?_eq_some_iff.mp found).1
    simpa [pushVector, Heap.makeVector, Array.getElem?_push, Nat.ne_of_lt inside] using found
  symbols _ _ _ found := found
  tables := rfl

theorem agrees_pushCharacter (lo hi : Nat) (codePoint : Int) :
    Agrees lo hi store (store.pushCharacter codePoint) where
  cells _ _ _ := rfl
  size := Nat.le_refl _
  vectors _ _ found := found
  symbols _ _ _ found := found
  tables := rfl

theorem agrees_learn (lo hi : Nat) (table : TableId) (name : String) :
    Agrees lo hi store (store.learn table name) where
  cells _ _ _ := rfl
  size := Nat.le_refl _
  vectors _ _ found := found
  symbols _ _ _ found := SymbolTables.find?_intern_of_eq_some found
  tables := SymbolTables.size_tables_intern _ _ _

end

end Store

open Store

theorem Heap.Unfolds.agrees {store store' : Store} {v : Value} {t : Tree Symbol}
    (unfolds : store.heap.Unfolds v t) (agrees : Agrees 0 store.heap.pairs.size store store') :
    store'.heap.Unfolds v t := by
  induction unfolds with
  | sentinel s => exact .sentinel s
  | null => exact .null
  | symbol s => exact .symbol s
  | string s => exact .string s
  | integer n => exact .integer n
  | character c => exact .character c
  | @pair address cell first rest found _ _ firsts rests =>
    have inside := (Array.getElem?_eq_some_iff.mp found).1
    exact .pair ((agrees.cells address (Nat.zero_le _) inside).trans found) firsts rests
  | vector found length _ each => exact .vector (agrees.vectors _ _ found) length each

/-- A value stands for a datum in a store, with symbols of one table, and the addresses of its pairs
are between `lo` and `hi`. -/
inductive Denotes (table : TableId) (store : Store) (lo hi : Nat) : Value → Datum → Prop
  | sentinel (s : Sentinel) : Denotes table store lo hi (.sentinel s) (.sentinel s)
  | symbol {name : String} {s : Symbol} (found : store.symbols.find? table name = some s) :
      Denotes table store lo hi (.symbol s) (.symbol name)
  | string (s : String) : Denotes table store lo hi (.string s) (.string s)
  | integer (n : Int) : Denotes table store lo hi (.integer n) (.integer n)
  | character (c : Character) : Denotes table store lo hi (.character c) (.character c.codePoint)
  | pair {address : Nat} {first rest : Value} {d e : Datum}
      (cell : store.heap.pairs[address]? = some ⟨first, rest⟩) (above : lo ≤ address)
      (below : address < hi) (firsts : Denotes table store lo hi first d)
      (rests : Denotes table store lo hi rest e) :
      Denotes table store lo hi (.pair address) (.pair d e)
  | vector {address : Nat} {values : List Value} {ds : List Datum}
      (elements : store.heap.vectors[address]? = some values) (length : values.length = ds.length)
      (each : ∀ (i : Nat) (v : Value) (d : Datum), values[i]? = some v → ds[i]? = some d →
        Denotes table store lo hi v d) :
      Denotes table store lo hi (.vector address) (.vector ds)

namespace Denotes

variable {table : TableId} {store store' : Store} {lo hi lo' hi' : Nat} {v : Value} {d : Datum}

theorem agrees (denotes : Denotes table store lo hi v d) (agrees : Agrees lo hi store store') :
    Denotes table store' lo hi v d := by
  induction denotes with
  | sentinel s => exact .sentinel s
  | symbol found => exact .symbol (agrees.symbols _ _ _ found)
  | string s => exact .string s
  | integer n => exact .integer n
  | character c => exact .character c
  | pair cell above below _ _ first rest =>
    exact .pair ((agrees.cells _ above below).trans cell) above below first rest
  | vector elements length _ each => exact .vector (agrees.vectors _ _ elements) length each

theorem widen (denotes : Denotes table store lo hi v d) (above : lo' ≤ lo) (below : hi ≤ hi') :
    Denotes table store lo' hi' v d := by
  induction denotes with
  | sentinel s => exact .sentinel s
  | symbol found => exact .symbol found
  | string s => exact .string s
  | integer n => exact .integer n
  | character c => exact .character c
  | pair cell above' below' _ _ first rest =>
    exact .pair cell (by omega) (by omega) first rest
  | vector elements length _ each => exact .vector elements length each

theorem symbol_anywhere {name : String} (denotes : Denotes table store lo hi v (.symbol name))
    (lo' hi' : Nat) : Denotes table store lo' hi' v (.symbol name) := by
  cases denotes with
  | symbol found => exact .symbol found

theorem beq_symbol {w : Value} {name : String} (denotes : Denotes table store lo hi v d)
    (symbol : Denotes table store lo' hi' w (.symbol name)) :
    (v == w) = true ↔ d = .symbol name := by
  cases symbol with
  | symbol found =>
    rw [beq_iff_eq]
    constructor
    · rintro rfl
      cases denotes with
      | symbol found' =>
        rw [← SymbolTables.find?_name found, ← SymbolTables.find?_name found']
    · rintro rfl
      cases denotes with
      | symbol found' =>
        rw [found] at found'
        cases found'
        rfl

end Denotes

def Store.resolve (store : Store) (table : TableId) (name : String) : Symbol :=
  (store.symbols.find? table name).getD ⟨0, name⟩

theorem Store.name_resolve (store : Store) (table : TableId) (name : String) :
    (store.resolve table name).name = name := by
  unfold resolve
  cases found : store.symbols.find? table name with
  | none => rfl
  | some symbol => exact SymbolTables.find?_name found

theorem Store.datum_resolve (store : Store) (table : TableId) (d : Datum) :
    (d.map (store.resolve table)).datum = d := by
  rw [Tree.datum, Tree.map_map]
  exact Tree.map_eq_self fun name _ => store.name_resolve table name

namespace Denotes

variable {table : TableId} {store : Store} {lo hi : Nat} {v : Value} {d : Datum}

theorem unfolds (denotes : Denotes table store lo hi v d) :
    store.heap.Unfolds v (d.map (store.resolve table)) := by
  induction denotes with
  | sentinel s => exact .sentinel s
  | @symbol name s found =>
    have resolved : store.resolve table name = s := by simp [resolve, found]
    rw [Tree.map, resolved]
    exact .symbol s
  | string s => exact .string s
  | integer n => exact .integer n
  | character c => exact .character c
  | pair cell _ _ _ _ first rest => exact .pair cell first rest
  | @vector address values ds elements length _ each =>
    rw [Tree.map, Tree.mapAll_eq_map]
    refine .vector elements (by simpa using length) fun i v t left right => ?_
    rw [List.getElem?_map, Option.map_eq_some_iff] at right
    obtain ⟨d, right, rfl⟩ := right
    exact each i v d left right

theorem tree? (denotes : Denotes table store lo hi v d) :
    store.heap.tree? v = some (d.map (store.resolve table)) :=
  Heap.tree?_eq_some_iff.mpr denotes.unfolds

end Denotes

abbrev DenotesAll (table : TableId) (store : Store) (lo hi : Nat) (values : List Value)
    (ds : List Datum) : Prop :=
  List.Forall₂ (Denotes table store lo hi) values ds

theorem Denotes.vector_of_all {table : TableId} {store : Store} {lo hi address : Nat}
    {values : List Value} {ds : List Datum}
    (elements : store.heap.vectors[address]? = some values)
    (all : DenotesAll table store lo hi values ds) :
    Denotes table store lo hi (.vector address) (.vector ds) :=
  .vector elements all.length_eq (Heap.getElem?_of_forall₂ all)

namespace DenotesAll

variable {table : TableId} {store store' : Store} {lo hi : Nat} {values : List Value} {ds : List Datum}

theorem agrees (all : DenotesAll table store lo hi values ds) (agrees : Agrees lo hi store store') :
    DenotesAll table store' lo hi values ds :=
  all.imp fun _ _ denotes => denotes.agrees agrees

theorem map_tree? (all : DenotesAll table store lo hi values ds) :
    values.map store.heap.tree? = ds.map fun d => some (d.map (store.resolve table)) := by
  induction all with
  | nil => rfl
  | cons denotes _ ih => rw [List.map_cons, List.map_cons, ih, denotes.tree?]

theorem isSome_tree? (all : DenotesAll table store lo hi values ds) (v : Value)
    (member : v ∈ values) : (store.heap.tree? v).isSome := by
  have known : store.heap.tree? v ∈ values.map store.heap.tree? := List.mem_map_of_mem member
  rw [all.map_tree?] at known
  obtain ⟨d, -, same⟩ := List.mem_map.mp known
  rw [← same]
  rfl

theorem ofList {tail : Value} {d : Datum} (all : DenotesAll table store lo hi values ds)
    (tails : Denotes table store lo hi tail d) (inside : hi ≤ store.heap.pairs.size) :
    let built := store.heap.ofList values tail
    let store' : Store := { store with heap := built.2 }
    Denotes table store' 0 built.2.pairs.size built.1 (.ofList ds d) ∧
      Agrees 0 store.heap.pairs.size store store' := by
  simp only [Heap.ofList, List.foldl_reverse]
  induction all with
  | nil => exact ⟨tails.widen (Nat.zero_le _) inside, .refl _ _ _⟩
  | @cons v _ values _ denotes _ ih =>
    rw [List.foldr_cons]
    generalize values.foldr (fun member built => built.2.cons member built.1) (tail, store.heap) =
      built at ih ⊢
    obtain ⟨rests, agrees⟩ := ih
    let inner : Store := { store with heap := built.2 }
    have further := inner.agrees_pushPair 0 v built.1
    have whole := agrees.trans (further.narrow (Nat.le_refl _) agrees.size)
    have size : (inner.pushPair v built.1).heap.pairs.size = inner.heap.pairs.size + 1 :=
      inner.size_pushPair v built.1
    refine ⟨.pair (inner.pushPair_self v built.1) (Nat.zero_le _) ?_ ?_ ?_, whole⟩
    · exact size ▸ Nat.lt_succ_self _
    · exact (denotes.agrees (whole.narrow (Nat.zero_le _) inside)).widen (Nat.zero_le _)
        (Nat.le_trans inside whole.size)
    · exact (rests.agrees further).widen (Nat.le_refl _) further.size

theorem tree?_ofList {tail : Value} {d : Datum} (all : DenotesAll table store lo hi values ds)
    (tails : Denotes table store lo hi tail d) (inside : hi ≤ store.heap.pairs.size) :
    (store.heap.ofList values tail).2.tree? (store.heap.ofList values tail).1 =
      some ((Tree.ofList ds d).map (store.resolve table)) :=
  (all.ofList tails inside).1.tree?

theorem tree?_makeVector (all : DenotesAll table store lo hi values ds) :
    (store.heap.makeVector values).2.tree? (store.heap.makeVector values).1 =
      some ((Tree.vector ds).map (store.resolve table)) := by
  have elements : (store.pushVector values).heap.vectors[store.heap.vectors.size]? = some values := by
    simp [pushVector, Heap.makeVector]
  have vector := Denotes.vector_of_all elements (all.agrees (store.agrees_pushVector lo hi values))
  exact vector.tree?

end DenotesAll

/-- A chain of pairs whose last rest, `ending`, can still be changed. Nothing that belongs to its
members has an address as high as that of the last pair. -/
inductive Linked (table : TableId) (store : Store) (lo : Nat) (ending : Value) (last : Nat) :
    Nat → List Datum → Prop
  | single {v : Value} {d : Datum} (cell : store.heap.pairs[last]? = some ⟨v, ending⟩)
      (above : lo ≤ last) (first : Denotes table store lo last v d) :
      Linked table store lo ending last last [d]
  | link {head next : Nat} {v : Value} {d : Datum} {ds : List Datum}
      (cell : store.heap.pairs[head]? = some ⟨v, .pair next⟩) (above : lo ≤ head)
      (order : head < next) (first : Denotes table store lo last v d)
      (others : Linked table store lo ending last next ds) :
      Linked table store lo ending last head (d :: ds)

namespace Linked

variable {table : TableId} {store store' : Store} {lo hi head last : Nat} {ending v : Value}
  {d tail : Datum} {ds : List Datum}

theorem le_last (linked : Linked table store lo ending last head ds) : head ≤ last := by
  induction linked with
  | single => exact Nat.le_refl _
  | link _ _ order _ _ ih => omega

theorem above (linked : Linked table store lo ending last head ds) : lo ≤ last := by
  induction linked with
  | single _ above _ => exact above
  | link _ _ _ _ _ ih => exact ih

theorem last_lt (linked : Linked table store lo ending last head ds) :
    last < store.heap.pairs.size := by
  induction linked with
  | single cell _ _ => exact (Array.getElem?_eq_some_iff.mp cell).1
  | link _ _ _ _ _ ih => exact ih

theorem ne_nil (linked : Linked table store lo ending last head ds) : ds ≠ [] := by
  cases linked <;> simp

theorem agrees (linked : Linked table store lo ending last head ds)
    (agrees : Agrees lo (last + 1) store store') :
    Linked table store' lo ending last head ds := by
  have below : Agrees lo last store store' := agrees.narrow (Nat.le_refl _) (by omega)
  induction linked with
  | single cell above first =>
    exact .single ((agrees.cells _ above (by omega)).trans cell) above (first.agrees below)
  | link cell above order first others ih =>
    have order' := others.le_last
    exact .link ((agrees.cells _ above (by omega)).trans cell) above order (first.agrees below) ih

theorem changeRest (linked : Linked table store lo ending last head ds) (value : Value) :
    Linked table (store.changeRest last value) lo value last head ds := by
  have below : Agrees lo last store (store.changeRest last value) :=
    store.agrees_changeRest value (.inr (Nat.le_refl _))
  induction linked with
  | single cell above first =>
    exact .single (store.changeRest_self cell value) above (first.agrees below)
  | link cell above order first others ih =>
    have order' := others.le_last
    exact .link ((below.cells _ above (by omega)).trans cell) above order (first.agrees below) ih

theorem snoc {next : Nat} (linked : Linked table store lo (.pair next) last head ds)
    (order : last < next) (cell : store.heap.pairs[next]? = some ⟨v, ending⟩)
    (first : Denotes table store lo next v d) :
    Linked table store lo ending next head (ds ++ [d]) := by
  induction linked with
  | single cell' above first' =>
    exact .link cell' above order (first'.widen (Nat.le_refl _) (by omega))
      (.single cell (by omega) first)
  | link cell' above order' first' _ ih =>
    exact .link cell' above order' (first'.widen (Nat.le_refl _) (by omega)) ih

theorem denotes (linked : Linked table store lo ending last head ds)
    (ends : Denotes table store lo hi ending tail) (below : last < hi) :
    Denotes table store lo hi (.pair head) (.ofList ds tail) := by
  induction linked with
  | single cell above first =>
    exact .pair cell above below (first.widen (Nat.le_refl _) (by omega)) ends
  | link cell above order first others ih =>
    have order' := others.le_last
    exact .pair cell above (by omega) (first.widen (Nat.le_refl _) (by omega)) ih

theorem chainWithin (linked : Linked table store lo .nil last head ds) (bound : Nat)
    (enough : last - head < bound) (seen : List Value) :
    ∃ values, store.heap.chainWithin bound seen (.pair head) = some ⟨seen.reverse ++ values, .nil⟩ ∧
      DenotesAll table store lo last values ds := by
  induction linked generalizing bound seen with
  | @single v d cell above first =>
    refine ⟨[v], ?_, .cons first .nil⟩
    obtain ⟨bound, rfl⟩ : ∃ less, bound = less + 1 := ⟨bound - 1, by omega⟩
    unfold Heap.chainWithin
    simp only [Heap.cell?, cell]
    unfold Heap.chainWithin
    simp [Heap.cell?]
  | @link head next v d ds cell above order first others ih =>
    have order' := others.le_last
    obtain ⟨bound, rfl⟩ : ∃ less, bound = less + 1 := ⟨bound - 1, by omega⟩
    obtain ⟨values, follows, all⟩ := ih bound (by omega) (v :: seen)
    refine ⟨v :: values, ?_, .cons first all⟩
    unfold Heap.chainWithin
    simp only [Heap.cell?, cell]
    simpa using follows

theorem vectorMembers (linked : Linked table store lo .nil last head ds) :
    ∃ values, store.heap.vectorMembers (.pair head) = .ok values ∧
      DenotesAll table store lo last values ds := by
  have inside := linked.last_lt
  obtain ⟨values, chain, all⟩ := linked.chainWithin store.heap.pairs.size (by omega) []
  refine ⟨values, ?_, all⟩
  simp only [Heap.vectorMembers, Heap.toList, Heap.iterate, Heap.chain?, chain]
  simp

end Linked

end SexprReader
