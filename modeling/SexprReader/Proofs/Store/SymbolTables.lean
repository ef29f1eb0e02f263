import SexprReader.Proofs.Store.Denotes

namespace SexprReader

namespace SymbolTables

variable {s : SymbolTables} {table other : TableId} {name name' : String} {symbol : Symbol}

def internAll (s : SymbolTables) (table : TableId) (names : List String) : SymbolTables :=
  names.foldl (fun s name => (s.intern table name).2) s

@[simp] theorem internAll_nil (s : SymbolTables) (table : TableId) : s.internAll table [] = s := rfl

@[simp] theorem internAll_cons (s : SymbolTables) (table : TableId) (name : String) (names : List String) :
    s.internAll table (name :: names) = (s.intern table name).2.internAll table names := rfl

theorem internAll_append (s : SymbolTables) (table : TableId) (names names' : List String) :
    s.internAll table (names ++ names') = (s.internAll table names).internAll table names' :=
  List.foldl_append

theorem find?_internAll_of_eq_some (found : s.find? other name' = some symbol) (names : List String) :
    (s.internAll table names).find? other name' = some symbol := by
  induction names generalizing s with
  | nil => exact found
  | cons name names ih => exact ih (find?_intern_of_eq_some found)

@[simp] theorem size_tables_internAll (s : SymbolTables) (table : TableId) (names : List String) :
    (s.internAll table names).tables.size = s.tables.size := by
  induction names generalizing s with
  | nil => rfl
  | cons name names ih => rw [internAll_cons, ih, size_tables_intern]

@[simp] theorem symbols_newTable (s : SymbolTables) (table : TableId) :
    s.newTable.2.symbols table = s.symbols table := by
  rcases Nat.lt_trichotomy table.index s.tables.size with inside | last | outside
  · simp [newTable, symbols, Array.getElem?_push, Nat.ne_of_lt inside]
  · simp [newTable, symbols, last]
  · simp [newTable, symbols, Array.getElem?_push, Nat.ne_of_gt outside]

@[simp] theorem find?_newTable (s : SymbolTables) (table : TableId) (name : String) :
    s.newTable.2.find? table name = s.find? table name := by
  rw [find?, symbols_newTable, find?]

/-- A name is new to one table only, and its symbol comes in front of the others there. -/
theorem symbols_intern (missing : s.find? table name = none) (other : TableId) :
    (s.intern table name).2.symbols other =
      if other = table ∧ table.index < s.tables.size then ⟨s.made, name⟩ :: s.symbols table
      else s.symbols other := by
  rw [intern_of_find?_none missing]
  by_cases same : other = table
  · subst same
    by_cases inside : other.index < s.tables.size
    · simp [symbols, Array.getElem_modify, inside]
    · simp [symbols, inside]
  · have different : table.index ≠ other.index := by
      intro index
      apply same
      cases other
      exact congrArg TableId.mk index.symm
    simp [symbols, Array.getElem?_modify, same, different]

theorem contains_iff_mem : s.contains table name ↔ name ∈ (s.symbols table).map Symbol.name := by
  simp [contains, find?]

theorem contains_iff_ne_none : s.contains table name ↔ s.find? table name ≠ none :=
  Option.isSome_iff_ne_none

theorem contains_intern (known : table.index < s.tables.size) (name : String) :
    (s.intern table name).2.contains other name' ↔
      s.contains other name' ∨ (other = table ∧ name' = name) := by
  cases found : s.find? table name with
  | some symbol =>
    have there : s.contains table name := by
      rw [contains, found]
      rfl
    rw [intern_of_find? found]
    constructor
    · exact .inl
    · rintro (before | ⟨rfl, rfl⟩)
      · exact before
      · exact there
  | none =>
    rw [contains_iff_mem, contains_iff_mem, symbols_intern found]
    by_cases same : other = table
    · subst same
      simp [known, or_comm]
    · simp [same]

theorem contains_internAll (known : table.index < s.tables.size) (names : List String) :
    (s.internAll table names).contains other name' ↔
      s.contains other name' ∨ (other = table ∧ name' ∈ names) := by
  induction names generalizing s with
  | nil => simp
  | cons name names ih =>
    have known' : table.index < (s.intern table name).2.tables.size := by rwa [size_tables_intern]
    rw [internAll_cons, ih known', contains_intern known, List.mem_cons, or_assoc, ← and_or_left]

/-- The symbols of all tables together, each known by its serial number, and in one table by its name. -/
structure Canonical (s : SymbolTables) : Prop where
  made : ∀ table, ∀ symbol ∈ s.symbols table, symbol.serial < s.made
  names : ∀ table, ((s.symbols table).map Symbol.name).Nodup
  apart : ∀ table other, ∀ symbol ∈ s.symbols table, ∀ symbol' ∈ s.symbols other,
    symbol.serial = symbol'.serial → table = other ∧ symbol = symbol'

theorem canonical_initial : initial.Canonical := by
  have empty (table : TableId) : initial.symbols table = [] := by
    rcases table with ⟨index⟩
    cases index <;> rfl
  constructor
  · intro table symbol member
    rw [empty] at member
    cases member
  · intro table
    rw [empty]
    exact List.nodup_nil
  · intro table other symbol member
    rw [empty] at member
    cases member

theorem mem_of_find? (found : s.find? table name = some symbol) : symbol ∈ s.symbols table :=
  List.mem_of_find?_eq_some found

namespace Canonical

theorem newTable (canonical : s.Canonical) : s.newTable.2.Canonical := by
  constructor
  · intro table symbol member
    rw [symbols_newTable] at member
    exact canonical.made table symbol member
  · intro table
    rw [symbols_newTable]
    exact canonical.names table
  · intro table other symbol member symbol' member'
    rw [symbols_newTable] at member member'
    exact canonical.apart table other symbol member symbol' member'

/-- A new symbol has a serial number that no other has, and a name that its table has not. -/
theorem intern (canonical : s.Canonical) (table : TableId) (name : String) :
    (s.intern table name).2.Canonical := by
  cases known : s.find? table name with
  | some _ => rwa [intern_of_find? known]
  | none =>
    have increased : (s.intern table name).2.made = s.made + 1 := by rw [intern_of_find?_none known]
    -- A symbol of the new tables is an old one or the one that was made.
    have members {other : TableId} {symbol : Symbol}
        (member : symbol ∈ (s.intern table name).2.symbols other) :
        symbol ∈ s.symbols other ∨ (other = table ∧ symbol = ⟨s.made, name⟩) := by
      rw [symbols_intern known] at member
      split at member
      next there =>
        rw [there.1]
        exact (List.mem_cons.mp member).symm.imp_right (⟨rfl, ·⟩)
      next => exact .inl member
    constructor
    · intro other symbol member
      rw [increased]
      rcases members member with old | ⟨-, rfl⟩
      · exact Nat.lt_succ_of_lt (canonical.made other symbol old)
      · exact Nat.lt_succ_self _
    · intro other
      rw [symbols_intern known]
      split
      · have fresh : ¬ s.contains table name := by simp [contains, known]
        rw [contains_iff_mem] at fresh
        exact List.nodup_cons.mpr ⟨fresh, canonical.names table⟩
      · exact canonical.names other
    · intro first second symbol member symbol' member' serial
      rcases members member with old | ⟨rfl, rfl⟩
      · rcases members member' with old' | ⟨rfl, rfl⟩
        · exact canonical.apart first second symbol old symbol' old' serial
        · exact absurd serial (Nat.ne_of_lt (canonical.made first symbol old))
      · rcases members member' with old' | ⟨rfl, rfl⟩
        · exact absurd serial.symm (Nat.ne_of_lt (canonical.made second symbol' old'))
        · exact ⟨rfl, rfl⟩

theorem internAll (canonical : s.Canonical) (table : TableId) (names : List String) :
    (s.internAll table names).Canonical := by
  induction names generalizing s with
  | nil => exact canonical
  | cons name names ih => exact ih (canonical.intern table name)

/-- Symbols that are found are the same exactly where they are found under one name in one table. -/
theorem serial_eq_iff (canonical : s.Canonical) {symbol' : Symbol}
    (found : s.find? table name = some symbol) (found' : s.find? other name' = some symbol') :
    symbol.serial = symbol'.serial ↔ table = other ∧ name = name' := by
  constructor
  · intro serial
    obtain ⟨rfl, rfl⟩ :=
      canonical.apart table other symbol (mem_of_find? found) symbol' (mem_of_find? found') serial
    exact ⟨rfl, (find?_name found).symm.trans (find?_name found')⟩
  · rintro ⟨rfl, rfl⟩
    rw [found] at found'
    cases found'
    rfl

theorem exists_names (canonical : s.Canonical) (table : TableId) :
    ∃ names : List String, names.Nodup ∧ (∀ name, name ∈ names ↔ s.contains table name) ∧
      s.size table = names.length :=
  ⟨(s.symbols table).map Symbol.name, canonical.names table, fun _ => contains_iff_mem.symm,
    (List.length_map _).symm⟩

end Canonical

end SymbolTables

end SexprReader
