/-! Symbols and the tables that make them canonical. A symbol is the same object as another
exactly if their serial numbers agree. -/

namespace SexprReader

structure Symbol where
  serial : Nat
  name : String
deriving DecidableEq, Repr

structure TableId where
  index : Nat
deriving DecidableEq, Repr

def TableId.shared : TableId := ⟨0⟩

/-- All symbol tables, each with its symbols latest first, and the number of symbols made. -/
structure SymbolTables where
  tables : Array (List Symbol)
  made : Nat
deriving Repr

namespace SymbolTables

def initial : SymbolTables := ⟨#[[]], 0⟩

def newTable (s : SymbolTables) : TableId × SymbolTables :=
  (⟨s.tables.size⟩, { s with tables := s.tables.push [] })

def symbols (s : SymbolTables) (table : TableId) : List Symbol :=
  s.tables.getD table.index []

def find? (s : SymbolTables) (table : TableId) (name : String) : Option Symbol :=
  (s.symbols table).find? (·.name == name)

def contains (s : SymbolTables) (table : TableId) (name : String) : Bool :=
  (s.find? table name).isSome

def size (s : SymbolTables) (table : TableId) : Nat := (s.symbols table).length

/-- The symbol of a name in a table, made if the table has not seen the name before. -/
def intern (s : SymbolTables) (table : TableId) (name : String) : Symbol × SymbolTables :=
  match s.find? table name with
  | some symbol => (symbol, s)
  | none =>
    let symbol : Symbol := ⟨s.made, name⟩
    (symbol, ⟨s.tables.modify table.index (symbol :: ·), s.made + 1⟩)

def symbol (s : SymbolTables) (name : String) (table : Option TableId) : Symbol × SymbolTables :=
  s.intern (table.getD .shared) name

/-- What is left of a symbol once it was stored away and loaded again: its name, which the
shared table gives a symbol to, whichever table it came from. -/
def restore (s : SymbolTables) (symbol : Symbol) : Symbol × SymbolTables :=
  s.intern .shared symbol.name

theorem intern_of_find? {s : SymbolTables} {table : TableId} {name : String} {symbol : Symbol}
    (found : s.find? table name = some symbol) : s.intern table name = (symbol, s) := by
  simp [intern, found]

theorem find?_name {s : SymbolTables} {table : TableId} {name : String} {symbol : Symbol}
    (found : s.find? table name = some symbol) : symbol.name = name := by
  simpa using List.find?_some found

theorem intern_of_find?_none {s : SymbolTables} {table : TableId} {name : String}
    (missing : s.find? table name = none) :
    s.intern table name =
      (⟨s.made, name⟩, ⟨s.tables.modify table.index (⟨s.made, name⟩ :: ·), s.made + 1⟩) := by
  simp [intern, missing]

theorem find?_intern {s : SymbolTables} {table : TableId} (known : table.index < s.tables.size)
    (name : String) :
    (s.intern table name).2.find? table name = some (s.intern table name).1 := by
  cases found : s.find? table name with
  | some symbol => simp [intern_of_find? found, found]
  | none =>
    rw [intern_of_find?_none found]
    simp [find?, symbols, known, Array.getElem_modify]

@[simp] theorem intern_name (s : SymbolTables) (table : TableId) (name : String) :
    (s.intern table name).1.name = name := by
  cases found : s.find? table name with
  | some symbol => simp [intern_of_find? found, find?_name found]
  | none => simp [intern, found]

end SymbolTables

end SexprReader
