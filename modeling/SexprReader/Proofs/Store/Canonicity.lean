import Mathlib.Data.List.Induction
import SexprReader.Proofs.Store.Interning

namespace SexprReader

open Store

inductive Extent where
  | nextForm
  | allForms
deriving DecidableEq, Repr

def Extent.start {σ V : Type} (s : ReadState σ) : Extent → Position σ V
  | nextForm => .single s
  | allForms => .start s

/-- Reads the next form of a source over a store, with the host that a convention describes. -/
def Convention.readOne (conv : Convention) (table : TableId) (store : Store) (source : Source) :
    EStateM.Result Failure (ReadState Store) Value :=
  let host := Store.host ⟨table, conv.interpretEscapes, .all, true, .raise⟩
  match host.withNilAlias conv.nilAlias store with
  | .ok host ready => SexprReader.readOne host ⟨conv.bracketLists, none⟩ .source ⟨ready, source, #[]⟩
  | .error failure store => .error failure ⟨store, source, #[]⟩

/-- The forms that a read hands out, and the store behind it. -/
def Convention.read (conv : Convention) (table : TableId) (store : Store) (source : Source) :
    Extent → List Value × Store
  | .nextForm =>
    match conv.readOne table store source with
    | .ok form s => ([form], s.host)
    | .error _ s => ([], s.host)
  | .allForms => ((conv.reading table store source).forms, (conv.reading table store source).final.host)

inductive TableStep where
  | newTable
  | intern (table : TableId) (name : String)
  /-- Asks for a symbol in the shared table, unless another table is given. -/
  | symbol (name : String) (table : Option TableId)
  | find (table : TableId) (name : String)
  | contains (table : TableId) (name : String)
  | size (table : TableId)
  | restore (symbol : Symbol)
  | read (extent : Extent) (table : TableId) (conv : Convention) (source : Source)

namespace TableStep

def table? : TableStep → Option TableId
  | newTable | restore _ => none
  | symbol _ table => table
  | intern table _ | find table _ | contains table _ | size table | read _ table _ _ => some table

def after (store : Store) : TableStep → Store
  | newTable => { store with symbols := store.symbols.newTable.2 }
  | intern table name => { store with symbols := (store.symbols.intern table name).2 }
  | symbol name table => { store with symbols := (store.symbols.symbol name table).2 }
  | find _ _ | contains _ _ | size _ => store
  | restore stored => { store with symbols := (store.symbols.restore stored).2 }
  | read extent table conv source => (conv.read table store source extent).2

inductive Gives (store : Store) : TableStep → TableId → Symbol → Prop
  | intern (table : TableId) (name : String) :
      Gives store (.intern table name) table (store.symbols.intern table name).1
  | symbol (name : String) (table : Option TableId) :
      Gives store (.symbol name table) (table.getD .shared) (store.symbols.symbol name table).1
  | find {table : TableId} {name : String} {symbol : Symbol}
      (found : store.symbols.find? table name = some symbol) : Gives store (.find table name) table symbol
  | restore (symbol : Symbol) : Gives store (.restore symbol) .shared (store.symbols.restore symbol).1
  | read {extent : Extent} {table : TableId} {conv : Convention} {source : Source} {form : Value}
      {path : List Heap.Toward} {symbol : Symbol}
      (member : form ∈ (conv.read table store source extent).1)
      (leads : (conv.read table store source extent).2.heap.follow form path = some (.symbol symbol)) :
      Gives store (.read extent table conv source) table symbol

/-- The step looks a name up in a table, to make a symbol if it is not there. A read does so for the reader's
own names, for the one that stands for the empty list, and for the bare tokens that it takes on its way,
whether they become part of a form or not. -/
inductive Interns (store : Store) : TableStep → TableId → String → Prop
  | intern (table : TableId) (name : String) : Interns store (.intern table name) table name
  | symbol (name : String) (table : Option TableId) :
      Interns store (.symbol name table) (table.getD .shared) name
  | restore (symbol : Symbol) : Interns store (.restore symbol) .shared symbol.name
  | readOwn {extent : Extent} {table : TableId} {conv : Convention} {source : Source} {name : String}
      (own : name ∈ Context.ownNames) : Interns store (.read extent table conv source) table name
  | readAlias {extent : Extent} {table : TableId} {conv : Convention} {source : Source} {name : String}
      (aliased : conv.nilAlias = some name) : Interns store (.read extent table conv source) table name
  | readToken {extent : Extent} {table : TableId} {conv : Convention} {source : Source} {name : String}
      {ctx : Context Store Value} {opened : Store} {p : Position Store Value}
      (opens : conv.context table store = .ok ctx opened)
      (passes : ctx.Passes (extent.start ⟨opened, source, #[]⟩) p) (takes : p.TakesName ctx.dialect name) :
      Interns store (.read extent table conv source) table name

def run (steps : List TableStep) : Store := steps.foldl after .initial

def Somewhere (P : Store → TableStep → Prop) (steps : List TableStep) : Prop :=
  ∃ earlier step later, steps = earlier ++ step :: later ∧ P (run earlier) step

def Obtained (steps : List TableStep) (table : TableId) (symbol : Symbol) : Prop :=
  Somewhere (fun store step => step.Gives store table symbol) steps

def Interned (steps : List TableStep) (table : TableId) (name : String) : Prop :=
  Somewhere (fun store step => step.Interns store table name) steps

def ValidFrom : Store → List TableStep → Prop
  | _, [] => True
  | store, step :: steps =>
    (∀ table ∈ step.table?, table.index < store.symbols.tables.size) ∧ ValidFrom (step.after store) steps

def Valid (steps : List TableStep) : Prop := ValidFrom .initial steps

theorem run_concat (steps : List TableStep) (step : TableStep) :
    run (steps ++ [step]) = step.after (run steps) := List.foldl_concat ..

theorem somewhere_concat {P : Store → TableStep → Prop} {steps : List TableStep} {step : TableStep} :
    Somewhere P (steps ++ [step]) ↔ Somewhere P steps ∨ P (run steps) step := by
  constructor
  · rintro ⟨earlier, found, later, split, holds⟩
    rcases List.eq_nil_or_concat' later with rfl | ⟨later, last, rfl⟩
    · obtain ⟨rfl, same⟩ := List.append_inj' split rfl
      cases same
      exact .inr holds
    · rw [← List.cons_append, ← List.append_assoc] at split
      obtain ⟨rfl, -⟩ := List.append_inj' split rfl
      exact .inl ⟨earlier, found, later, rfl, holds⟩
  · rintro (⟨earlier, found, later, rfl, holds⟩ | holds)
    · refine ⟨earlier, found, later ++ [step], ?_, holds⟩
      rw [List.append_assoc, List.cons_append]
    · exact ⟨steps, step, [], rfl, holds⟩

theorem validFrom_concat {store : Store} {steps : List TableStep} {step : TableStep} :
    ValidFrom store (steps ++ [step]) ↔ ValidFrom store steps ∧
      ∀ table ∈ step.table?, table.index < (steps.foldl after store).symbols.tables.size := by
  induction steps generalizing store with
  | nil => simp [ValidFrom]
  | cons first steps ih => simp only [List.cons_append, ValidFrom, ih, and_assoc, List.foldl_cons]

end TableStep

namespace Convention

variable {conv : Convention} {table : TableId} {store opened : Store} {ctx : Context Store Value}

theorem readOne_of_context (opens : conv.context table store = .ok ctx opened) (source : Source) :
    conv.readOne table store source = ctx.readForm none ⟨opened, source, #[]⟩ := by
  obtain ⟨host, ready, hosts, creates⟩ := HostM.exists_of_bind_ok opens
  simp only [readOne, hosts]
  exact readOne_of_create creates

/-- A read goes its way from where the reader stands, and hands out forms with symbols of its table. -/
theorem read_of_context (opens : conv.context table store = .ok ctx opened)
    (serves : Serves ctx conv table opened) (extent : Extent) (source : Source) :
    (conv.read table store source extent).2 =
        (ctx.readOn none (extent.start ⟨opened, source, #[]⟩)).final.host ∧
      ∀ form ∈ (conv.read table store source extent).1,
        (conv.read table store source extent).2.Knows table form := by
  cases extent with
  | allForms =>
    unfold read
    rw [reading_of_context opens]
    constructor
    · rw [Context.readForms_eq_readOn]
      rfl
    · exact serves.knows_of_readFormsWithin source.remaining nofun
  | nextForm =>
    unfold read Extent.start
    rw [readOne_of_context opens, Context.final_single]
    cases read : ctx.readForm none ⟨opened, source, #[]⟩ with
    | error e s => exact ⟨rfl, nofun⟩
    | ok form s =>
      refine ⟨rfl, fun v member => ?_⟩
      obtain rfl := List.mem_singleton.mp member
      exact serves.knows_of_readForm read

theorem exists_names_of_read (known : table.index < store.symbols.tables.size) (extent : Extent)
    (source : Source) :
    ∃ names, (conv.read table store source extent).2.symbols = store.symbols.internAll table names ∧
      ∀ name, name ∈ names ↔ TableStep.Interns store (.read extent table conv source) table name := by
  obtain ⟨ctx, opened, opens, serves⟩ := conv.exists_opened known
  obtain ⟨names, symbols, taken⟩ :=
    serves.stores.exists_names rfl (extent.start ⟨opened, source, #[]⟩)
  have begins : (extent.start (⟨opened, source, #[]⟩ : ReadState Store) : Position Store Value).state =
      ⟨opened, source, #[]⟩ := by
    cases extent <;> rfl
  refine ⟨conv.nilAlias.toList ++ Context.ownNames ++ names, ?_, fun name => ?_⟩
  · rw [(read_of_context opens serves extent source).1, symbols, begins, symbols_of_context opens,
      ← SymbolTables.internAll_append]
  · rw [List.mem_append, List.mem_append, taken, Option.mem_toList]
    constructor
    · rintro ((aliased | own) | ⟨p, passes, takes⟩)
      · exact .readAlias aliased
      · exact .readOwn own
      · exact .readToken opens passes takes
    · intro interns
      cases interns with
      | readAlias aliased => exact .inl (.inl aliased)
      | readOwn own => exact .inl (.inr own)
      | readToken opens' passes takes =>
        rw [opens] at opens'
        cases opens'
        exact .inr ⟨_, passes, takes⟩

end Convention

namespace TableStep

variable {store : Store} {step : TableStep} {steps : List TableStep} {table : TableId} {name : String}
  {symbol : Symbol}

/-- What a step does to the symbol tables: it adds the names that it looks up, and takes nothing away. -/
structure Learns (store : Store) (step : TableStep) : Prop where
  canonical : store.symbols.Canonical → (step.after store).symbols.Canonical
  lasting : ∀ table name symbol, store.symbols.find? table name = some symbol →
    (step.after store).symbols.find? table name = some symbol
  contains : ∀ table name, (step.after store).symbols.contains table name ↔
    store.symbols.contains table name ∨ step.Interns store table name
  tables : store.symbols.tables.size ≤ (step.after store).symbols.tables.size
  gives : ∀ table symbol, step.Gives store table symbol →
    (step.after store).symbols.find? table symbol.name = some symbol

theorem learns_of_names (names : List String) (known : table.index < store.symbols.tables.size)
    (same : (step.after store).symbols = store.symbols.internAll table names)
    (interns : ∀ other name, step.Interns store other name ↔ other = table ∧ name ∈ names)
    (gives : ∀ other symbol, step.Gives store other symbol →
      (step.after store).symbols.find? other symbol.name = some symbol) : step.Learns store where
  canonical canonical := by
    rw [same]
    exact canonical.internAll table names
  lasting other name symbol found := by
    rw [same]
    exact SymbolTables.find?_internAll_of_eq_some found names
  contains other name := by
    rw [same, SymbolTables.contains_internAll known, interns]
  tables := by
    rw [same, SymbolTables.size_tables_internAll]
  gives := gives

theorem learns_of_intern (known : table.index < store.symbols.tables.size)
    (same : (step.after store).symbols = (store.symbols.intern table name).2)
    (asks : step.Interns store table name)
    (only : ∀ other name', step.Interns store other name' → other = table ∧ name' = name)
    (gives : ∀ other symbol, step.Gives store other symbol →
      other = table ∧ symbol = (store.symbols.intern table name).1) : step.Learns store := by
  apply learns_of_names [name] known same
  · intro other name'
    rw [List.mem_singleton]
    constructor
    · exact only other name'
    · rintro ⟨rfl, rfl⟩
      exact asks
  · intro other symbol given
    obtain ⟨rfl, rfl⟩ := gives other symbol given
    rw [same, SymbolTables.intern_name]
    exact SymbolTables.find?_intern known name

theorem learns_of_look (known : ∀ table ∈ step.table?, table.index < store.symbols.tables.size)
    (named : step.table? = some table) (same : step.after store = store)
    (interns : ∀ other name, ¬ step.Interns store other name)
    (gives : ∀ other symbol, step.Gives store other symbol →
      store.symbols.find? other symbol.name = some symbol) : step.Learns store := by
  apply learns_of_names [] (known table named)
  · rw [same, SymbolTables.internAll_nil]
  · simpa using interns
  · rwa [same]

theorem learns_newTable (store : Store) : Learns store .newTable where
  canonical canonical := canonical.newTable
  lasting table name symbol found := (store.symbols.find?_newTable table name).trans found
  contains table name := by
    have same : (after store .newTable).symbols.contains table name = store.symbols.contains table name :=
      congrArg Option.isSome (store.symbols.find?_newTable table name)
    rw [same]
    exact ⟨.inl, fun either => either.resolve_right nofun⟩
  tables := (Array.size_push _).symm ▸ Nat.le_succ _
  gives := nofun

theorem learns_read (extent : Extent) (conv : Convention) (source : Source)
    (known : table.index < store.symbols.tables.size) :
    Learns store (.read extent table conv source) := by
  obtain ⟨names, same, interned⟩ := conv.exists_names_of_read known extent source
  have same : (after store (.read extent table conv source)).symbols =
      store.symbols.internAll table names := same
  apply learns_of_names names known same
  · intro other name
    rw [interned]
    constructor
    · intro interns
      cases interns with
      | readOwn own => exact ⟨rfl, .readOwn own⟩
      | readAlias aliased => exact ⟨rfl, .readAlias aliased⟩
      | readToken opens passes takes => exact ⟨rfl, .readToken opens passes takes⟩
    · rintro ⟨rfl, interns⟩
      exact interns
  · intro other symbol gives
    cases gives with
    | read member leads =>
      obtain ⟨ctx, opened, opens, serves⟩ := conv.exists_opened known
      exact ((Convention.read_of_context opens serves extent source).2 _ member).find?_of_follow leads

theorem learns (known : ∀ table ∈ step.table?, table.index < store.symbols.tables.size)
    (shared : TableId.shared.index < store.symbols.tables.size) : step.Learns store := by
  cases step with
  | newTable => exact learns_newTable store
  | intern table name =>
    refine learns_of_intern (known table rfl) rfl (.intern table name) ?_ ?_
    all_goals
      rintro other _ ⟨⟩
      exact ⟨rfl, rfl⟩
  | symbol name table =>
    have known : (table.getD .shared).index < store.symbols.tables.size := by
      cases table with
      | none => exact shared
      | some table => exact known table rfl
    refine learns_of_intern known rfl (.symbol name table) ?_ ?_
    all_goals
      rintro other _ ⟨⟩
      exact ⟨rfl, rfl⟩
  | restore stored =>
    refine learns_of_intern shared rfl (.restore stored) ?_ ?_
    all_goals
      rintro other _ ⟨⟩
      exact ⟨rfl, rfl⟩
  | find table name =>
    apply learns_of_look known rfl rfl nofun
    intro other symbol gives
    cases gives with
    | find found => rwa [SymbolTables.find?_name found]
  | contains table name => exact learns_of_look known rfl rfl nofun nofun
  | size table => exact learns_of_look known rfl rfl nofun nofun
  | read extent table conv source => exact learns_read extent conv source (known table rfl)

structure Sound (steps : List TableStep) : Prop where
  canonical : (run steps).symbols.Canonical
  shared : TableId.shared.index < (run steps).symbols.tables.size
  obtained : ∀ table symbol, Obtained steps table symbol →
    (run steps).symbols.find? table symbol.name = some symbol
  interned : ∀ table name, (run steps).symbols.contains table name ↔ Interned steps table name

theorem learns_of_valid (sound : Sound steps) (valid : Valid (steps ++ [step])) :
    step.Learns (run steps) :=
  learns (validFrom_concat.mp valid).2 sound.shared

theorem sound (valid : Valid steps) : Sound steps := by
  induction steps using List.reverseRecOn with
  | nil =>
    have nowhere {P : Store → TableStep → Prop} : ¬ Somewhere P [] := by
      rintro ⟨earlier, step, later, split, -⟩
      cases earlier <;> cases split
    refine ⟨SymbolTables.canonical_initial, by decide, fun _ _ obtained => (nowhere obtained).elim, ?_⟩
    intro table name
    have empty : (run []).symbols.find? table name = none := by
      rcases table with ⟨index⟩
      cases index <;> rfl
    rw [SymbolTables.contains_iff_ne_none]
    exact ⟨fun found => absurd empty found, fun interned => (nowhere interned).elim⟩
  | append_singleton steps step ih =>
    have sound := ih (validFrom_concat.mp valid).1
    have learns := learns_of_valid sound valid
    constructor
    · rw [run_concat]
      exact learns.canonical sound.canonical
    · rw [run_concat]
      exact Nat.lt_of_lt_of_le sound.shared learns.tables
    · intro table symbol obtained
      rw [run_concat]
      rcases somewhere_concat.mp obtained with earlier | now
      · exact learns.lasting table _ symbol (sound.obtained table symbol earlier)
      · exact learns.gives table symbol now
    · intro table name
      rw [run_concat, learns.contains, sound.interned]
      exact somewhere_concat.symm

theorem valid_of_append {later : List TableStep} (valid : Valid (steps ++ later)) : Valid steps := by
  induction later using List.reverseRecOn with
  | nil => rwa [List.append_nil] at valid
  | append_singleton later step ih =>
    rw [← List.append_assoc] at valid
    exact ih (validFrom_concat.mp valid).1

theorem find?_of_append {later : List TableStep} (valid : Valid (steps ++ later))
    (found : (run steps).symbols.find? table name = some symbol) :
    (run (steps ++ later)).symbols.find? table name = some symbol := by
  induction later using List.reverseRecOn with
  | nil => rwa [List.append_nil]
  | append_singleton later step ih =>
    rw [← List.append_assoc] at valid ⊢
    have earlier := (validFrom_concat.mp valid).1
    rw [run_concat]
    exact (learns_of_valid (sound earlier) valid).lasting table name symbol (ih earlier)

end TableStep

open TableStep

/-- Symbols are canonical. -/
structure Canonicity (steps : List TableStep) : Prop where
  /-- Two symbols that were handed out are the same object if they are from the same table and have the same
  name, and only then. -/
  identity : ∀ table symbol table' symbol', Obtained steps table symbol → Obtained steps table' symbol' →
    (symbol.serial = symbol'.serial ↔ table = table' ∧ symbol.name = symbol'.name)
  lasting : ∀ earlier later, steps = earlier ++ later → ∀ table name symbol,
    (run earlier).symbols.find? table name = some symbol →
      symbol.name = name ∧ (run steps).symbols.find? table name = some symbol
  grows : ∀ earlier step later, steps = earlier ++ step :: later → ∀ table name,
    ((step.after (run earlier)).symbols.contains table name ↔
      (run earlier).symbols.contains table name ∨ step.Interns (run earlier) table name)
  /-- A name is found, and is in the table, if one of the steps has looked it up there. -/
  found : ∀ table name, ((run steps).symbols.find? table name ≠ none ↔ Interned steps table name) ∧
    ((run steps).symbols.contains table name ↔ Interned steps table name)
  /-- A table has as many symbols as names were looked up in it. -/
  size : ∀ table, ∃ names : List String, names.Nodup ∧
    (∀ name, name ∈ names ↔ Interned steps table name) ∧ (run steps).symbols.size table = names.length
  /-- A symbol that is loaded again is itself if it is from the shared table, and otherwise the symbol that
  this table has of the name. -/
  restored : ∀ table symbol, Obtained steps table symbol →
    let loaded := (run steps).symbols.restore symbol
    (loaded.1.serial = symbol.serial ↔ table = .shared) ∧
      loaded.2.find? .shared symbol.name = some loaded.1 ∧ loaded.1.name = symbol.name

theorem symbols_canonical (steps : List TableStep) (valid : Valid steps) : Canonicity steps := by
  have known := sound valid
  constructor
  · intro table symbol table' symbol' obtained obtained'
    exact known.canonical.serial_eq_iff (known.obtained table symbol obtained)
      (known.obtained table' symbol' obtained')
  · rintro earlier later rfl table name symbol found
    exact ⟨SymbolTables.find?_name found, find?_of_append valid found⟩
  · rintro earlier step later rfl table name
    rw [List.append_cons] at valid
    have before := valid_of_append valid
    exact (learns_of_valid (sound (valid_of_append before)) before).contains table name
  · intro table name
    exact ⟨SymbolTables.contains_iff_ne_none.symm.trans (known.interned table name),
      known.interned table name⟩
  · intro table
    obtain ⟨names, distinct, members, length⟩ := known.canonical.exists_names table
    exact ⟨names, distinct, fun name => (members name).trans (known.interned table name), length⟩
  · intro table symbol obtained loaded
    have before := known.obtained table symbol obtained
    have found : loaded.2.find? .shared symbol.name = some loaded.1 :=
      SymbolTables.find?_intern known.shared symbol.name
    have canonical : loaded.2.Canonical := known.canonical.intern .shared symbol.name
    have still : loaded.2.find? table symbol.name = some symbol := SymbolTables.find?_intern_of_eq_some before
    refine ⟨?_, found, SymbolTables.intern_name _ _ _⟩
    calc loaded.1.serial = symbol.serial
      _ ↔ .shared = table ∧ symbol.name = symbol.name := canonical.serial_eq_iff found still
      _ ↔ table = .shared := by rw [and_iff_left rfl, eq_comm]

/-- A table of its own for a text with a datum comment and an error, and a symbol of it that is loaded again. -/
theorem symbols_canonical_behind_error :
    let own : TableId := ⟨1⟩
    let source : Source := .ofText "(a #;b 1 . ) c".toList 1 0 none
    let steps : List TableStep :=
      [.newTable, .read .allForms own ⟨true, false, none⟩ source, .find own "b", .restore ⟨6, "b"⟩]
    Valid steps ∧
      (∀ name ∈ [".", "quote", "a", "b"], (run steps).symbols.contains own name) ∧
      (∀ name ∈ ["1", "c"], ¬ (run steps).symbols.contains own name) ∧
      (run steps).symbols.size own = 7 ∧ (run steps).symbols.size .shared = 1 ∧ Canonicity steps := by
  intro own source steps
  have valid : Valid steps := ⟨by decide, by decide, by decide +kernel, by decide +kernel, trivial⟩
  exact ⟨valid, by decide +kernel, by decide +kernel, by decide +kernel, by decide +kernel,
    symbols_canonical steps valid⟩

end SexprReader
