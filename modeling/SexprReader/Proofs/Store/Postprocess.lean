import SexprReader.Proofs.Grammar.Correspondence
import SexprReader.Proofs.Store.Incomplete

namespace SexprReader

open Store

/-- What text can tell of a value; none if it contains itself. -/
def Heap.datum? (h : Heap) (v : Value) : Option Datum := (h.tree? v).map Tree.datum

namespace Convention

def plain (conv : Convention) : Convention := ⟨conv.bracketLists, false, none⟩

def leaf (conv : Convention) : Datum → Datum
  | .string s => .string (if conv.interpretEscapes then Escape.interpret s else s)
  | .symbol name => if conv.nilAlias = some name then .nil else .symbol name
  | d => d

/-- What the options make of a form, at every depth. -/
def postProcess (conv : Convention) (d : Datum) : Datum := d.mapLeaves conv.leaf

/-- The name that stands for the empty list is none of those which the reader uses itself. -/
def OrdinaryAlias (conv : Convention) : Prop :=
  ∀ name ∈ conv.nilAlias, name ∉ [".", "quote", "quasiquote", "unquote", "unquote-splicing"]

variable {conv : Convention}

theorem OrdinaryAlias.keepsLists (ordinary : conv.OrdinaryAlias) : Datum.KeepsLists conv.leaf where
  nil := rfl
  marks mark := by
    have other : conv.nilAlias ≠ some mark.symbolName := by
      intro same
      apply ordinary _ same
      cases mark <;> simp [QuoteMark.symbolName]
    rw [leaf, if_neg other]
  dots d := by
    cases d with
    | symbol name =>
      rw [leaf]
      split
      next same =>
        have other : name ≠ "." := by
          rintro rfl
          exact ordinary _ same (by simp)
        rw [Datum.isDot, beq_eq_false_iff_ne.mpr other]
        rfl
      next => rfl
    | _ => rfl

theorem leaf_name (conv : Convention) (text : String) :
    (if conv.plain.nilAlias = some text then .nil else .symbol text : Datum).mapLeaves conv.leaf =
      if conv.nilAlias = some text then .nil else .symbol text :=
  Tree.mapLeaves_symbol text

theorem atom_resembles (conv : Convention) {lexeme : Lexeme} {outcome : Outcome}
    (means : conv.plain.atom lexeme = some outcome) :
    ∃ outcome', conv.atom lexeme = some outcome' ∧ outcome.Resembles conv.leaf Eq outcome' := by
  cases lexeme with
  | opening _ => cases means
  | endOfInput =>
    cases means
    exact ⟨_, rfl, .endOfInput⟩
  | comment =>
    cases means
    exact ⟨_, rfl, .comment⟩
  | constant constant =>
    cases means
    exact ⟨_, rfl, .of_eq (Tree.mapLeaves_sentinel _)⟩
  | token text =>
    cases means
    exact ⟨_, rfl, token_resembles (fun _ => rfl) (fun _ => rfl) (conv.leaf_name _)⟩
  | number radix digits =>
    cases means
    exact ⟨_, rfl, number_resembles (fun _ => rfl) (fun _ => rfl) radix _⟩
  | string literal =>
    cases means
    exact ⟨_, rfl, .of_eq (Tree.mapLeaves_string _)⟩
  | character c =>
    cases means
    exact ⟨_, rfl, .of_eq (Tree.mapLeaves_character _)⟩
  | fault fault =>
    cases means
    exact ⟨_, rfl, .error rfl⟩

theorem corresponds (ordinary : conv.OrdinaryAlias) :
    Corresponds conv.plain conv conv.leaf Eq Eq where
  lists := ordinary.keepsLists
  agree_refl _ := rfl
  ends := rfl
  blanks {text text'} same := by
    subst same
    cases behindBlanks false text with
    | nil => exact .inl ⟨rfl, rfl⟩
    | cons c rest => exact .inr ⟨c, rest, rest, rfl, rfl, rfl⟩
  scans {text text' lexeme rest} same scans := by
    subst same
    exact ⟨lexeme, rest, scans, rfl, opens_or_means (fun _ same => same) fun _ => conv.atom_resembles⟩

end Convention

theorem DenotesAll.map_datum? {table : TableId} {store : Store} {lo hi : Nat} {values : List Value}
    {ds : List Datum} (all : DenotesAll table store lo hi values ds) :
    values.map store.heap.datum? = ds.map some := by
  have trees := congrArg (List.map (Option.map Tree.datum)) all.map_tree?
  rw [List.map_map, List.map_map] at trees
  refine trees.trans (List.map_congr_left fun d _ => ?_)
  exact congrArg some (store.datum_resolve table d)

theorem DenotesAll.isSome_datum? {table : TableId} {store : Store} {lo hi : Nat}
    {values : List Value} {ds : List Datum} (all : DenotesAll table store lo hi values ds) :
    ∀ v ∈ values, (store.heap.datum? v).isSome := by
  intro v member
  rw [Heap.datum?, Option.isSome_map]
  exact all.isSome_tree? v member

theorem DenotesAll.map_datum?_of_map {table table' : TableId} {store store' : Store}
    {lo hi lo' hi' : Nat} {values values' : List Value} {ds : List Datum} {change : Datum → Datum}
    (all : DenotesAll table store lo hi values ds)
    (all' : DenotesAll table' store' lo' hi' values' (ds.map change)) :
    values'.map store'.heap.datum? = values.map fun v => (store.heap.datum? v).map change := by
  have data := congrArg (List.map (Option.map change)) all.map_datum?
  rw [List.map_map, List.map_map] at data
  refine all'.map_datum?.trans (Eq.trans ?_ data.symm)
  rw [List.map_map]
  rfl

/-- The options of a convention are applied to finished forms. With them a text has the same forms as
without them, except that strings in it are interpreted and that symbols of one name are the empty list.
The same characters are taken, and the same error ends the reading, if any does. -/
theorem reading_postProcess (conv : Convention) (ordinary : conv.OrdinaryAlias) (table : TableId)
    (store store' : Store) (known : table.index < store.symbols.tables.size)
    (known' : table.index < store'.symbols.tables.size) (text : List Char) (line column : Int)
    (name : Option String) :
    let source : Source := .ofText text line column name
    let plain := conv.plain.reading table store source
    let reading := conv.reading table store' source
    reading.forms.map reading.final.host.heap.datum? =
        plain.forms.map (fun form => (plain.final.host.heap.datum? form).map conv.postProcess) ∧
      (∀ form ∈ reading.forms, (reading.final.host.heap.datum? form).isSome) ∧
      reading.final.source.remaining = plain.final.source.remaining ∧
      reading.failure = plain.failure := by
  intro source plain reading
  obtain ⟨ds, obstacle, rest, all⟩ := ParsesAll.total conv.plain source.remaining
  obtain ⟨_, _, all', agrees, rfl⟩ := all.corresponds (Convention.corresponds ordinary) rfl
  obtain ⟨values, final, reads, -, denotes, left, precedes⟩ :=
    Convention.reading_of_parsesAll all rfl known
  obtain ⟨values', final', reads', -, denotes', left', precedes'⟩ :=
    Convention.reading_of_parsesAll all' rfl known'
  have reads : plain = _ := reads
  have reads' : reading = _ := reads'
  obtain ⟨place, called⟩ := precedes.same_place precedes' rfl rfl (List.append_nil _).symm
    (by rw [left', left, List.append_nil])
  rw [reads, reads']
  refine ⟨denotes.map_datum?_of_map denotes', denotes'.isSome_datum?, left'.trans left.symm, ?_⟩
  cases agrees with
  | none => rfl
  | @some reason reason' same =>
    subst same
    cases reason with
    | fault fault =>
      simp only [Obstacle.failure, Source.line?, Source.column?, place, called, Option.map_some]
    | value fault => rfl

/-- A tail that makes an improper list a proper one, and a name in a vector and behind a quote. -/
theorem reading_postProcess_nil_tail :
    let conv : Convention := ⟨true, true, some "none"⟩
    let source : Source := .ofText "(a . none) #(\"\\t\" none) 'none ]".toList 1 0 none
    let plain := conv.plain.reading .shared .initial source
    let reading := conv.reading .shared .initial source
    conv.OrdinaryAlias ∧ TableId.shared.index < Store.initial.symbols.tables.size ∧
      plain.forms.map (plain.final.host.heap.write · 0) =
        [.ok "(a . none)", .ok "#('\\\\t' none)", .ok "(quote none)"] ∧
      reading.forms.map (reading.final.host.heap.write · 0) =
        [.ok "(a)", .ok "#('\\t' ())", .ok "(quote ())"] ∧
      reading.forms.map reading.final.host.heap.datum? =
        plain.forms.map (fun form => (plain.final.host.heap.datum? form).map conv.postProcess) ∧
      reading.failure = plain.failure ∧
      plain.failure = some (.reading ⟨.unexpectedCharacter ']', some 1, some 31, none⟩) := by
  have ordinary : Convention.OrdinaryAlias ⟨true, true, some "none"⟩ := by
    simp [Convention.OrdinaryAlias]
  have processed := reading_postProcess ⟨true, true, some "none"⟩ ordinary .shared .initial .initial
    (by decide) (by decide) "(a . none) #(\"\\t\" none) 'none ]".toList 1 0 none
  exact ⟨ordinary, by decide, by decide +kernel, by decide +kernel, processed.1, processed.2.2.2,
    by decide +kernel⟩

end SexprReader
