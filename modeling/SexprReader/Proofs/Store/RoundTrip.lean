import SexprReader.Proofs.Grammar.Legible
import SexprReader.Proofs.Store.Bodies
import SexprReader.Proofs.Value.Nests

namespace SexprReader

/-- Nothing but the nesting of calls decides whether a datum can be written, by itself and as the rest
of a list. -/
structure Datum.Limited (limit : Nat) (d : Datum) : Prop where
  text : ∀ depth, LimitedBy limit (d.nesting depth) (d.text limit depth)
  tail : ∀ depth, depth ≤ limit →
    LimitedBy limit (d.nesting (d.depthInPair depth)) (d.tailText limit depth)

namespace Datum.Limited

variable {limit : Nat}

theorem tail_of_atom {d : Datum}
    (text : ∀ depth, LimitedBy limit (d.nesting depth) (d.text limit depth))
    (single : ∀ first rest, d ≠ .pair first rest) (depth : Nat) (shallow : depth ≤ limit) :
    LimitedBy limit (d.nesting (d.depthInPair depth)) (d.tailText limit depth) := by
  by_cases nil : d = .nil
  · subst nil
    rw [tailText, Tree.depthInPair, Tree.nesting]
    · exact .ok shallow ")"
    all_goals simp
  · rw [tailText_of_atom limit depth nil single]
    exact ((text (d.depthInPair depth)).behind " . ").before ")"

theorem exists_text {bracketLists : Bool} {d : Datum} {depth : Nat}
    (legible : d.Legible bracketLists) (shallow : depth ≤ limit)
    (single : ∀ first rest, d ≠ .pair first rest) (flat : ∀ elements, d ≠ .vector elements) :
    ∃ s, d.text limit depth = .ok s := by
  rw [Datum.text.eq_def, if_neg (Nat.not_lt.mpr shallow)]
  cases d with
  | sentinel s => exact ⟨s.text, rfl⟩
  | symbol name => exact ⟨name, rfl⟩
  | integer n => exact ⟨n.repr, if_pos legible⟩
  | character codePoint =>
    obtain ⟨c, rfl⟩ := legible
    exact Character.exists_text c
  | pair first rest => exact absurd rfl (single first rest)
  | vector elements => exact absurd rfl (flat elements)
  | string s => exact legible.elim
  | null => exact legible.elim

theorem leaf {bracketLists : Bool} {d : Datum} (legible : d.Legible bracketLists)
    (single : ∀ first rest, d ≠ .pair first rest) (flat : ∀ elements, d ≠ .vector elements) :
    d.Limited limit := by
  have text (depth : Nat) : LimitedBy limit (d.nesting depth) (d.text limit depth) := by
    by_cases shallow : depth ≤ limit
    · obtain ⟨s, written⟩ := exists_text legible shallow single flat
      rw [written, Tree.nesting]
      · exact .ok shallow s
      · exact single
      · exact flat
    · exact .text_of_deep shallow (d.le_nesting depth)
  exact ⟨text, tail_of_atom text single⟩

theorem pair {first rest : Datum} (firsts : first.Limited limit) (rests : rest.Limited limit) :
    Limited limit (.pair first rest) where
  text depth := by
    by_cases shallow : depth ≤ limit
    · rw [text_pair shallow, Tree.nesting]
      exact ((firsts.text _).behind "(").joined (rests.tail depth shallow)
    · exact .text_of_deep shallow (Tree.le_nesting _ depth)
  tail depth shallow := by
    rw [tailText_pair, Tree.depthInPair, Tree.nesting]
    · exact ((firsts.text _).behind " ").joined (rests.tail depth shallow)
    · simp

theorem elements {ds : List Datum} (all : ∀ d ∈ ds, d.Limited limit) (depth : Nat) :
    LimitedBy limit (Tree.nestingAll depth ds) (elementsText limit depth ds) := by
  induction ds with
  | nil =>
    rw [elementsText_nil, Tree.nestingAll]
    exact .ok (Nat.zero_le _) ""
  | cons d ds ih =>
    have first := (all d (List.mem_cons_self ..)).text (d.depthInVector depth)
    have others := ih fun e member => all e (List.mem_cons_of_mem _ member)
    cases ds with
    | nil =>
      rw [elementsText_singleton, Tree.nestingAll, Tree.nestingAll, Nat.max_zero]
      exact first
    | cons e ds =>
      rw [elementsText_cons, Tree.nestingAll]
      exact (first.before " ").joined others

theorem vector {ds : List Datum} (all : ∀ d ∈ ds, d.Limited limit) : Limited limit (.vector ds) := by
  have text (depth : Nat) :
      LimitedBy limit (Tree.nesting depth (.vector ds)) (Datum.text limit depth (.vector ds)) := by
    by_cases shallow : depth ≤ limit
    · rw [text_vector shallow, Tree.nesting]
      have opened := (LimitedBy.ok shallow "#(").joined (elements all depth)
      exact opened.before ")"
    · exact .text_of_deep shallow (Tree.le_nesting _ depth)
  exact ⟨text, tail_of_atom text (by simp)⟩

end Datum.Limited

theorem Datum.limited {bracketLists : Bool} {d : Datum} (legible : d.Every (Legible bracketLists))
    (limit : Nat) : d.Limited limit := by
  induction d using Tree.induct with
  | leaf d single flat => exact .leaf legible.root single flat
  | pair first rest firsts rests =>
    obtain ⟨-, left, right⟩ := Tree.every_pair_iff.mp legible
    exact .pair (firsts left) (rests right)
  | vector elements all =>
    obtain ⟨-, each⟩ := Tree.every_vector_iff.mp legible
    exact .vector fun d member => all d member (each d member)

open Store

/-- The value has a tree whose parts are all legible, with symbols that are those of the table. -/
structure Store.Legible (store : Store) (table : TableId) (bracketLists : Bool) (v : Value)
    (t : Tree Symbol) : Prop where
  tree : store.heap.tree? v = some t
  parts : t.datum.Every (Datum.Legible bracketLists)
  symbols : ∀ symbol, (Tree.symbol symbol).PartOf t →
    store.symbols.find? table symbol.name = some symbol

section

variable {table : TableId} {store : Store} {bracketLists interpretEscapes : Bool} {v : Value}
  {t : Tree Symbol} {source : Source} {limit : Nat}

theorem Store.resolve_of_find? {symbol : Symbol}
    (found : store.symbols.find? table symbol.name = some symbol) :
    store.resolve table symbol.name = symbol := by
  simp [resolve, found]

theorem Store.Legible.readAll_text (legible : store.Legible table bracketLists v t) {text : String}
    (written : store.heap.write v limit = .ok text) (shown : source.remaining = text.toList)
    (ending : source.ending = .endOfInput) (known : table.index < store.symbols.tables.size)
    {reading : Reading Store Value}
    (reads : reading = readAll (plainHost table interpretEscapes) ⟨bracketLists, none⟩ store source) :
    reading.failure = none ∧ ∃ form, reading.forms = [form] ∧
      reading.final.host.heap.tree? form = some t ∧ reading.final.host.heap.tree? v = some t := by
  let conv : Convention := ⟨bracketLists, interpretEscapes, none⟩
  rw [Heap.write_eq_text legible.tree] at written
  have back : Datum.ReadsBack conv t.datum := Datum.readsBack rfl legible.parts
  have item := back.item written (.nil conv.dialect)
  have all : ParsesAll conv source.remaining [t.datum] none [] := by
    rw [shown, ← List.append_nil text.toList]
    exact .form (.stop item (by simp)) (.stop (.stop (.atom rfl rfl) (by simp)))
  obtain ⟨values, final, comes, agrees, denotes, -⟩ := conv.reading_of_parsesAll all ending known
  rw [Convention.reading_without_alias, ← reads] at comes
  subst comes
  cases denotes with
  | @cons form _ _ _ first others =>
    cases others
    have same : t.datum.map (final.host.resolve table) = t := by
      rw [Tree.datum, Tree.map_map]
      refine Tree.map_eq_self fun symbol inside => ?_
      exact resolve_of_find? (agrees.symbols _ _ _ (legible.symbols symbol inside))
    have kept := (Heap.tree?_eq_some_iff.mp legible.tree).agrees agrees
    exact ⟨rfl, form, rfl, first.tree?.trans (congrArg some same), Heap.tree?_eq_some_iff.mpr kept⟩

theorem Denotes.find?_of_partOf {lo hi : Nat} {d : Datum} (denotes : Denotes table store lo hi v d)
    {name : String} (inside : (Tree.symbol name).PartOf d) :
    ∃ symbol, store.symbols.find? table name = some symbol := by
  induction denotes with
  | symbol found =>
    cases inside
    exact ⟨_, found⟩
  | pair _ _ _ _ _ firsts rests =>
    cases inside with
    | first inside => exact firsts inside
    | rest inside => exact rests inside
  | @vector address values ds elements length _ each =>
    cases inside with
    | element member inside =>
      obtain ⟨i, within, rfl⟩ := List.getElem_of_mem member
      have within' : i < values.length := length ▸ within
      exact each i _ _ (List.getElem?_eq_getElem within') (List.getElem?_eq_getElem within) inside
  | _ => cases inside

/-- A value that was read is legible, as far as it is written the way it is read. -/
theorem Denotes.legible {lo hi : Nat} {d : Datum} (denotes : Denotes table store lo hi v d)
    (readable : d.Every (Datum.Readable bracketLists)) :
    ∃ t, store.heap.tree? v = some t ∧
      (t.datum.Every Datum.Faithful → store.Legible table bracketLists v t) := by
  let t := d.map (store.resolve table)
  have same : t.datum = d := store.datum_resolve table d
  refine ⟨t, denotes.tree?, fun faithful => ⟨denotes.tree?, ?_, fun symbol inside => ?_⟩⟩
  · rw [same] at faithful ⊢
    exact fun part inside =>
      Datum.legible_of_readable (readable part inside) (faithful part inside)
  · obtain ⟨part, inside', mapped⟩ := Tree.partOf_map inside
    cases part with
    | symbol name =>
      obtain ⟨found, finds⟩ := denotes.find?_of_partOf inside'
      simp only [Tree.map, resolve, finds, Option.getD_some, Tree.symbol.injEq] at mapped
      subst mapped
      rw [SymbolTables.find?_name finds]
      exact finds
    | _ => simp [Tree.map] at mapped

theorem Store.Legible.write_limited (legible : store.Legible table bracketLists v t) (limit : Nat) :
    LimitedBy limit (t.datum.nesting 0) (store.heap.write v limit) := by
  rw [Heap.write_eq_text legible.tree]
  exact (Datum.limited legible.parts limit).text 0

/-- Every form of a reading is legible, as far as it is written the way it is read. -/
theorem legible_of_mem_forms {reading : Reading Store Value}
    (reads : reading = readAll (plainHost table interpretEscapes) ⟨bracketLists, none⟩ store source)
    (ending : source.ending = .endOfInput) (known : table.index < store.symbols.tables.size)
    {form : Value} (member : form ∈ reading.forms) :
    ∃ t, reading.final.host.heap.tree? form = some t ∧
      (t.datum.Every Datum.Faithful → reading.final.host.Legible table bracketLists form t) := by
  let conv : Convention := ⟨bracketLists, interpretEscapes, none⟩
  obtain ⟨ds, obstacle, rest, all⟩ := ParsesAll.total conv source.remaining
  obtain ⟨values, final, comes, -, denotes, -⟩ := conv.reading_of_parsesAll all ending known
  rw [Convention.reading_without_alias, ← reads] at comes
  subst comes
  obtain ⟨i, inside, rfl⟩ := List.getElem_of_mem member
  have inside' : i < ds.length := denotes.length_eq ▸ inside
  have denoted := Heap.getElem?_of_forall₂ denotes i _ _ (List.getElem?_eq_getElem inside)
    (List.getElem?_eq_getElem inside')
  exact denoted.legible (all.readable rfl _ (List.getElem_mem inside'))

end

/-- Writing a legible value fails exactly if too many calls are nested for its vectors. Otherwise the
value is what is read from its text, and nothing else is. Whatever is read from any text is legible,
as far as it is written the way it is read. -/
theorem readAll_written_value (limit : Nat) (table : TableId) (interpretEscapes bracketLists : Bool)
    (store : Store) (known : table.index < store.symbols.tables.size) (line column : Int) (name : Option String) :
    let read := fun text => readAll (Store.host ⟨table, interpretEscapes, .all, true, .raise⟩)
      ⟨bracketLists, none⟩ store (.ofText text line column name)
    (∀ v t, store.Legible table bracketLists v t →
      (limit < t.datum.nesting 0 → store.heap.write v limit = .error .tooDeep) ∧
      (t.datum.nesting 0 ≤ limit → ∃ text, store.heap.write v limit = .ok text ∧
        let reading := read text.toList
        reading.failure = none ∧ ∃ form, reading.forms = [form] ∧
          reading.final.host.heap.tree? form = some t ∧
          reading.final.host.heap.tree? v = some t)) ∧
      ∀ text, let reading := read text
        ∀ form ∈ reading.forms, ∃ t, reading.final.host.heap.tree? form = some t ∧
          (t.datum.Every Datum.Faithful →
            reading.final.host.Legible table bracketLists form t) := by
  intro read
  have reads (text : List Char) : read text = readAll (plainHost table interpretEscapes)
    ⟨bracketLists, none⟩ store (.ofText text line column name) := rfl
  clear_value read
  refine ⟨fun v t legible => ⟨(legible.write_limited limit).2, fun shallow => ?_⟩, ?_⟩
  · obtain ⟨text, written⟩ := (legible.write_limited limit).1 shallow
    exact ⟨text, written, legible.readAll_text written rfl rfl known (reads text.toList)⟩
  · intro text reading form member
    exact legible_of_mem_forms (reads text) rfl known member

/-- One nested call is enough to write `(a . #(1 #\a))`. -/
theorem readAll_written_dotted_list :
    let store : Store := ⟨⟨#[⟨.symbol ⟨0, "a"⟩, .vector 0⟩], #[[.integer 1, .character ⟨0, 97⟩]], 1⟩,
      ⟨#[[⟨0, "a"⟩]], 1⟩⟩
    let t : Tree Symbol := .pair (.symbol ⟨0, "a"⟩) (.vector [.integer 1, .character 97])
    store.Legible .shared true (.pair 0) t ∧
      ∃ text, store.heap.write (.pair 0) 1 = .ok text ∧
        let reading := readAll (Store.host .standard) ⟨true, none⟩ store (.ofText text.toList 1 0 none)
        reading.failure = none ∧ ∃ form, reading.forms = [form] ∧
          reading.final.host.heap.tree? form = some t ∧
          reading.final.host.heap.tree? (.pair 0) = some t := by
  intro store t
  have leaf {d : Datum} (root : d.Legible true) (single : ∀ first rest, d ≠ .pair first rest)
      (flat : ∀ elements, d ≠ .vector elements) : d.Every (Datum.Legible true) :=
    Tree.every_leaf root single flat
  have short : (1 : Int).natAbs < Nat.pow 10 printedDigitLimit := by decide +kernel
  have token : Lexeme.isName true "a".toList = true := by decide
  have parts : t.datum.Every (Datum.Legible true) := by
    simp only [t, Tree.datum, Tree.map, Tree.mapAll]
    refine Tree.every_pair_iff.mpr ⟨rfl, leaf token (by simp) (by simp), ?_⟩
    refine Tree.every_vector_iff.mpr ⟨by simp [Datum.Legible, Datum.DotsInPlace, Datum.isDot], ?_⟩
    intro d member
    simp only [List.mem_cons, List.not_mem_nil, or_false] at member
    rcases member with rfl | rfl
    · exact leaf short (by simp) (by simp)
    · exact leaf ⟨'a', rfl⟩ (by simp) (by simp)
  have symbols : ∀ symbol, (Tree.symbol symbol).PartOf t →
      store.symbols.find? .shared symbol.name = some symbol := by
    intro symbol inside
    simp only [t] at inside
    cases inside with
    | first inside =>
      cases inside
      decide
    | rest inside =>
      cases inside with
      | element member inside =>
        simp only [List.mem_cons, List.not_mem_nil, or_false] at member
        rcases member with rfl | rfl <;> cases inside
  have legible : store.Legible .shared true (.pair 0) t := ⟨rfl, parts, symbols⟩
  exact ⟨legible, ((readAll_written_value 1 .shared false true store (by decide) 1 0 none).1 (.pair 0) t
    legible).2 (by decide)⟩

theorem Store.legible_nest (inner : Nat) :
    (Store.mk (Heap.twins (inner + 1)) SymbolTables.initial).Legible .shared true (.vector (2 * inner))
      (Heap.nest inner) where
  tree := Heap.tree?_eq_some_iff.mpr (Heap.unfolds_twins Nat.two_pos (Nat.lt_succ_self inner))
  parts := by
    induction inner with
    | zero => exact Tree.every_vector_iff.mpr ⟨nofun, nofun⟩
    | succ inner ih =>
      have vector : (Heap.nest inner).datum.isDot = false := by cases inner <;> rfl
      rw [Heap.datum_nest_succ]
      exact Tree.every_vector_iff.mpr ⟨List.forall_mem_singleton.mpr vector, List.forall_mem_singleton.mpr ih⟩
  symbols symbol inside := absurd inside (Heap.not_symbol_partOf_nest inner symbol)

/-- No limit for calls is high enough for all values of which each part can be read. -/
theorem Store.not_exists_writing_limit :
    ¬ ∃ limit, ∀ (store : Store) (v : Value) (t : Tree Symbol), store.Legible .shared true v t →
      ∃ text, store.heap.write v limit = .ok text := by
  rintro ⟨limit, writes⟩
  have legible := legible_nest (limit + 1)
  obtain ⟨text, written⟩ := writes _ _ _ legible
  rw [Heap.write_eq_text legible.tree, (Heap.limitedBy_nest limit 0 (limit + 1)).2 (by omega)] at written
  cases written

end SexprReader
