import SexprReader.Proofs.Grammar.Quoting
import SexprReader.Proofs.Store.Single

namespace SexprReader

open ReadM Store

theorem Serves.ne_dot_iff {ctx : Context Store Value} {conv : Convention} {table : TableId} {store : Store}
    {lo hi : Nat} {v : Value} {d : Datum} (serves : Serves ctx conv table store)
    (denotes : Denotes table store lo hi v d) : v ≠ ctx.dot ↔ d.isDot = false := by
  rw [← serves.eq_dot denotes, serves.eq_apply, beq_eq_false_iff_ne]

theorem Denotes.tree?_quoted {table : TableId} {store : Store} {lo hi lo' hi' : Nat} {v w : Value} {d : Datum}
    {mark : QuoteMark} (denotes : Denotes table store lo hi v d)
    (quoted : Denotes table store lo' hi' w (d.quoted mark)) :
    ∃ symbol tree, store.symbols.find? table mark.symbolName = some symbol ∧
      store.heap.tree? v = some tree ∧
      store.heap.tree? w = some (.ofList [.symbol symbol, tree] .nil) := by
  have list : store.heap.tree? w = some (.ofList [.symbol (store.resolve table mark.symbolName),
      d.map (store.resolve table)] .nil) := quoted.tree?
  cases quoted with
  | pair _ _ _ first _ =>
    cases first with
    | @symbol _ symbol found =>
      have same : store.resolve table mark.symbolName = symbol := by simp [resolve, found]
      rw [same] at list
      exact ⟨symbol, _, found, denotes.tree?, list⟩

/-- A form that can be read can also be read behind a quote mark, as far as it goes. That makes the list of
the mark's symbol and the form's value, and so does the list in parentheses. What has been read is kept, and
other forms may be read in between. A comma must not be followed by `@`, and the name of the symbol must not
stand for the empty list. -/
theorem quoted_as_list (conv : Convention) (table : TableId) (store : Store)
    (known : table.index < store.symbols.tables.size) {ctx : Context Store Value} {opened later : Store}
    (opens : conv.context table store = .ok ctx opened) (grown : opened.Agrees 0 0 later)
    {form rest : List Char} {s s' : ReadState Store} {v : Value} (stands : s.Stands later (form ++ rest))
    (reads : ctx.readForm none s = .ok v s') (takes : s'.source.remaining = rest)
    (there : v ≠ .sentinel .endOfStream) (plain : v ≠ ctx.dot) (mark : QuoteMark)
    (other : conv.nilAlias ≠ some mark.symbolName) (comma : mark = .unquote → form.head? ≠ some '@')
    {before : Store} (kept : s'.host.Agrees 0 s'.host.heap.pairs.size before) :
    let name := mark.symbolName.toList
    (ctx.readForm none).Takes before (mark.text.toList ++ form ++ rest) rest fun after w =>
      ∃ symbol tree, after.symbols.find? table mark.symbolName = some symbol ∧
        after.heap.tree? v = some tree ∧
        let list : Tree Symbol := .ofList [.symbol symbol, tree] .nil
        after.heap.tree? w = some list ∧
        ∀ before', after.Agrees 0 after.heap.pairs.size before' →
          (ctx.readForm none).Takes before' ('(' :: name ++ ' ' :: form ++ " )".toList ++ rest) rest
            fun after' w' => after'.heap.tree? w = some list ∧ after'.heap.tree? w' = some list := by
  intro name
  subst takes
  have serves := conv.serves_later known opens grown
  obtain ⟨d, parses, agrees, denotes⟩ := serves.exists_form_of_readForm stands reads there
  have serves' := (serves.agrees agrees).agrees kept
  have member : d.isDot = false := ((serves.agrees agrees).ne_dot_iff denotes).mp plain
  have sugar := parses.behind_mark comma
  rw [← List.append_assoc] at sugar
  refine (serves'.takes_of_parses sugar).mono fun after w ⟨agrees', quoted⟩ => ?_
  have still : Denotes table after later.heap.pairs.size s'.host.heap.pairs.size v d :=
    (denotes.agrees (kept.narrow (Nat.zero_le _) (Nat.le_refl _))).agrees
      (agrees'.narrow (Nat.zero_le _) kept.size)
  obtain ⟨symbol, tree, found, value, list⟩ := still.tree?_quoted quoted
  refine ⟨symbol, tree, found, value, list, fun before' kept' => ?_⟩
  have long : Parses conv .form ('(' :: name ++ ' ' :: form ++ " )".toList ++ s'.source.remaining)
      (.ok (.form (d.quoted mark))) s'.source.remaining := by
    simpa using parses.in_long_form member other
  refine (((serves'.agrees agrees').agrees kept').takes_of_parses long).mono
    fun after' w' ⟨agrees'', spelled⟩ => ?_
  have kept'' : after.Agrees 0 after.heap.pairs.size after' :=
    kept'.trans (agrees''.narrow (Nat.le_refl _) kept'.size)
  have list' : after'.heap.tree? w = some (.ofList [.symbol symbol, tree] .nil) :=
    Heap.tree?_eq_some_iff.mpr ((Heap.tree?_eq_some_iff.mp list).agrees kept'')
  have same := (quoted.agrees (kept''.narrow (Nat.zero_le _) (Nat.le_refl _))).tree?
  exact ⟨list', spelled.tree?.trans (same.symm.trans list')⟩

/-- A constant in front of a closing bracket, behind a comma and a datum comment. -/
theorem quoted_as_list_behind_comma :
    ∃ ctx opened v s', Convention.context ⟨false, false, some "nil"⟩ .shared .initial = .ok ctx opened ∧
      ctx.readForm none ⟨opened, .ofText "#;#f #t)".toList 1 0 none, #[]⟩ = .ok v s' ∧
      (ctx.readForm none).Takes s'.host ",#;#f #t)".toList ")".toList fun after w =>
        ∃ symbol tree, after.symbols.find? .shared "unquote" = some symbol ∧
          after.heap.tree? v = some tree ∧
          let list : Tree Symbol := .ofList [.symbol symbol, tree] .nil
          after.heap.tree? w = some list ∧
          ∀ before', after.Agrees 0 after.heap.pairs.size before' →
            (ctx.readForm none).Takes before' "(unquote #;#f #t ))".toList ")".toList
              fun after' w' => after'.heap.tree? w = some list ∧ after'.heap.tree? w' = some list := by
  let conv : Convention := ⟨false, false, some "nil"⟩
  have known : TableId.shared.index < Store.initial.symbols.tables.size := by decide
  obtain ⟨ctx, opened, opens, serves⟩ := conv.exists_opened known
  have opens_ : conv.dialect.scan "#;#f #t)".toList = (.opening .datumComment, "#f #t)".toList) := by decide
  have discarded : conv.dialect.scan "#f #t)".toList = (.constant .false, " #t)".toList) := by decide
  have constant : conv.dialect.scan " #t)".toList = (.constant .true, ")".toList) := by decide
  have comment : Parses conv .item "#;#f #t)".toList (.ok .comment) " #t)".toList :=
    .discarded opens_ (.stop (.atom discarded rfl) (by simp))
  have parses : Parses conv .form "#;#f #t)".toList (.ok (.form (.sentinel .true))) ")".toList :=
    .skip comment (.stop (.atom constant rfl) (by simp))
  have stands : (⟨opened, .ofText "#;#f #t)".toList 1 0 none, #[]⟩ : ReadState Store).Stands opened
      ("#;#f #t".toList ++ ")".toList) := ⟨rfl, rfl, rfl⟩
  obtain ⟨v, s', reads, takes, agrees, denotes⟩ := serves.takes_of_parses parses _ stands
  have there : v ≠ .sentinel .endOfStream := by
    rintro rfl
    cases denotes
  have plain : v ≠ ctx.dot := ((serves.agrees agrees).ne_dot_iff denotes).mpr rfl
  refine ⟨ctx, opened, v, s', opens, reads, ?_⟩
  exact quoted_as_list conv .shared .initial known opens (.refl 0 0 _) stands reads takes there plain .unquote
    (by decide) (by decide) (.refl 0 _ _)

end SexprReader
