import SexprReader.Proofs.Grammar.Contents
import SexprReader.Proofs.Store.Settles
import SexprReader.Reader.Reading

namespace SexprReader

open ReadM Store

/-- An obstacle as a failure, at the place up to which a source has been read. -/
def Obstacle.failure (source : Source) : Obstacle → Failure
  | .fault reason => .reading ⟨reason, source.line?, source.column?, source.name⟩
  | .value reason => .value reason

def Item.value : Item Value → Value
  | .form v => v
  | _ => .sentinel .endOfStream

def answerAt (s : ReadState Store) :
    Except Obstacle (Item Value) → EStateM.Result Failure (ReadState Store) Value
  | .ok item => .ok item.value s
  | .error obstacle => .error (obstacle.failure s.source) s

variable {ctx : Context Store Value} {conv : Convention} {table : TableId} {store : Store}
  {text rest : List Char} {outcome : Outcome}

theorem Serves.fail_apply {α : Type} (serves : Serves ctx conv table store) (fault : ReadFault)
    (s : ReadState Store) :
    ∃ trace, (ctx.fail fault : ReadM Store α) s =
      .error ((Obstacle.fault fault).failure s.source) { s with trace } := by
  have raises : ctx.host.signalError = SignalPolicy.raise.signal := by
    rw [serves.host]
    rfl
  exact ctx.fail_apply raises fault s

theorem Serves.conclude_apply (serves : Serves ctx conv table store)
    (answer : Except Obstacle (Item Value)) (s : ReadState Store) :
    ∃ s', s'.host = s.host ∧ s'.source = s.source ∧
      (ctx.conclude (fun item => do return (← formReply item).getD ctx.host.endOfStream) answer) s =
        answerAt s' answer := by
  match answer with
  | .ok (.form v) => exact ⟨s, rfl, rfl, rfl⟩
  | .ok .comment =>
    rw [serves.endOfStream_eq]
    exact ⟨s, rfl, rfl, rfl⟩
  | .ok .endOfInput =>
    rw [serves.endOfStream_eq]
    exact ⟨s, rfl, rfl, rfl⟩
  | .error (.fault fault) =>
    obtain ⟨trace, fails⟩ := serves.fail_apply (α := Value) fault s
    exact ⟨{ s with trace }, rfl, rfl, fails⟩
  | .error (.value fault) => exact ⟨s, rfl, rfl, rfl⟩

structure Reached (s : ReadState Store) (store : Store) (s' : ReadState Store) (rest : List Char) :
    Prop where
  agrees : Agrees 0 store.heap.pairs.size store s'.host
  stands : s'.Stands s'.host rest
  precedes : s.source.Precedes s'.source

theorem Reached.trans {s s₁ s' : ReadState Store} {inner : List Char}
    (first : Reached s store s₁ inner) (second : Reached s₁ s₁.host s' rest) :
    Reached s store s' rest where
  agrees := first.agrees.trans (second.agrees.narrow (Nat.le_refl _) first.agrees.size)
  stands := second.stands
  precedes := first.precedes.trans second.precedes

/-- The loop comes to what the text means as a form, from every state alike in which the text is still to
be read. -/
theorem readForm_settles (serves : Serves ctx conv table store)
    (parses : Parses conv .form text outcome rest) :
    ∃ answer store', Agrees 0 store.heap.pairs.size store store' ∧
      Matches table store' store.heap.pairs.size store'.heap.pairs.size answer outcome ∧
      ∀ s : ReadState Store, s.Stands store text →
        ∃ s', s'.Stands store' rest ∧ s.source.Precedes s'.source ∧
          ctx.readForm none s = answerAt s' answer := by
  obtain ⟨few, answer, store', agrees, matched, becomes⟩ := parses.settled store serves
  refine ⟨answer, store', agrees, matched, fun s stands => ?_⟩
  let bound := max few (3 * s.source.remaining.length + 2)
  have same := ctx.readForm_eq_form s (Nat.le_max_right few (3 * s.source.remaining.length + 2))
  have advances := (Advances.bind (Context.Recursive.advances ctx bound).1 fun form =>
    .pure (form.getD ctx.host.endOfStream)) s
  obtain ⟨s₁, stands₁, ends⟩ := (becomes bound (Nat.le_max_left _ _)).bind
    (fun form => (pure (form.getD ctx.host.endOfStream) : ReadM Store Value)) s stands
  rw [ctx.conclude_bind] at ends
  obtain ⟨s', host, source, result⟩ := serves.conclude_apply answer s₁
  refine ⟨s', ⟨host.trans stands₁.host, ?_, ?_⟩, ?_, same.trans (ends.trans result)⟩
  · rw [source]
    exact stands₁.remaining
  · rw [source]
    exact stands₁.ending
  · rw [ends.trans result] at advances
    cases answer <;> exact advances

theorem readForm_of_parses (serves : Serves ctx conv table store) {s : ReadState Store}
    (stands : s.Stands store text) (parses : Parses conv .form text outcome rest) :
    ∃ answer s', Reached s store s' rest ∧
      Matches table s'.host store.heap.pairs.size s'.host.heap.pairs.size answer outcome ∧
      ctx.readForm none s = answerAt s' answer := by
  obtain ⟨answer, store', agrees, matched, reads⟩ := readForm_settles serves parses
  obtain ⟨s', stands', precedes, read⟩ := reads s stands
  obtain rfl : s'.host = store' := stands'.host
  exact ⟨answer, s', ⟨agrees, stands', precedes⟩, matched, read⟩

/-- A value that was read is what the text means, unless it says that the text has ended. -/
theorem Serves.exists_form_of_readForm (serves : Serves ctx conv table store) {s s' : ReadState Store}
    {v : Value} (stands : s.Stands store text)
    (reads : ctx.readForm none s = .ok v s') (there : v ≠ .sentinel .endOfStream) :
    ∃ d, Parses conv .form text (.ok (.form d)) s'.source.remaining ∧
      store.Agrees 0 store.heap.pairs.size s'.host ∧
      Denotes table s'.host store.heap.pairs.size s'.host.heap.pairs.size v d := by
  obtain ⟨outcome, inner, parses⟩ := (Parses.total conv text).form
  obtain ⟨answer, s₁, reached, matched, read⟩ := readForm_of_parses serves stands parses
  rw [reads] at read
  cases matched with
  | form denotes =>
    cases read
    exact ⟨_, reached.stands.remaining ▸ parses, reached.agrees, denotes⟩
  | comment => exact absurd rfl parses.ne_comment
  | endOfInput =>
    cases read
    exact absurd rfl there
  | error obstacle => cases read

theorem Serves.eq_endOfStream (serves : Serves ctx conv table store) {store' : Store} {lo hi : Nat}
    {v : Value} {d : Datum} (denotes : Denotes table store' lo hi v d)
    (other : d ≠ .sentinel .endOfStream) : ctx.host.eq v ctx.host.endOfStream = false := by
  rw [serves.eq_apply, serves.endOfStream_eq, beq_eq_false_iff_ne]
  rintro rfl
  cases denotes
  exact other rfl

theorem readFormsWithin_of_parsesAll {ds : List Datum} {obstacle : Option Obstacle}
    (all : ParsesAll conv text ds obstacle rest) {store : Store} {s : ReadState Store}
    (serves : Serves ctx conv table store) (stands : s.Stands store text) {bound : List Char}
    (enough : text.length ≤ bound.length) (done : List Value) :
    ∃ values s', Reached s store s' rest ∧
      DenotesAll table s'.host store.heap.pairs.size s'.host.heap.pairs.size values ds ∧
      ctx.readFormsWithin none bound done s =
        ⟨done.reverse ++ values, obstacle.map (·.failure s'.source), s'⟩ := by
  induction all generalizing store s bound done with
  | stop end_ =>
    obtain ⟨answer, s', reached, matched, read⟩ := readForm_of_parses serves stands end_
    cases matched with
    | endOfInput =>
      refine ⟨[], s', reached, .nil, ?_⟩
      unfold Context.readFormsWithin
      simp [read, answerAt, Item.value, serves.eq_apply, serves.endOfStream_eq]
  | fail error =>
    obtain ⟨answer, s', reached, matched, read⟩ := readForm_of_parses serves stands error
    cases matched with
    | error obstacle =>
      refine ⟨[], s', reached, .nil, ?_⟩
      unfold Context.readFormsWithin
      simp [read, answerAt]
  | @form text inner rest d ds obstacle first others ih =>
    obtain ⟨answer, s₁, reached, matched, read⟩ := readForm_of_parses serves stands first
    cases matched with
    | @form v d denotes =>
      -- The bound counts characters, and a form takes at least one of them.
      have shorter := first.length_lt rfl
      obtain ⟨_, bound, rfl⟩ : ∃ c others, bound = c :: others := by
        cases bound with
        | nil => exact absurd (Nat.lt_of_lt_of_le shorter enough) (by simp)
        | cons c others => exact ⟨c, others, rfl⟩
      rw [List.length_cons] at enough
      have room := reached.agrees.size
      obtain ⟨values, s', reached', all, reads⟩ :=
        ih (serves.agrees reached.agrees) reached.stands (by omega : inner.length ≤ bound.length)
          (v :: done)
      refine ⟨v :: values, s', reached.trans reached', .cons ?_ (all.imp fun _ _ later => ?_), ?_⟩
      · exact (denotes.agrees (reached'.agrees.narrow (Nat.zero_le _) (Nat.le_refl _))).widen
          (Nat.le_refl _) reached'.agrees.size
      · exact later.widen room (Nat.le_refl _)
      · have more := serves.eq_endOfStream denotes (first.ne_endOfStream)
        unfold Context.readFormsWithin
        simp only [read, answerAt, Item.value, more]
        simpa using reads

theorem readForms_of_parsesAll {ds : List Datum} {obstacle : Option Obstacle}
    (all : ParsesAll conv text ds obstacle rest) {s : ReadState Store}
    (serves : Serves ctx conv table store) (stands : s.Stands store text) :
    ∃ values s', Reached s store s' rest ∧
      DenotesAll table s'.host store.heap.pairs.size s'.host.heap.pairs.size values ds ∧
      ctx.readForms none s = ⟨values, obstacle.map (·.failure s'.source), s'⟩ :=
  readFormsWithin_of_parsesAll all serves stands (Nat.le_of_eq (by rw [stands.remaining])) []

theorem exists_symbol (conv : Convention) (nilSymbol? : Option Value)
    (known : table.index < store.symbols.tables.size) (name : String) :
    ∃ v store', (conv.host table nilSymbol?).internSymbol name store = .ok v store' ∧
      Denotes table store' 0 0 v (.symbol name) ∧ (∀ lo hi, Agrees lo hi store store') ∧
      table.index < store'.symbols.tables.size := by
  have agrees (lo hi : Nat) := store.agrees_learn lo hi table name
  exact ⟨_, store.learn table name, rfl, .symbol (SymbolTables.find?_intern known name), agrees,
    (agrees 0 0).known known⟩

theorem exists_context {nilSymbol? : Option Value} (known : table.index < store.symbols.tables.size)
    (nilAlias : Option.Rel (fun v name => Denotes table store 0 0 v (.symbol name)) nilSymbol?
      conv.nilAlias) :
    ∃ ctx store', Context.create (conv.host table nilSymbol?) conv.bracketLists store =
        .ok ctx store' ∧ Serves ctx conv table store' ∧ ∀ lo hi, Agrees lo hi store store' := by
  obtain ⟨dot, s₁, made₁, dots, agrees₁, known⟩ := exists_symbol conv nilSymbol? known "."
  obtain ⟨quote, s₂, made₂, quotes, agrees₂, known⟩ :=
    exists_symbol conv nilSymbol? known QuoteMark.quote.symbolName
  obtain ⟨quasi, s₃, made₃, quasis, agrees₃, known⟩ :=
    exists_symbol conv nilSymbol? known QuoteMark.quasiquote.symbolName
  obtain ⟨unquote, s₄, made₄, unquotes, agrees₄, known⟩ :=
    exists_symbol conv nilSymbol? known QuoteMark.unquote.symbolName
  obtain ⟨splicing, s₅, made₅, splicings, agrees₅, known⟩ :=
    exists_symbol conv nilSymbol? known QuoteMark.unquoteSplicing.symbolName
  -- A symbol that was found stays what it is while those behind it are looked up.
  have behind₃ (lo hi : Nat) := (agrees₄ lo hi).trans (agrees₅ lo hi)
  have behind₂ (lo hi : Nat) := (agrees₃ lo hi).trans (behind₃ lo hi)
  have behind₁ (lo hi : Nat) := (agrees₂ lo hi).trans (behind₂ lo hi)
  have whole (lo hi : Nat) := (agrees₁ lo hi).trans (behind₁ lo hi)
  refine ⟨⟨conv.host table nilSymbol?, conv.bracketLists, dot, fun mark =>
    mark.casesOn quote quasi unquote splicing⟩, s₅, ?_, ?_, whole⟩
  · unfold Context.create
    rw [HostM.bind_of_ok made₁, HostM.bind_of_ok made₂, HostM.bind_of_ok made₃,
      HostM.bind_of_ok made₄, HostM.bind_of_ok made₅]
    refine congrArg (fun symbols => EStateM.Result.ok (⟨_, _, dot, symbols⟩ : Context _ _) s₅) ?_
    funext mark
    cases mark <;> rfl
  · refine ⟨rfl, rfl, dots.agrees (behind₁ 0 0), fun mark => ?_, ?_, known⟩
    · cases mark with
      | quote => exact quotes.agrees (behind₂ 0 0)
      | quasiquote => exact quasis.agrees (behind₃ 0 0)
      | unquote => exact unquotes.agrees (agrees₅ 0 0)
      | unquoteSplicing => exact splicings
    · generalize conv.nilAlias = alias_ at nilAlias
      cases nilAlias with
      | none => exact .none
      | some symbol => exact .some (symbol.agrees (whole 0 0))

/-- Reads all forms of a source over a store, with the host that a convention describes. -/
def Convention.reading (conv : Convention) (table : TableId) (store : Store) (source : Source) :
    Reading Store Value :=
  let host := Store.host ⟨table, conv.interpretEscapes, .all, true, .raise⟩
  match host.withNilAlias conv.nilAlias store with
  | .ok host store => readAll host ⟨conv.bracketLists, none⟩ store source
  | .error failure store => ⟨[], some failure, ⟨store, source, #[]⟩⟩

theorem exists_host (conv : Convention) (known : table.index < store.symbols.tables.size) :
    ∃ nilSymbol? store',
      (Store.host ⟨table, conv.interpretEscapes, .all, true, .raise⟩).withNilAlias conv.nilAlias
        store = .ok (conv.host table nilSymbol?) store' ∧
      Option.Rel (fun v name => Denotes table store' 0 0 v (.symbol name)) nilSymbol?
        conv.nilAlias ∧
      (∀ lo hi, Agrees lo hi store store') ∧ table.index < store'.symbols.tables.size := by
  cases conv.nilAlias with
  | none => exact ⟨none, store, rfl, .none, fun lo hi => .refl lo hi store, known⟩
  | some name =>
    obtain ⟨v, store', made, symbol, agrees, known⟩ := exists_symbol conv none known name
    refine ⟨some v, store', ?_, .some symbol, agrees, known⟩
    exact HostM.bind_of_ok made

theorem Convention.reading_of_parsesAll {ds : List Datum} {obstacle : Option Obstacle}
    {source : Source} (all : ParsesAll conv source.remaining ds obstacle rest)
    (ending : source.ending = .endOfInput) (known : table.index < store.symbols.tables.size) :
    ∃ values final, conv.reading table store source =
        ⟨values, obstacle.map (·.failure final.source), final⟩ ∧
      Agrees 0 store.heap.pairs.size store final.host ∧
      DenotesAll table final.host store.heap.pairs.size final.host.heap.pairs.size values ds ∧
      final.source.remaining = rest ∧ source.Precedes final.source := by
  obtain ⟨nilSymbol?, s₁, hosts, nilAlias, agrees₁, known⟩ := exists_host conv known
  obtain ⟨ctx, s₂, created, serves, agrees₂⟩ := exists_context known nilAlias
  have agrees (lo hi : Nat) := (agrees₁ lo hi).trans (agrees₂ lo hi)
  have stands : (⟨s₂, source, #[]⟩ : ReadState Store).Stands s₂ source.remaining :=
    ⟨rfl, rfl, ending⟩
  obtain ⟨values, final, reached, denotes, reads⟩ := readForms_of_parsesAll all serves stands
  have before : Agrees 0 store.heap.pairs.size s₂ final.host :=
    reached.agrees.narrow (Nat.le_refl _) (agrees 0 0).size
  refine ⟨values, final, ?_, (agrees _ _).trans before, denotes.imp fun v d later => ?_,
    reached.stands.remaining, reached.precedes⟩
  · simp only [reading, hosts]
    exact (readAll_of_create created none source).trans reads
  · exact later.widen (agrees 0 0).size (Nat.le_refl _)

theorem Convention.reading_without_alias (bracketLists interpretEscapes : Bool) (table : TableId)
    (store : Store) (source : Source) :
    Convention.reading ⟨bracketLists, interpretEscapes, none⟩ table store source =
      readAll (Store.host ⟨table, interpretEscapes, .all, true, .raise⟩) ⟨bracketLists, none⟩ store
        source := rfl

end SexprReader
