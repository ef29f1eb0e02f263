import SexprReader.Proofs.Grammar.Names
import SexprReader.Proofs.Reader.Lexing
import SexprReader.Proofs.Store.Readings

namespace SexprReader

open ReadM Store Context.Recursive

section

variable {σ V : Type}

namespace Context

def waitsAtEnd (ctx : Context σ V) (stack : Stack V) (s : ReadState σ) : Bool :=
  match stack, ctx.readDatum none (throw .stalled) s with
  | .datumComment :: _, .ok .endOfInput _ => true
  | _, _ => false

/-- Form after form is read from here on, and at some time the end of input is met while a `#;` waits
for its datum. -/
def endsWaitingWithin (ctx : Context σ V) : (bound : List Char) → Stack V → ReadState σ → Bool
  | bound, stack, s =>
    ctx.waitsAtEnd stack s ||
      match ctx.turn stack s, bound with
      | .ok (.pending next) s', _ :: bound => endsWaitingWithin ctx bound next s'
      | .ok (.finished (some v)) s', _ :: bound =>
        !ctx.host.eq v ctx.host.endOfStream && endsWaitingWithin ctx bound [] s'
      | _, _ => false

theorem endsWaitingWithin_of_leads {ctx : Context σ V} {stack next : Stack V} {s s' : ReadState σ}
    {progress : Progress V} {bound : List Char}
    (leads : Leads ctx (.ok progress s') (ctx.turn stack s))
    (goes : progress = .pending next ∨ next = [] ∧
      ∃ v, progress = .finished (some v) ∧ ctx.host.eq v ctx.host.endOfStream = false)
    (waits : ∀ bound : List Char, s'.source.remaining.length ≤ bound.length →
      ctx.endsWaitingWithin bound next s' = true)
    (enough : s.source.remaining.length ≤ bound.length) :
    ctx.endsWaitingWithin bound stack s = true := by
  have there : progress ≠ .finished none := by
    rcases goes with rfl | ⟨-, v, rfl, -⟩ <;> simp
  generalize first : ctx.turn stack s = result at leads
  induction leads generalizing stack s bound with
  | refl =>
    have shorter := length_lt_of_turn first there
    match bound with
    | [] =>
      rw [List.length_nil] at enough
      omega
    | _ :: bound =>
      rw [List.length_cons] at enough
      have rest := waits bound (by omega)
      unfold endsWaitingWithin
      rcases goes with rfl | ⟨rfl, v, rfl, other⟩
      · simp [first, rest]
      · simp [first, rest, other]
  | @turn inner s₁ onward ih =>
    have shorter := length_lt_of_turn first (by simp)
    match bound with
    | [] =>
      rw [List.length_nil] at enough
      omega
    | _ :: bound =>
      rw [List.length_cons] at enough
      have room : s₁.source.remaining.length ≤ bound.length := by omega
      have rest := ih room rfl
      unfold endsWaitingWithin
      simp [first, rest]

end Context

/-- Reading all forms of a source meets its end while a `#;` waits for its datum. -/
def endsWaiting (host : Host σ V) (options : Options σ V) (state : σ) (source : Source) : Bool :=
  match Context.create host options.bracketLists state with
  | .error _ _ => false
  | .ok ctx state => ctx.endsWaitingWithin source.remaining [] ⟨state, source, #[]⟩

end

variable {ctx : Context Store Value} {conv : Convention} {table : TableId} {store : Store}
  {text rest : List Char}

theorem Serves.item_leads {item : Item Datum} (serves : Serves ctx conv table store)
    {s : ReadState Store} (stands : s.Stands store text)
    (parses : Parses conv .item text (.ok item) rest) {stack : Stack Value}
    (takes : stack.TakesAnything) :
    ∃ answer s', Context.Leads ctx (ctx.deliver stack answer s') (ctx.turn stack s) ∧
      Matches table s'.host store.heap.pairs.size s'.host.heap.pairs.size (.ok answer) (.ok item) ∧
      s'.Stands s'.host rest ∧ Serves ctx conv table s'.host := by
  obtain ⟨few, answer, store', agrees, matched, becomes⟩ := parses.settled store text serves rfl
  obtain ⟨answer, rfl⟩ : ∃ result, answer = .ok result := by
    cases matched <;> exact ⟨_, rfl⟩
  let bound := max few (3 * s.source.remaining.length + 1)
  obtain ⟨s', stands', reads⟩ := becomes bound (Nat.le_max_left _ _) s stands
  obtain rfl := stands'.host
  have leads := (Context.Recursive.leads ctx bound).2.1 stack s (Nat.le_max_right _ _)
  rw [bind_of_ok reads, ← Context.turn_of_takesAnything takes] at leads
  exact ⟨answer, s', leads, matched, stands', serves.agrees agrees⟩

theorem Serves.datumComment_leads {inner : List Char} (serves : Serves ctx conv table store)
    {s : ReadState Store} (stands : s.Stands store text)
    (scans : conv.dialect.scan text = (.opening .datumComment, inner)) {stack : Stack Value}
    (takes : stack.TakesAnything) :
    ∃ s', Context.Leads ctx (.ok (.pending (.datumComment :: stack)) s') (ctx.turn stack s) ∧
      s'.Stands store inner := by
  rw [← serves.dialect_eq] at scans
  obtain ⟨s', stands', reads⟩ := ctx.readDatum_becomes store (throw .stalled) text s stands
  rw [scans] at reads stands'
  refine ⟨s', ?_, stands'⟩
  rw [Context.turn_of_takesAnything takes, Context.readPart, bind_of_ok reads]
  exact .refl

theorem Parses.endsWaitingWithin {task : Task} {outcome : Outcome}
    (parses : Parses conv task text outcome rest) (ends : outcome = .ok .endOfInput)
    (single : ∀ bracket before, task ≠ .members bracket before) {store : Store}
    (serves : Serves ctx conv table store) {s : ReadState Store} (stands : s.Stands store text)
    (outer : Stack Value) {bound : List Char} (enough : s.source.remaining.length ≤ bound.length) :
    ctx.endsWaitingWithin bound (.datumComment :: outer) s = true := by
  -- The induction follows the innermost of the `#;` that wait, so the stack and the store are
  -- general.
  have takes (outer : Stack Value) : Stack.TakesAnything (.datumComment :: outer) := trivial
  induction parses generalizing store s outer bound with
  | @atom text rest lexeme _ scans means =>
    subst ends
    rw [Convention.eq_endOfInput_of_atom means, ← serves.dialect_eq] at scans
    obtain ⟨s', -, reads⟩ := ctx.readDatum_becomes store (throw .stalled) text s stands
    rw [scans] at reads
    have now : ctx.waitsAtEnd (.datumComment :: outer) s = true := by
      simp only [Context.waitsAtEnd, reads]
      rfl
    unfold Context.endsWaitingWithin
    rw [now, Bool.true_or]
  | @quoted _ _ _ _ outcome _ _ _ =>
    match outcome, ends with
    | .ok .endOfInput, ends => cases ends
  | @discarded _ _ _ outcome scans _ ih =>
    match outcome, ends with
    | .ok .endOfInput, _ =>
      obtain ⟨s', leads, stands'⟩ := serves.datumComment_leads stands scans (takes outer)
      refine Context.endsWaitingWithin_of_leads leads (.inl rfl) (fun bound room => ?_) enough
      exact ih rfl (by simp) serves stands' _ room
  | list _ members _ =>
    obtain ⟨d, same⟩ := members.members_outcome ends
    cases same
  | skip comment _ _ ih =>
    obtain ⟨answer, s', leads, matched, stands', serves'⟩ :=
      serves.item_leads stands comment (takes outer)
    cases matched
    refine Context.endsWaitingWithin_of_leads leads (.inl rfl) (fun bound room => ?_) enough
    exact ih ends (by simp) serves' stands' outer room
  | stop _ _ ih => exact ih ends (by simp) serves stands outer enough
  | _ => exact absurd rfl (single _ _)

theorem Dangles.endsWaitingWithin (dangles : Dangles conv text) {store : Store}
    (serves : Serves ctx conv table store) {s : ReadState Store} (stands : s.Stands store text)
    {bound : List Char} (enough : s.source.remaining.length ≤ bound.length) :
    ctx.endsWaitingWithin bound [] s = true := by
  have takes : Stack.TakesAnything ([] : Stack Value) := trivial
  induction dangles generalizing store s bound with
  | here scans end_ =>
    obtain ⟨s', leads, stands'⟩ := serves.datumComment_leads stands scans takes
    refine Context.endsWaitingWithin_of_leads leads (.inl rfl) (fun bound room => ?_) enough
    exact end_.endsWaitingWithin rfl (by simp) serves stands' [] room
  | later first there _ ih =>
    obtain ⟨answer, s', leads, matched, stands', serves'⟩ := serves.item_leads stands first takes
    have next (bound : List Char) (room : s'.source.remaining.length ≤ bound.length) :=
      ih serves' stands' room
    cases matched with
    | form denotes =>
      have other := serves'.eq_endOfStream denotes (Parses.stop first (by simp)).ne_endOfStream
      exact Context.endsWaitingWithin_of_leads leads (.inr ⟨rfl, _, rfl, other⟩) next enough
    | comment => exact Context.endsWaitingWithin_of_leads leads (.inl rfl) next enough
    | endOfInput => exact absurd rfl there

def Bracket.opener : Bracket → List Char
  | .round => ['(']
  | .square => ['[']
  | .vector => ['#', '(']

theorem Convention.scan_opener {bracket : Bracket}
    (allowed : bracket = .square → conv.bracketLists = true) (inner : List Char) :
    conv.dialect.scan (bracket.opener ++ inner) = (.opening (.list bracket), inner) := by
  cases bracket with
  | round => rfl
  | square =>
    have starter : Starter.ofChar conv.dialect.bracketLists '[' = .list .square := by
      rw [dialect, allowed rfl]
      decide
    have blanks : behindBlanks false ('[' :: inner) = '[' :: inner := by
      simp [behindBlanks, Lexeme.isWhitespace]
    simp [Bracket.opener, Dialect.scan, blanks, Dialect.scanStarted, starter]
  | vector => rfl

theorem Parses.all_of_members {bracket : Bracket} {d : Datum}
    (allowed : bracket = .square → conv.bracketLists = true)
    (members : Parses conv (.members bracket []) text (.ok (.form d)) []) :
    ParsesAll conv (bracket.opener ++ text) [d] none [] :=
  .form (.stop (.list (conv.scan_opener allowed text) members) (by simp))
    (.stop (.stop (.atom rfl rfl) (by simp)))

theorem Body.enclosed {ds : List Datum} (body : Body conv text ds)
    (plain : ∀ d ∈ ds, d.isDot = false) {bracket : Bracket}
    (allowed : bracket = .square → conv.bracketLists = true) :
    ParsesAll conv (bracket.opener ++ (text ++ ['\n', bracket.closer])) [bracket.enclose ds .nil] none
      [] := by
  refine Parses.all_of_members allowed (body.members plain (.close ?_))
  cases bracket <;> rfl

theorem Body.dotted {ds : List Datum} {d : Datum} {form behind : List Char} (body : Body conv text ds)
    (plain : ∀ d ∈ ds, d.isDot = false) (some : ds ≠ []) (noAlias : conv.nilAlias = none)
    (parses : Parses conv .form (form ++ behind) (.ok (.form d)) behind) :
    ParsesAll conv (Bracket.round.opener ++ (text ++ '\n' :: '.' :: ' ' :: (form ++ ['\n', ')'])))
      [.ofList ds d] none [] := by
  have replaced : Parses conv .form (form ++ ['\n', ')']) (.ok (.form d)) ['\n', ')'] :=
    parses.replace rfl (.inl rfl)
  have effect : Bracket.round.effect ds (.ok (.form (.symbol "."))) = .expectsTail := by
    simp [Bracket.effect, Datum.isDot, some]
  have unclosed : Bracket.round.Unclosed ('\n' :: '.' :: ' ' :: (form ++ ['\n', ')'])) :=
    ⟨'.', _, rfl, by decide⟩
  refine Parses.all_of_members (by simp) (body.members plain ?_)
  have dot := (conv.parses_dot noAlias (form ++ ['\n', ')'])).item_of_behindBlanks
    (behindBlanks_blank (c := '\n') rfl _)
  have tail := replaced.form_of_behindBlanks (behindBlanks_blank (c := ' ') rfl _)
  exact .tail unclosed dot effect tail rfl

/-- A reading came to a single form, which looks like the value that is built behind it. -/
def Reading.IsSingle (reading : Reading Store Value) (build : Heap → Value × Heap) : Prop :=
  let heap := reading.final.host.heap
  reading.failure = none ∧ ∃ form tree, reading.forms = [form] ∧ heap.tree? form = some tree ∧
    (build heap).2.tree? (build heap).1 = some tree

theorem DenotesAll.plain {lo hi : Nat} {values : List Value} {ds : List Datum}
    (all : DenotesAll table store lo hi values ds)
    (plain : ∀ symbol, .symbol symbol ∈ values → symbol.name ≠ ".") :
    ∀ d ∈ ds, d.isDot = false := by
  induction all with
  | nil => simp
  | @cons v d values ds denotes _ ih =>
    intro e member
    rcases List.mem_cons.mp member with rfl | later
    · cases denotes with
      | symbol found =>
        have other := plain _ (List.mem_cons_self ..)
        rw [SymbolTables.find?_name found] at other
        simpa [Datum.isDot] using other
      | _ => rfl
    · exact ih (fun symbol inside => plain symbol (List.mem_cons_of_mem _ inside)) e later

abbrev plainHost (table : TableId) (interpretEscapes : Bool) : Host Store Value :=
  Store.host ⟨table, interpretEscapes, .all, true, .raise⟩

section

variable {bracketLists interpretEscapes : Bool}

theorem exists_plain_context (known : table.index < store.symbols.tables.size) :
    ∃ ctx store', Context.create (plainHost table interpretEscapes) bracketLists store =
        .ok ctx store' ∧ Serves ctx ⟨bracketLists, interpretEscapes, none⟩ table store' ∧
      ∀ lo hi, Agrees lo hi store store' := by
  let conv : Convention := ⟨bracketLists, interpretEscapes, none⟩
  have without : Option.Rel (fun v name => Denotes table store 0 0 v (.symbol name)) none
      conv.nilAlias := .none
  obtain ⟨ctx, store', created, serves, agrees⟩ := exists_context known without
  exact ⟨ctx, store', created, serves, agrees⟩

theorem Dangles.endsWaiting {source : Source}
    (dangles : Dangles ⟨bracketLists, interpretEscapes, none⟩ source.remaining)
    (ending : source.ending = .endOfInput) (known : table.index < store.symbols.tables.size) :
    SexprReader.endsWaiting (plainHost table interpretEscapes) ⟨bracketLists, none⟩ store source =
      true := by
  obtain ⟨ctx, store', created, serves, -⟩ := exists_plain_context known
  have stands : (⟨store', source, #[]⟩ : ReadState Store).Stands store' source.remaining :=
    ⟨rfl, rfl, ending⟩
  rw [SexprReader.endsWaiting, created]
  exact dangles.endsWaitingWithin serves stands (Nat.le_refl _)

theorem readOne_of_parses {outcome : Outcome} {s : ReadState Store} (stands : s.Stands store text)
    (known : table.index < store.symbols.tables.size)
    (parses : Parses ⟨bracketLists, interpretEscapes, none⟩ .form text outcome rest) :
    ∃ answer s', Reached s store s' rest ∧
      Matches table s'.host store.heap.pairs.size s'.host.heap.pairs.size answer outcome ∧
      readOne (plainHost table interpretEscapes) ⟨bracketLists, none⟩ .source s =
        answerAt s' answer := by
  obtain ⟨ctx, store', created, serves, agrees⟩ := exists_plain_context known
  have stands' : ({ s with host := store' } : ReadState Store).Stands store' text :=
    ⟨rfl, stands.remaining, stands.ending⟩
  obtain ⟨answer, s', reached, matched, read⟩ := readForm_of_parses serves stands' parses
  have first : hosted (Context.create (plainHost table interpretEscapes) bracketLists) s =
      .ok ctx { s with host := store' } := by
    rw [hosted_apply, stands.host, created]
  have further := reached.agrees.narrow (Nat.le_refl 0) (agrees 0 0).size
  refine ⟨answer, s', ⟨(agrees _ _).trans further, reached.stands, reached.precedes⟩,
    matched.widen (agrees 0 0).size (Nat.le_refl _), ?_⟩
  rw [readOne, bind_of_ok first]
  exact read

theorem Reading.isSingle_of_parsesAll {source : Source} {d : Datum} {build : Heap → Value × Heap}
    (all : ParsesAll ⟨bracketLists, interpretEscapes, none⟩ source.remaining [d] none rest)
    (ending : source.ending = .endOfInput) (known : table.index < store.symbols.tables.size)
    (builds : ∀ store', Agrees 0 store.heap.pairs.size store store' →
      (build store'.heap).2.tree? (build store'.heap).1 = some (d.map (store'.resolve table))) :
    (readAll (plainHost table interpretEscapes) ⟨bracketLists, none⟩ store source).IsSingle
      build := by
  obtain ⟨values, final, reads, agrees, denotes, -⟩ :=
    Convention.reading_of_parsesAll all ending known
  rw [Convention.reading_without_alias] at reads
  rw [reads]
  cases denotes with
  | cons first others =>
    cases others
    exact ⟨rfl, _, _, rfl, first.tree?, builds final.host agrees⟩

theorem body_of_readAll {source : Source} {first : Reading Store Value}
    (reads : first = readAll (plainHost table interpretEscapes) ⟨bracketLists, none⟩ store source)
    (ending : source.ending = .endOfInput) (known : table.index < store.symbols.tables.size)
    (complete : first.failure = none)
    (plain : ∀ symbol, .symbol symbol ∈ first.forms → symbol.name ≠ ".")
    (settled : endsWaiting (plainHost table interpretEscapes) ⟨bracketLists, none⟩ store source =
      false) :
    ∃ ds, Body ⟨bracketLists, interpretEscapes, none⟩ source.remaining ds ∧
      (∀ d ∈ ds, d.isDot = false) ∧
      DenotesAll table first.final.host store.heap.pairs.size first.final.host.heap.pairs.size
        first.forms ds ∧
      Agrees 0 store.heap.pairs.size store first.final.host := by
  let conv : Convention := ⟨bracketLists, interpretEscapes, none⟩
  obtain ⟨ds, obstacle, rest, all⟩ := ParsesAll.total conv source.remaining
  obtain ⟨values, final, comes, agrees, denotes, -⟩ := conv.reading_of_parsesAll all ending known
  rw [Convention.reading_without_alias, ← reads] at comes
  rw [comes] at complete plain ⊢
  obtain rfl : obstacle = none := Option.map_eq_none_iff.mp complete
  refine ⟨ds, all.body.resolve_right fun dangles => ?_, denotes.plain plain, denotes, agrees⟩
  have waiting := dangles.endsWaiting ending known
  rw [settled] at waiting
  cases waiting

section

variable {ds : List Datum} {forms : List Value} {lo : Nat} (plain : ∀ d ∈ ds, d.isDot = false)
  (body : Body ⟨bracketLists, interpretEscapes, none⟩ text ds)
  (denotes : DenotesAll table store lo store.heap.pairs.size forms ds)
  (known : table.index < store.symbols.tables.size)

include plain body denotes known

theorem Body.isSingle_enclosed (line column : Int) (name : Option String) (bracket : Bracket)
    (allowed : bracket = .square → bracketLists = true) :
    (readAll (plainHost table interpretEscapes) ⟨bracketLists, none⟩ store
      (.ofText (bracket.opener ++ (text ++ ['\n', bracket.closer])) line column name)).IsSingle
        fun heap => if bracket = .vector then heap.makeVector forms else heap.ofList forms .nil := by
  refine Reading.isSingle_of_parsesAll (body.enclosed plain allowed) rfl known ?_
  intro store' agrees
  have kept := denotes.agrees (agrees.narrow (Nat.zero_le lo) (Nat.le_refl _))
  cases bracket with
  | round => exact kept.tree?_ofList (.sentinel .nil) agrees.size
  | square => exact kept.tree?_ofList (.sentinel .nil) agrees.size
  | vector => exact kept.tree?_makeVector

/-- With a form behind a dot, a body is read as a list that ends in the form. -/
theorem Body.isSingle_dotted (some : ds ≠ []) {s s' : ReadState Store} {form : List Char} {v : Value}
    (stands : s.Stands store (form ++ s'.source.remaining))
    (one : readOne (plainHost table interpretEscapes) ⟨bracketLists, none⟩ .source s = .ok v s')
    (other : v ≠ .sentinel .endOfStream) (line column : Int) (name : Option String) :
    (readAll (plainHost table interpretEscapes) ⟨bracketLists, none⟩ s'.host
      (.ofText ('(' :: (text ++ '\n' :: '.' :: ' ' :: (form ++ ['\n', ')']))) line column
        name)).IsSingle (·.ofList forms v) := by
  obtain ⟨outcome, rest, parses⟩ :=
    (Parses.total ⟨bracketLists, interpretEscapes, none⟩ (form ++ s'.source.remaining)).form
  obtain ⟨answer, s'', reached, matched, comes⟩ := readOne_of_parses stands known parses
  rw [one] at comes
  cases matched with
  | @form v' d tails =>
    cases comes
    obtain rfl : s'.source.remaining = rest := reached.stands.remaining
    have known' := reached.agrees.known known
    refine Reading.isSingle_of_parsesAll (body.dotted plain some rfl parses) rfl known' ?_
    intro store' agrees
    have before := reached.agrees.trans (agrees.narrow (Nat.le_refl _) reached.agrees.size)
    have kept := denotes.agrees (before.narrow (Nat.zero_le lo) (Nat.le_refl _))
    have tail := tails.agrees (agrees.narrow (Nat.zero_le _) (Nat.le_refl _))
    have wide := kept.imp fun _ _ denotes => denotes.widen (Nat.zero_le _) before.size
    exact DenotesAll.tree?_ofList wide (tail.widen (Nat.zero_le _) agrees.size) (Nat.le_refl _)
  | comment =>
    cases comes
    exact absurd rfl other
  | endOfInput =>
    cases comes
    exact absurd rfl other
  | error obstacle => cases comes

end

end

/-- A text that is read without an error can be the body of a list or a vector, and gives it the
forms that it has by itself. This takes that none of the forms is a dot and that no `#;` waits for
its datum at the end of the text. Behind a dot the list takes any form for its tail. -/
theorem readAll_enclosed_body (table : TableId) (interpretEscapes bracketLists : Bool) (store : Store)
    (known : table.index < store.symbols.tables.size) (text : List Char) (line column : Int)
    (name : Option String) :
    let host := Store.host ⟨table, interpretEscapes, .all, true, .raise⟩
    let read := fun store text =>
      readAll host ⟨bracketLists, none⟩ store (.ofText text line column name)
    let first := read store text
    first.failure = none →
    (∀ symbol, .symbol symbol ∈ first.forms → symbol.name ≠ ".") →
    endsWaiting host ⟨bracketLists, none⟩ store (.ofText text line column name) = false →
      (read first.final.host ("(".toList ++ text ++ "\n)".toList)).IsSingle
        (·.ofList first.forms .nil) ∧
      (read first.final.host ("#(".toList ++ text ++ "\n)".toList)).IsSingle
        (·.makeVector first.forms) ∧
      (bracketLists = true → (read first.final.host ("[".toList ++ text ++ "\n]".toList)).IsSingle
        (·.ofList first.forms .nil)) ∧
      ∀ (s s' : ReadState Store) (form : List Char) (v : Value), first.forms ≠ [] →
        s.Stands first.final.host (form ++ s'.source.remaining) →
        readOne host ⟨bracketLists, none⟩ .source s = .ok v s' → v ≠ .sentinel .endOfStream →
        (read s'.host ("(".toList ++ text ++ "\n. ".toList ++ form ++ "\n)".toList)).IsSingle
          (·.ofList first.forms v) := by
  intro host read first complete plain settled
  have reads : first = readAll (plainHost table interpretEscapes) ⟨bracketLists, none⟩ store
    (.ofText text line column name) := rfl
  clear_value first
  obtain ⟨ds, body, plain, denotes, agrees⟩ :=
    body_of_readAll reads rfl known complete plain settled
  have known' := agrees.known known
  have enclosed := body.isSingle_enclosed plain denotes known' line column name
  refine ⟨?_, ?_, fun allowed => ?_, ?_⟩
  · simpa [read, Bracket.opener, Bracket.closer] using enclosed .round (by simp)
  · simpa [read, Bracket.opener, Bracket.closer] using enclosed .vector (by simp)
  · simpa [read, Bracket.opener, Bracket.closer] using enclosed .square fun _ => allowed
  · intro s s' form v some stands one other
    have members : ds ≠ [] := by
      rintro rfl
      exact some (List.forall₂_nil_right_iff.mp denotes)
    have dotted := body.isSingle_dotted plain denotes known' members stands one other line column name
    simpa [read] using dotted

/-- A comment between two forms is left out of the list as well, and `d` can be its tail. -/
theorem readAll_enclosed_comment :
    let host := Store.host .standard
    let read := fun store text => readAll host ⟨false, none⟩ store (.ofText text 1 0 none)
    let first := read .initial "a #;b c".toList
    (read first.final.host "(a #;b c\n)".toList).IsSingle (·.ofList first.forms .nil) ∧
      ∃ v s', readOne host ⟨false, none⟩ .source
          ⟨first.final.host, .ofText "d".toList 1 0 none, #[]⟩ = .ok v s' ∧
        (read s'.host "(a #;b c\n. d\n)".toList).IsSingle (·.ofList first.forms v) := by
  intro host read first
  have forms : first.forms = [.symbol ⟨5, "a"⟩, .symbol ⟨7, "c"⟩] := by decide +kernel
  have plain : ∀ symbol, .symbol symbol ∈ first.forms → symbol.name ≠ "." := by
    rw [forms]
    simp
  obtain ⟨enclosed, -, -, dotted⟩ := readAll_enclosed_body .shared false false .initial (by decide)
    "a #;b c".toList 1 0 none (by decide +kernel) plain (by decide +kernel)
  let s : ReadState Store := ⟨first.final.host, .ofText "d".toList 1 0 none, #[]⟩
  have one : (match readOne host ⟨false, none⟩ .source s with
      | .ok v s' => v == .symbol ⟨8, "d"⟩ && s'.source.remaining.isEmpty
      | .error _ _ => false) = true := by decide +kernel
  cases result : readOne host ⟨false, none⟩ .source s with
  | ok v s' =>
    simp only [result, Bool.and_eq_true, beq_iff_eq, List.isEmpty_iff] at one
    have stands : s.Stands first.final.host ("d".toList ++ s'.source.remaining) :=
      ⟨rfl, by rw [one.2, List.append_nil]; rfl, rfl⟩
    have some : first.forms ≠ [] := by
      rw [forms]
      simp
    have other : v ≠ .sentinel .endOfStream := by
      rw [one.1]
      simp
    exact ⟨enclosed, v, s', rfl, dotted s s' "d".toList v some stands result other⟩
  | error failure s' =>
    rw [result] at one
    cases one

end SexprReader
