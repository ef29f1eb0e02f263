import SexprReader.Proofs.Host.Replay
import SexprReader.Proofs.Store.Comments

namespace SexprReader

open ReadM Store

variable {σ V : Type}

/-- What a caller does with a source. -/
inductive SessionStep where
  | peekChar
  | nextChar
  | readForm
  | readOne
deriving DecidableEq, Repr

namespace Context

def afterStep (ctx : Context σ V) (s : ReadState σ) : SessionStep → ReadState σ
  | .peekChar => finalState (ReadM.peekChar s)
  | .nextChar => finalState (ReadM.nextChar s)
  | .readForm => finalState (ctx.readForm none s)
  | .readOne => finalState (SexprReader.readOne ctx.host ⟨ctx.bracketLists, none⟩ .source s)

def session (ctx : Context σ V) (steps : List SessionStep) (start : ReadState σ) : ReadState σ :=
  steps.foldl ctx.afterStep start

/-- The ways to read the next form in a session. -/
def waysToRead (ctx : Context σ V) : List (ReadM σ V) :=
  [ctx.readForm none, SexprReader.readOne ctx.host ⟨ctx.bracketLists, none⟩ .source]

end Context

/-- Reads forms one at a time, each in a context of its own, up to the first which is the host's
`endOfStream`. They come behind those already `done`, latest first, and there is at most one for each
character of `bound`. -/
def readOneByOneWithin (host : Host σ V) (options : Options σ V) :
    (bound : List Char) → (done : List V) → ReadState σ → Reading σ V
  | bound, done, state =>
    match readOne host options .source state with
    | .error failure final => ⟨done.reverse, some failure, final⟩
    | .ok form next =>
      if host.eq form host.endOfStream then ⟨done.reverse, none, next⟩
      else match bound with
        | [] => ⟨done.reverse, some .stalled, next⟩
        | _ :: bound => readOneByOneWithin host options bound (form :: done) next

/-- Reads forms one at a time until the source ends. -/
def readOneByOne (host : Host σ V) (options : Options σ V) (state : ReadState σ) : Reading σ V :=
  readOneByOneWithin host options state.source.remaining [] state

def Failure.at (place : Place) (name : Option String) : Failure → Failure
  | .reading e => .reading ⟨e.fault, some place.line, some place.column, name⟩
  | failure => failure

variable {ctx : Context Store Value} {conv : Convention} {table : TableId} {store : Store}

theorem Serves.internSymbol_known (serves : Serves ctx conv table store) {v : Value} {name : String}
    (denotes : Denotes table store 0 0 v (.symbol name)) :
    ctx.host.internSymbol name store = .ok v store := by
  rw [serves.internSymbol]
  cases denotes with
  | symbol found =>
    have same := SymbolTables.intern_of_find? found
    simp only [Store.learn, same]

theorem Serves.create_eq (serves : Serves ctx conv table store) :
    Context.create ctx.host ctx.bracketLists store = .ok ctx store := by
  unfold Context.create
  rw [HostM.bind_of_ok (serves.internSymbol_known serves.dot),
    HostM.bind_of_ok (serves.internSymbol_known (serves.quotes .quote)),
    HostM.bind_of_ok (serves.internSymbol_known (serves.quotes .quasiquote)),
    HostM.bind_of_ok (serves.internSymbol_known (serves.quotes .unquote)),
    HostM.bind_of_ok (serves.internSymbol_known (serves.quotes .unquoteSplicing))]
  refine congrArg (fun symbols => EStateM.Result.ok (⟨_, _, _, symbols⟩ : Context _ _) store) ?_
  funext mark
  cases mark <;> rfl

theorem Serves.readOne_eq {s : ReadState Store} (serves : Serves ctx conv table s.host) :
    readOne ctx.host ⟨ctx.bracketLists, none⟩ .source s = ctx.readForm none s :=
  readOne_of_create serves.create_eq

theorem Serves.eq_readForm {s : ReadState Store} (serves : Serves ctx conv table s.host)
    {read : ReadM Store Value} (way : read ∈ ctx.waysToRead) : read s = ctx.readForm none s := by
  simp only [Context.waysToRead, List.mem_cons, List.not_mem_nil, or_false] at way
  obtain rfl | rfl := way
  · rfl
  · exact serves.readOne_eq

theorem readOneByOneWithin_of_readOne {host : Host σ V} {options : Options σ V} {s s' : ReadState σ}
    (same : readOne host options .source s = readOne host options .source s') (bound : List Char)
    (done : List V) :
    readOneByOneWithin host options bound done s = readOneByOneWithin host options bound done s' := by
  unfold readOneByOneWithin
  rw [same]

structure Context.InSession (ctx : Context Store Value) (conv : Convention) (table : TableId)
    (source : Source) (s : ReadState Store) : Prop where
  serves : Serves ctx conv table s.host
  ending : s.source.ending = .endOfInput
  precedes : source.Precedes s.source

namespace Context.InSession

variable {source : Source} {s s' : ReadState Store} (inside : ctx.InSession conv table source s)

include inside

theorem stands : s.Stands s.host s.source.remaining := ⟨rfl, rfl, inside.ending⟩

theorem move (same : s'.host = s.host) (moves : s.source.Precedes s'.source) :
    ctx.InSession conv table source s' := by
  have precedes := inside.precedes.trans moves
  obtain ⟨_, -, -, ending, -⟩ := moves
  exact ⟨same ▸ inside.serves, ending.trans inside.ending, precedes⟩

theorem readForm : ctx.InSession conv table source (finalState (ctx.readForm none s)) := by
  obtain ⟨outcome, rest, parses⟩ := (Parses.total conv s.source.remaining).form
  obtain ⟨answer, s', reached, -, read⟩ := readForm_of_parses inside.serves inside.stands parses
  have final : finalState (ctx.readForm none s) = s' := by
    rw [read]
    cases answer <;> rfl
  rw [final]
  exact ⟨inside.serves.agrees reached.agrees, reached.stands.ending,
    inside.precedes.trans reached.precedes⟩

theorem afterStep (step : SessionStep) : ctx.InSession conv table source (ctx.afterStep s step) := by
  cases step with
  | peekChar =>
    have same : (finalState (ReadM.peekChar s)).host = s.host := by
      rw [peekChar_apply]
      split <;> rfl
    exact inside.move same (Advances.peekChar s)
  | nextChar =>
    have same : (finalState (ReadM.nextChar s)).host = s.host := by
      rw [nextChar_apply]
      split
      · rfl
      · split <;> rfl
    exact inside.move same (Advances.nextChar s)
  | readForm => exact inside.readForm
  | readOne =>
    rw [Context.afterStep, inside.serves.readOne_eq]
    exact inside.readForm

theorem session (steps : List SessionStep) :
    ctx.InSession conv table source (ctx.session steps s) := by
  induction steps generalizing s with
  | nil => exact inside
  | cons step steps ih => exact ih (inside.afterStep step)

theorem readOneByOneWithin_eq (bound : List Char) (done : List Value) :
    readOneByOneWithin ctx.host ⟨ctx.bracketLists, none⟩ bound done s =
      ctx.readFormsWithin none bound done s := by
  have behind := inside.readForm
  induction bound generalizing s done with
  | nil =>
    cases read : ctx.readForm none s <;>
      simp only [readOneByOneWithin, Context.readFormsWithin, inside.serves.readOne_eq, read]
  | cons _ bound ih =>
    unfold readOneByOneWithin Context.readFormsWithin
    rw [inside.serves.readOne_eq]
    cases read : ctx.readForm none s with
    | error e final => rfl
    | ok form next =>
      rw [read] at behind
      have later : ctx.InSession conv table source next := behind
      simp only [ih later (form :: done) later.readForm]

theorem readForm_eq (standing : s'.Stands s.host s.source.remaining) :
    ∃ consumed,
      source.remaining = consumed ++ (finalState (ctx.readForm none s)).source.remaining ∧
      (∀ place, source.place = some place →
        outcome (ctx.readForm none s) =
          (outcome (ctx.readForm none s')).mapError (Failure.at (place.advanceAll consumed) source.name)) ∧
      (finalState (ctx.readForm none s)).host = (finalState (ctx.readForm none s')).host ∧
      (finalState (ctx.readForm none s)).source.remaining =
        (finalState (ctx.readForm none s')).source.remaining := by
  obtain ⟨result, rest, parses⟩ := (Parses.total conv s.source.remaining).form
  obtain ⟨answer, store', -, -, reads⟩ := readForm_settles inside.serves parses
  obtain ⟨t, stands, precedes, read⟩ := reads s inside.stands
  obtain ⟨t', stands', -, read'⟩ := reads s' standing
  obtain ⟨consumed, split, place, -, name⟩ := inside.precedes.trans precedes
  have final (t : ReadState Store) : finalState (answerAt t answer) = t := by
    cases answer <;> rfl
  rw [read, read', final, final]
  refine ⟨consumed, split, fun start placed => ?_, stands.host.trans stands'.host.symm,
    stands.remaining.trans stands'.remaining.symm⟩
  rw [placed] at place
  cases answer with
  | ok item => rfl
  | error obstacle =>
    cases obstacle with
    | fault reason =>
      simp [outcome, answerAt, Obstacle.failure, Except.mapError, Failure.at, Source.line?,
        Source.column?, place, name]
    | value reason => rfl

end Context.InSession

/-- A session leaves nothing behind but the characters it took, whatever errors it came across. Either
way to read, the next form or error is the one that a new source with the characters left would give,
and an error stands where the last character taken since the start stands. So forms that are read one
at a time, each in a context of its own, are the forms which one context reads. -/
theorem session_memoryless (conv : Convention) (table : TableId) (store : Store)
    {host : Host Store Value} {ctx : Context Store Value} {ready opened : Store}
    (known : table.index < store.symbols.tables.size)
    (hosts : (Store.reader table conv.interpretEscapes).withNilAlias conv.nilAlias store =
      .ok host ready)
    (opens : Context.create host conv.bracketLists ready = .ok ctx opened) (text : List Char)
    (line column : Int) (name : Option String) :
    let source : Source := .ofText text line column name
    (∀ trace steps, ∀ read ∈ ctx.waysToRead, ∀ read' ∈ ctx.waysToRead,
      ∀ (line' column' : Int) (name' : Option String) (trace' : Array Event),
        let s := ctx.session steps ⟨opened, source, trace⟩
        let anew : Source := .ofText s.source.remaining line' column' name'
        let result := read s
        let result' := read' ⟨s.host, anew, trace'⟩
        ∃ consumed, text = consumed ++ (finalState result).source.remaining ∧
          outcome result =
            (outcome result').mapError (.at ((Place.start line column).advanceAll consumed) name) ∧
          (finalState result).host = (finalState result').host ∧
          (finalState result).source.remaining = (finalState result').source.remaining) ∧
      readOneByOne host ⟨conv.bracketLists, none⟩ ⟨ready, source, #[]⟩ =
        readAll host ⟨conv.bracketLists, none⟩ ready source := by
  intro source
  have serves : Serves ctx conv table opened :=
    Convention.serves_of_context known ((HostM.bind_of_ok hosts).trans opens)
  have begins (trace : Array Event) : ctx.InSession conv table source ⟨opened, source, trace⟩ :=
    ⟨serves, rfl, .refl source⟩
  obtain ⟨rfl, bracketLists⟩ := Context.of_create opens
  constructor
  · intro trace steps read way read' way' line' column' name' trace' s anew result result'
    have inside : ctx.InSession conv table source s := (begins trace).session steps
    have first : result = ctx.readForm none s := inside.serves.eq_readForm way
    let other : ReadState Store := ⟨s.host, anew, trace'⟩
    have serves' : Serves ctx conv table other.host := inside.serves
    have second : result' = ctx.readForm none other := serves'.eq_readForm way'
    have standing : other.Stands s.host s.source.remaining := ⟨rfl, rfl, rfl⟩
    obtain ⟨consumed, split, outcomes, kept⟩ := inside.readForm_eq standing
    rw [first, second]
    exact ⟨consumed, split, outcomes (.start line column) rfl, kept⟩
  · have opened_eq : readOne ctx.host ⟨conv.bracketLists, none⟩ .source ⟨ready, source, #[]⟩ =
        readOne ctx.host ⟨conv.bracketLists, none⟩ .source ⟨opened, source, #[]⟩ := by
      rw [readOne_of_create opens, ← bracketLists, serves.readOne_eq]
    have reads := (begins #[]).readOneByOneWithin_eq text []
    rw [bracketLists] at reads
    have all : readAll ctx.host ⟨conv.bracketLists, none⟩ ready source =
        ctx.readFormsWithin none text [] ⟨opened, source, #[]⟩ := readAll_of_create opens none source
    exact (readOneByOneWithin_of_readOne opened_eq text []).trans (reads.trans all.symm)

/-- An error in front of an open list, and the same list read anew elsewhere. -/
theorem session_memoryless_behind_error :
    ∃ host ctx opened, (Store.reader .shared false).withNilAlias none Store.initial =
        .ok host Store.initial ∧
      Context.create host true Store.initial = .ok ctx opened ∧
      let text := ") (a".toList
      let source : Source := .ofText text 1 0 none
      let s := ctx.session [.peekChar, .readForm] ⟨opened, source, #[]⟩
      let result := ctx.readForm none s
      let result' := ctx.readForm none ⟨s.host, .ofText s.source.remaining 7 2 none, #[]⟩
      outcome result = .error (.reading ⟨.endOfInput .list, some 1, some 4, none⟩) ∧
        outcome result' = .error (.reading ⟨.endOfInput .list, some 7, some 5, none⟩) ∧
        (∃ consumed, text = consumed ++ (finalState result).source.remaining ∧
          outcome result =
            (outcome result').mapError (.at ((Place.start 1 0).advanceAll consumed) none)) ∧
        readOneByOne host ⟨true, none⟩ ⟨Store.initial, source, #[]⟩ =
          readAll host ⟨true, none⟩ Store.initial source := by
  refine ⟨_, _, _, rfl, rfl, ?_⟩
  intro text source s result result'
  have memoryless := session_memoryless ⟨true, false, none⟩ .shared .initial (by decide) rfl rfl
    text 1 0 none
  refine ⟨by decide +kernel, by decide +kernel, ?_, memoryless.2⟩
  have way {ctx : Context Store Value} : ctx.readForm none ∈ ctx.waysToRead := List.mem_cons_self
  obtain ⟨consumed, split, outcomes, -⟩ :=
    memoryless.1 #[] [.peekChar, .readForm] _ way _ way 7 2 none #[]
  exact ⟨consumed, split, outcomes⟩

end SexprReader
