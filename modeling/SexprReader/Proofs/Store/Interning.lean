import SexprReader.Proofs.Reader.Positions
import SexprReader.Proofs.Reader.Spelling
import SexprReader.Proofs.Store.Comments
import SexprReader.Proofs.Store.EndOfStream
import SexprReader.Proofs.Store.Planted
import SexprReader.Proofs.Store.SymbolTables

namespace SexprReader

open ReadM Store

variable {σ V : Type}

/-- The name that a lexeme asks a symbol for. A token does so if it is not written as a number, even one that is
too long to be read. -/
def Lexeme.name? : Lexeme → Option String
  | .token text =>
    match parseInteger (String.ofList text) 10 with
    | .ok none => some (String.ofList text)
    | _ => none
  | _ => none

def Found.name? : Found → Option String
  | .part lexeme => lexeme.name?
  | _ => none

def Position.name? (dialect : Dialect) (p : Position σ V) : Option String :=
  match dialect.takeTurn p.stack.expected p.state with
  | .ok found _ => found.name?
  | .error _ _ => none

/-- The next turn takes a bare token from the source, all of it and nothing behind it, and this token is the
name, which no number is written as. -/
def Position.TakesName (dialect : Dialect) (p : Position σ V) (name : String) : Prop :=
  ∃ before rest s, p.state.source.remaining = before ++ name.toList ++ rest ∧
    dialect.takeTurn p.stack.expected p.state = .ok (.part (.token name.toList)) s ∧
    s.source.remaining = rest ∧ parseInteger name 10 = .ok none

theorem Lexeme.name?_eq_some_iff {lexeme : Lexeme} {name : String} :
    lexeme.name? = some name ↔ lexeme = .token name.toList ∧ parseInteger name 10 = .ok none := by
  constructor
  · intro named
    cases lexeme with
    | token text =>
      unfold name? at named
      dsimp only at named
      split at named
      next other =>
        cases named
        exact ⟨by rw [String.toList_ofList], other⟩
      next => cases named
    | _ => cases named
  · rintro ⟨rfl, other⟩
    simp only [name?, String.ofList_toList, other]

theorem Found.name?_eq_some_iff {found : Found} {name : String} :
    found.name? = some name ↔ found = .part (.token name.toList) ∧ parseInteger name 10 = .ok none := by
  cases found with
  | part lexeme =>
    rw [Found.part.injEq]
    exact Lexeme.name?_eq_some_iff
  | _ => simp [name?]

theorem Position.name?_eq_some_iff {dialect : Dialect} {p : Position σ V} {name : String} :
    p.name? dialect = some name ↔ p.TakesName dialect name := by
  unfold Position.name?
  constructor
  · intro named
    cases took : dialect.takeTurn p.stack.expected p.state with
    | error e s =>
      rw [took] at named
      cases named
    | ok found s =>
      rw [took] at named
      obtain ⟨rfl, other⟩ := Found.name?_eq_some_iff.mp named
      obtain ⟨-, taken, split, before, rfl⟩ := Dialect.isSpelt_of_takeTurn took
      exact ⟨before, s.source.remaining, s, split, took, rfl, other⟩
  · rintro ⟨before, rest, s, -, took, -, other⟩
    rw [took]
    exact Found.name?_eq_some_iff.mpr ⟨rfl, other⟩

abbrev ReadM.Learns {α : Type} (before after : SymbolTables) (m : ReadM Store α) : Prop :=
  Ensures (·.symbols = before) m (fun _ => (·.symbols = after)) (·.symbols = after)

theorem ReadM.Learns.final {α : Type} {before after : SymbolTables} {m : ReadM Store α}
    (learns : Learns before after m) {s : ReadState Store} (given : s.host.symbols = before) :
    (finalState (m s)).host.symbols = after := by
  have holds := learns s given
  cases ran : m s with
  | ok a s' =>
    rw [ran] at holds
    exact holds
  | error e s' =>
    rw [ran] at holds
    exact holds

namespace Context.Stores

variable {ctx : Context Store Value} {options : StoreOptions} (stores : ctx.Stores options)
  {symbols : SymbolTables}

include stores

theorem call_keeps_symbols {call : Call Value} (other : ∀ name, call ≠ .internSymbol name) :
    (ctx.host.call call).Keeps (·.symbols = symbols) := by
  rw [stores.host]
  cases call with
  | makePair first rest => exact fun _ given => given
  | setRest pair rest =>
    apply HostM.Keeps.map.mpr
    intro store given
    cases pair <;> exact given
  | makeString s => exact fun _ given => given
  | postProcessString v => exact fun _ given => given
  | internSymbol name => exact absurd rfl (other name)
  | parseNumber text radix =>
    apply HostM.Keeps.map.mpr
    intro store given
    dsimp only [Store.host]
    cases options.numbers with
    | false => exact given
    | true =>
      rw [if_pos rfl, Store.parseNumber]
      cases parseInteger text radix with
      | ok number => cases number <;> exact given
      | error fault => exact given
  | listToVector list =>
    apply HostM.Keeps.map.mpr
    intro store given
    have makes : (Store.host options).listToVector list = Store.listToVector list := rfl
    cases members : store.heap.vectorMembers list with
    | ok values =>
      rw [makes, Store.listToVector_of_ok members]
      exact given
    | error fault =>
      rw [makes, Store.listToVector_of_error members]
      exact given
  | makeCharacter codePoint => exact fun _ given => given
  | signalError e =>
    apply HostM.Keeps.map.mpr
    intro store given
    dsimp only [Store.host]
    cases options.signal <;> exact given

theorem finishPart_keeps_symbols (stack : Stack Value) (start : FormStart Value) :
    Learns symbols symbols (ctx.finishPart stack start) := by
  let asked (call : Call Value) : Prop := ∀ name, call ≠ .internSymbol name
  have completes (form : Option Value) : Learns symbols symbols (ctx.complete stack form) := by
    have asks : Asks asked ctx ctx (ctx.complete stack form) (ctx.complete stack form) := by
      apply complete_asks (.refl ctx)
      · rintro call ordinary name rfl
        exact ordinary
      · exact fun _ _ _ => nofun
      · exact fun _ _ _ _ _ _ _ => nofun
    exact .of_asks asks fun call => stores.call_keeps_symbols
  cases start with
  | whole form => exact completes (some form)
  | comment => exact .pure fun _ given => given
  | opening frame => exact .pure fun _ given => given
  | endOfInput => exact completes none

variable (numbers : options.numbers = true)

include numbers

theorem makeToken_learns (text : List Char) :
    Learns symbols (symbols.internAll options.table (Lexeme.token text).name?.toList)
      (ctx.makeToken (String.ofList text)) := by
  have parses : ctx.host.parseNumber (String.ofList text) 10 = Store.parseNumber (String.ofList text) 10 := by
    rw [stores.host]
    dsimp only [Store.host]
    rw [numbers, if_pos rfl]
  have tested (v : Value) : ctx.host.eq v ctx.host.false = (v == .sentinel .false) := by
    rw [stores.host]
    rfl
  unfold makeToken
  rw [parses, Store.parseNumber]
  cases parsed : parseInteger (String.ofList text) 10 with
  | error fault =>
    have unnamed : (Lexeme.token text).name? = none := by simp only [Lexeme.name?, parsed]
    rw [unnamed]
    -- A numeral that is too long ends the turn before a name is looked up.
    have stops : Ensures (·.symbols = symbols) (hosted (throw (.value fault)) : ReadM Store Value)
        (fun _ _ => False) (·.symbols = symbols) :=
      .hosted fun _ given => given
    exact stops.bind fun _ _ never => never.elim
  | ok number =>
    cases number with
    | some n =>
      have unnamed : (Lexeme.token text).name? = none := by simp only [Lexeme.name?, parsed]
      rw [unnamed]
      have other : (Value.integer n == .sentinel .false) = false := rfl
      change Ensures _ (if ctx.host.eq (.integer n) ctx.host.false then _ else _) _ _
      rw [tested, other, if_neg Bool.false_ne_true]
      exact .pure fun _ given => given
    | none =>
      have named : (Lexeme.token text).name? = some (String.ofList text) := by
        simp only [Lexeme.name?, parsed]
      rw [named]
      change Ensures _ (if ctx.host.eq (.sentinel .false) ctx.host.false then _ else _) _ _
      rw [tested, if_pos (by decide)]
      have interns : Learns symbols (symbols.intern options.table (String.ofList text)).2
          (hosted (ctx.host.internSymbol (String.ofList text))) := by
        rw [stores.host]
        refine .hosted fun store given => ?_
        rw [← given]
        rfl
      refine interns.bind fun symbol => ?_
      split
      · exact .pure fun _ given => given
      · exact .pure fun _ given => given

theorem answer_learns (stack : Stack Value) (found : Found) :
    Learns symbols (symbols.internAll options.table found.name?.toList) (ctx.answer stack found) := by
  by_cases token : ∃ text, found = .part (.token text)
  · obtain ⟨text, rfl⟩ := token
    have whole : Learns symbols (symbols.internAll options.table (Lexeme.token text).name?.toList)
        (ctx.perform (.token text)) :=
      (stores.makeToken_learns numbers text).bind fun _ => .pure fun _ given => given
    exact whole.bind (stores.finishPart_keeps_symbols stack)
  · have unnamed : found.name? = none := by
      cases found with
      | part lexeme =>
        cases lexeme with
        | token text => exact absurd ⟨text, rfl⟩ token
        | _ => rfl
      | _ => rfl
    rw [unnamed]
    apply Ensures.of_asks (answer_asks (.refl ctx) stack found)
    intro call may
    apply stores.call_keeps_symbols
    rintro name rfl
    cases may with
    | ordinary ordinary => exact ordinary
    | interns same => exact token ⟨_, same⟩

theorem symbols_of_turn (p : Position Store Value) :
    (finalState (ctx.turn p.stack p.state)).host.symbols =
      p.state.host.symbols.internAll options.table (p.name? ctx.dialect).toList := by
  have free : HostFree (ctx.dialect.takeTurn p.stack.expected : ReadM Store Found)
      (ctx.dialect.takeTurn p.stack.expected : ReadM Store Found) :=
    ctx.dialect.takeTurn_hostFree p.stack.expected
  have same := free.host_eq p.state
  rw [turn_eq, Position.name?]
  cases took : ctx.dialect.takeTurn p.stack.expected p.state with
  | error e s =>
    rw [took] at same
    rw [bind_of_error took]
    exact congrArg Store.symbols same
  | ok found s =>
    rw [took] at same
    rw [bind_of_ok took]
    exact (stores.answer_learns numbers p.stack found).final (congrArg Store.symbols same)

theorem exists_names (p : Position Store Value) :
    ∃ names : List String,
      (ctx.readOn none p).final.host.symbols = p.state.host.symbols.internAll options.table names ∧
      ∀ name, name ∈ names ↔ ∃ q, ctx.Passes p q ∧ q.TakesName ctx.dialect name := by
  have reads := ctx.readOn_eq none p
  rw [turnWith_none] at reads
  have learnt := stores.symbols_of_turn numbers p
  have here (name : String) : name ∈ (p.name? ctx.dialect).toList ↔ p.TakesName ctx.dialect name := by
    rw [Option.mem_toList]
    exact Position.name?_eq_some_iff
  cases leads : ctx.proceed p (ctx.turn p.stack p.state) with
  | inl reading =>
    rw [leads] at reads
    refine ⟨(p.name? ctx.dialect).toList, ?_, fun name => ?_⟩
    · rw [reads, ← learnt]
      exact congrArg (·.host.symbols) (final_of_proceed leads)
    · rw [here]
      constructor
      · exact fun takes => ⟨p, .refl, takes⟩
      · rintro ⟨q, passes, takes⟩
        rcases passes.eq_or_next with rfl | ⟨next, first, -⟩
        · exact takes
        · rw [leads] at first
          cases first
  | inr next =>
    rw [leads] at reads
    obtain ⟨progress, turned⟩ := state_of_proceed leads
    rw [turned] at learnt
    obtain ⟨names, symbols, taken⟩ := exists_names next
    refine ⟨(p.name? ctx.dialect).toList ++ names, ?_, fun name => ?_⟩
    · calc (ctx.readOn none p).final.host.symbols
        _ = (ctx.readOn none next).final.host.symbols := by rw [reads]; rfl
        _ = next.state.host.symbols.internAll options.table names := symbols
        _ = _ := by rw [SymbolTables.internAll_append, ← learnt]; rfl
    · rw [List.mem_append, here, taken]
      constructor
      · rintro (takes | ⟨q, passes, takes⟩)
        · exact ⟨p, .refl, takes⟩
        · exact ⟨q, .trans (.turn .refl leads) passes, takes⟩
      · rintro ⟨q, passes, takes⟩
        rcases passes.eq_or_next with rfl | ⟨next', first, onward⟩
        · exact .inl takes
        · rw [leads] at first
          cases first
          exact .inr ⟨q, onward, takes⟩
termination_by (p.forms.length, p.turns.length)
decreasing_by exact proceed_decreases leads

end Context.Stores

def Context.ownNames : List String := [".", "quote", "quasiquote", "unquote", "unquote-splicing"]

def Position.single (s : ReadState σ) : Position σ V := ⟨[], [], s.source.remaining, [], s⟩

theorem Context.final_single (ctx : Context σ V) (s : ReadState σ) :
    (ctx.readOn none (.single s)).final = finalState (ctx.readForm none s) := by
  have same : ctx.readFormsWithin none [] [] s = ctx.readOn none (.single s) :=
    ctx.readFormsWithin_eq_readOn none [] [] s
  rw [← same, readFormsWithin_nil]
  cases ctx.readForm none s with
  | ok form s' =>
    unfold follow
    dsimp only
    split <;> rfl
  | error e s' => rfl

variable {ctx : Context Store Value} {conv : Convention} {table : TableId} {store opened : Store}

theorem Serves.stores (serves : Serves ctx conv table store) :
    ctx.Stores ⟨table, conv.interpretEscapes, .all, true, .raise⟩ where
  host := serves.host
  quotes mark := by
    have symbol := serves.quotes mark
    generalize ctx.quoteSymbol mark = v at symbol ⊢
    cases symbol
    trivial

namespace Convention

/-- A reader is set up with the symbol that stands for the empty list, if there is one, and with its own. -/
theorem symbols_of_context (opens : conv.context table store = .ok ctx opened) :
    opened.symbols = store.symbols.internAll table (conv.nilAlias.toList ++ Context.ownNames) := by
  obtain ⟨host, ready, hosts, creates⟩ := HostM.exists_of_bind_ok opens
  obtain ⟨interning, aliased⟩ : host.internSymbol = Store.intern table ∧
      ready.symbols = store.symbols.internAll table conv.nilAlias.toList := by
    generalize conv.nilAlias = nilAlias at hosts
    cases nilAlias <;>
    · cases hosts
      exact ⟨rfl, rfl⟩
  have learns {name : String} {s s' : Store} {v : Value} (interned : host.internSymbol name s = .ok v s') :
      s'.symbols = (s.symbols.intern table name).2 := by
    rw [interning] at interned
    cases interned
    rfl
  obtain ⟨_, s₁, dot, creates⟩ := HostM.exists_of_bind_ok creates
  obtain ⟨_, s₂, quote, creates⟩ := HostM.exists_of_bind_ok creates
  obtain ⟨_, s₃, quasiquote, creates⟩ := HostM.exists_of_bind_ok creates
  obtain ⟨_, s₄, unquote, creates⟩ := HostM.exists_of_bind_ok creates
  obtain ⟨_, s₅, splicing, creates⟩ := HostM.exists_of_bind_ok creates
  cases creates
  rw [learns splicing, learns unquote, learns quasiquote, learns quote, learns dot, aliased,
    SymbolTables.internAll_append]
  rfl

theorem reading_of_context (opens : conv.context table store = .ok ctx opened) (source : Source) :
    conv.reading table store source = ctx.readForms none ⟨opened, source, #[]⟩ := by
  obtain ⟨host, ready, hosts, creates⟩ := HostM.exists_of_bind_ok opens
  simp only [reading, hosts]
  exact readAll_of_create creates none source

end Convention

section Denoting

variable {s s' : ReadState Store} {v : Value}

theorem Serves.denotes_of_readForm (serves : Serves ctx conv table s.host)
    (read : ctx.readForm none s = .ok v s') :
    ∃ d, Denotes table s'.host s.host.heap.pairs.size s'.host.heap.pairs.size v d := by
  obtain ⟨t, ended, same, -⟩ := ctx.readForm_nearsighted.ended read
  obtain ⟨outcome, rest, parses⟩ := (Parses.total conv s.source.remaining).form
  have serves : Serves ctx conv table s.ended.host := serves
  have stands : s.ended.Stands s.ended.host s.source.remaining := ⟨rfl, rfl, rfl⟩
  obtain ⟨answer, t', -, matched, answers⟩ := readForm_of_parses serves stands parses
  rw [ended] at answers
  rw [← same]
  cases matched with
  | form denotes =>
    cases answers
    exact ⟨_, denotes⟩
  | comment =>
    cases answers
    exact ⟨_, .sentinel .endOfStream⟩
  | endOfInput =>
    cases answers
    exact ⟨_, .sentinel .endOfStream⟩
  | error => cases answers

def Store.Knows (store : Store) (table : TableId) (v : Value) : Prop :=
  ∃ d, Denotes table store 0 store.heap.pairs.size v d

theorem Store.Knows.agrees {store store' : Store} (knows : store.Knows table v)
    (agrees : Agrees 0 store.heap.pairs.size store store') : store'.Knows table v := by
  obtain ⟨d, denotes⟩ := knows
  exact ⟨d, (denotes.agrees agrees).widen (Nat.le_refl _) agrees.size⟩

theorem Store.Knows.find?_of_follow {store : Store} (knows : store.Knows table v)
    {path : List Heap.Toward} {symbol : Symbol}
    (leads : store.heap.follow v path = some (.symbol symbol)) :
    store.symbols.find? table symbol.name = some symbol := by
  obtain ⟨d, denotes⟩ := knows
  obtain ⟨e, -, denotes⟩ := denotes.exists_of_follow leads
  cases denotes with
  | symbol found => rwa [SymbolTables.find?_name found]

theorem Serves.knows_of_readForm (serves : Serves ctx conv table s.host)
    (read : ctx.readForm none s = .ok v s') : s'.host.Knows table v := by
  obtain ⟨d, denotes⟩ := serves.denotes_of_readForm read
  exact ⟨d, denotes.widen (Nat.zero_le _) (Nat.le_refl _)⟩

theorem Serves.knows_of_follow (serves : Serves ctx conv table s.host) {done : List Value}
    (given : ∀ v ∈ done, s.host.Knows table v) {next : Value → ReadState Store → Reading Store Value}
    (onward : ∀ form s', Serves ctx conv table s'.host → (∀ v ∈ form :: done, s'.host.Knows table v) →
      ∀ v ∈ (next form s').forms, (next form s').final.host.Knows table v) :
    ∀ v ∈ (ctx.follow done next (ctx.readForm none s)).forms,
      (ctx.follow done next (ctx.readForm none s)).final.host.Knows table v := by
  have ensured := serves.stores.readForm_ensures s rfl
  cases read : ctx.readForm none s with
  | error e s' =>
    rw [read] at ensured
    exact fun v member => (given v (List.mem_reverse.mp member)).agrees ensured
  | ok form s' =>
    rw [read] at ensured
    obtain ⟨agrees, -⟩ := ensured
    have given' : ∀ v ∈ form :: done, s'.host.Knows table v := by
      intro v member
      rcases List.mem_cons.mp member with rfl | earlier
      · exact serves.knows_of_readForm read
      · exact (given v earlier).agrees agrees
    unfold Context.follow
    dsimp only
    split
    · exact fun v member => given' v (List.mem_cons_of_mem _ (List.mem_reverse.mp member))
    · exact onward form s' (serves.agrees agrees) given'

theorem Serves.knows_of_readFormsWithin (serves : Serves ctx conv table s.host) (bound : List Char)
    {done : List Value} (given : ∀ v ∈ done, s.host.Knows table v) :
    ∀ v ∈ (ctx.readFormsWithin none bound done s).forms,
      (ctx.readFormsWithin none bound done s).final.host.Knows table v := by
  induction bound generalizing s done with
  | nil =>
    rw [Context.readFormsWithin_nil]
    apply serves.knows_of_follow given
    intro form s' _ given' v member
    exact given' v (List.mem_cons_of_mem _ (List.mem_reverse.mp member))
  | cons c bound ih =>
    rw [Context.readFormsWithin_cons]
    apply serves.knows_of_follow given
    intro form s' serves' given'
    exact ih serves' given'

end Denoting

end SexprReader
