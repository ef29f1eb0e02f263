import SexprReader.Proofs.Grammar.Parses
import SexprReader.Proofs.Store.Denotes

namespace SexprReader

open ReadM Store

/-- The host of a store that keeps to a convention, given the value which reads as the empty
list. -/
def Convention.host (conv : Convention) (table : TableId) (nilSymbol? : Option Value) :
    Host Store Value :=
  { Store.host ⟨table, conv.interpretEscapes, .all, true, .raise⟩ with nilSymbol? }

/-- A reader over a store keeps to a convention. Its symbols are those of one table. -/
structure Serves (ctx : Context Store Value) (conv : Convention) (table : TableId) (store : Store) :
    Prop where
  host : ctx.host = conv.host table ctx.host.nilSymbol?
  bracketLists : ctx.bracketLists = conv.bracketLists
  dot : Denotes table store 0 0 ctx.dot (.symbol ".")
  quotes : ∀ mark, Denotes table store 0 0 (ctx.quoteSymbol mark) (.symbol mark.symbolName)
  nilAlias : Option.Rel (fun v name => Denotes table store 0 0 v (.symbol name))
    ctx.host.nilSymbol? conv.nilAlias
  known : table.index < store.symbols.tables.size

/-- How an item starts that is complete by itself. -/
def Item.start {V : Type} : Item V → FormStart V
  | .form v => .whole v
  | .comment => .comment
  | .endOfInput => .endOfInput

def Context.conclude {σ V α : Type} (ctx : Context σ V) (reply : Item V → ReadM σ α) :
    Except Obstacle (Item V) → ReadM σ α
  | .ok item => reply item
  | .error (.fault fault) => ctx.fail fault
  | .error (.value fault) => throw (.value fault)

theorem Context.conclude_bind {σ V α β : Type} (ctx : Context σ V) (reply : Item V → ReadM σ α)
    (answer : Except Obstacle (Item V)) (f : α → ReadM σ β) :
    ctx.conclude reply answer >>= f = ctx.conclude (fun item => reply item >>= f) answer := by
  match answer with
  | .ok item => rfl
  | .error (.fault fault) => exact ctx.fail_bind fault f
  | .error (.value fault) => rfl

theorem Store.listToVector_of_ok {store : Store} {list : Value} {values : List Value}
    (members : store.heap.vectorMembers list = .ok values) :
    Store.listToVector list store = .ok (.vector store.heap.vectors.size) (store.pushVector values) := by
  have got : (get : HostM Store Store) store = .ok store store := rfl
  unfold Store.listToVector
  rw [HostM.bind_of_ok got, members]
  rfl

theorem Store.listToVector_of_error {store : Store} {list : Value} {fault : ValueFault}
    (members : store.heap.vectorMembers list = .error fault) :
    Store.listToVector list store = .error (.value fault) store := by
  have got : (get : HostM Store Store) store = .ok store store := rfl
  unfold Store.listToVector
  rw [HostM.bind_of_ok got, members]
  rfl

def Store.numberReply : Except ValueFault (Option Int) → ReadM Store Value
  | .ok (some n) => pure (.integer n)
  | .ok none => pure (.sentinel .false)
  | .error fault => throw (.value fault)

inductive Matches (table : TableId) (store : Store) (lo hi : Nat) :
    Except Obstacle (Item Value) → Outcome → Prop
  | form {v : Value} {d : Datum} (denotes : Denotes table store lo hi v d) :
      Matches table store lo hi (.ok (.form v)) (.ok (.form d))
  | comment : Matches table store lo hi (.ok .comment) (.ok .comment)
  | endOfInput : Matches table store lo hi (.ok .endOfInput) (.ok .endOfInput)
  | error (obstacle : Obstacle) : Matches table store lo hi (.error obstacle) (.error obstacle)

theorem Matches.widen {table : TableId} {store : Store} {lo hi lo' hi' : Nat}
    {answer : Except Obstacle (Item Value)} {outcome : Outcome}
    (same : Matches table store lo hi answer outcome) (above : lo' ≤ lo) (below : hi ≤ hi') :
    Matches table store lo' hi' answer outcome := by
  cases same with
  | form denotes => exact .form (denotes.widen above below)
  | comment => exact .comment
  | endOfInput => exact .endOfInput
  | error obstacle => exact .error obstacle

/-- With enough calls allowed, a reader comes to an answer that stands for the outcome. Pairs below
`lo` are left alone, and the answer needs none of them. -/
def Settles {α : Type} (ctx : Context Store Value) (table : TableId) (lo : Nat)
    (reply : Item Value → ReadM Store α) (m : Nat → ReadM Store α) (store : Store)
    (text : List Char) (outcome : Outcome) (rest : List Char) : Prop :=
  ∃ few answer store', Agrees 0 lo store store' ∧
    Matches table store' lo store'.heap.pairs.size answer outcome ∧
    ∀ n, few ≤ n → (m n).Becomes store text (ctx.conclude reply answer) store' rest

namespace Serves

variable {ctx : Context Store Value} {conv : Convention} {table : TableId} {store store' : Store}

theorem agrees (serves : Serves ctx conv table store) {lo hi : Nat}
    (agrees : Agrees lo hi store store') : Serves ctx conv table store' where
  host := serves.host
  bracketLists := serves.bracketLists
  dot := serves.dot.agrees agrees.apart_from_pairs
  quotes mark := (serves.quotes mark).agrees agrees.apart_from_pairs
  nilAlias := by
    have related := serves.nilAlias
    generalize ctx.host.nilSymbol? = nilSymbol? at related ⊢
    generalize conv.nilAlias = nilAlias at related ⊢
    cases related with
    | none => exact .none
    | some symbol => exact .some (symbol.agrees agrees.apart_from_pairs)
  known := agrees.known serves.known

section

variable (serves : Serves ctx conv table store)

include serves

theorem makePair (first rest : Value) :
    ctx.host.makePair first rest store =
      .ok (.pair store.heap.pairs.size) (store.pushPair first rest) := by
  rw [serves.host]
  rfl

theorem setRest (address : Nat) (value : Value) :
    ctx.host.setRest (.pair address) value store = .ok () (store.changeRest address value) := by
  rw [serves.host]
  rfl

theorem makeCharacter (codePoint : Nat) :
    ctx.host.makeCharacter codePoint store =
      .ok (.character ⟨store.heap.characters, codePoint⟩) (store.pushCharacter codePoint) := by
  rw [serves.host]
  rfl

theorem internSymbol (name : String) :
    ctx.host.internSymbol name store =
      .ok (.symbol (store.symbols.intern table name).1) (store.learn table name) := by
  rw [serves.host]
  rfl

theorem listToVector {list : Value} {values : List Value}
    (members : store.heap.vectorMembers list = .ok values) :
    ctx.host.listToVector list store =
      .ok (.vector store.heap.vectors.size) (store.pushVector values) := by
  rw [serves.host]
  exact Store.listToVector_of_ok members

theorem eq_apply (v w : Value) : ctx.host.eq v w = (v == w) := by
  rw [serves.host]
  rfl

theorem nil_eq : ctx.host.nil = .nil := by
  rw [serves.host]
  rfl

theorem false_eq : ctx.host.false = .sentinel .false := by
  rw [serves.host]
  rfl

theorem endOfStream_eq : ctx.host.endOfStream = .sentinel .endOfStream := by
  rw [serves.host]
  rfl

theorem constant?_eq (constant : Constant) :
    ctx.host.constant? constant = some (.sentinel constant.sentinel) := by
  rw [serves.host]
  cases constant <;> rfl

theorem dialect_eq : ctx.dialect = conv.dialect := by
  have supports : (fun constant => (ctx.host.constant? constant).isSome) = fun _ => true := by
    funext constant
    rw [serves.constant?_eq]
    rfl
  rw [Context.dialect, supports, serves.bracketLists, Convention.dialect]

theorem parseNumber {digits : String} {radix : Nat} {number : Except ValueFault (Option Int)}
    (parsed : parseInteger digits radix = number) (text : List Char) :
    (hosted (ctx.host.parseNumber digits radix)).Becomes store text (numberReply number) store
      text := by
  have call : ctx.host.parseNumber digits radix = Store.parseNumber digits radix := by
    rw [serves.host]
    rfl
  rw [call, Store.parseNumber, parsed]
  match number with
  | .ok (some n) => exact hosted_becomes rfl text
  | .ok none => exact hosted_becomes rfl text
  | .error fault => exact hosted_becomes_throw rfl text

theorem makeString (literal : String) (text : List Char) :
    (ctx.makeString literal).Becomes store text
      (pure (.string (if conv.interpretEscapes then Escape.interpret literal else literal)))
      store text := by
  have made : ctx.host.makeString literal store = .ok (.string literal) store := by
    rw [serves.host]
    rfl
  have processed : ctx.host.postProcessString (.string literal) store =
      .ok (.string (if conv.interpretEscapes then Escape.interpret literal else literal)) store := by
    rw [serves.host]
    change EStateM.Result.ok (if conv.interpretEscapes then interpretString (.string literal)
      else .string literal) store = _
    split <;> rfl
  exact (hosted_becomes made text).pure_bind (hosted_becomes processed text)

theorem eq_dot {lo hi : Nat} {v : Value} {d : Datum} (denotes : Denotes table store lo hi v d) :
    ctx.host.eq v ctx.dot = d.isDot := by
  rw [serves.eq_apply, Bool.eq_iff_iff, denotes.beq_symbol serves.dot]
  cases d <;> simp [Datum.isDot]

theorem find?_learn (name : String) :
    (store.learn table name).symbols.find? table name =
      some (store.symbols.intern table name).1 :=
  SymbolTables.find?_intern serves.known name

theorem makeSymbol (name : String) (text : List Char) :
    ∃ v, (∀ lo hi, Denotes table (store.learn table name) lo hi v
        (if conv.nilAlias = some name then .nil else .symbol name)) ∧
      (ctx.makeSymbol name).Becomes store text (pure v) (store.learn table name) text := by
  have later := serves.agrees (store.agrees_learn 0 0 table name)
  have symbol (lo hi : Nat) : Denotes table (store.learn table name) lo hi
      (.symbol (store.symbols.intern table name).1) (.symbol name) :=
    .symbol (serves.find?_learn name)
  have interned := hosted_becomes (serves.internSymbol name) text
  have related := later.nilAlias
  have nil_eq := serves.nil_eq
  have eq_apply := serves.eq_apply
  unfold Context.makeSymbol
  generalize ctx.host.nilSymbol? = nilSymbol? at related ⊢
  generalize conv.nilAlias = nilAlias at related ⊢
  cases related with
  | none =>
    exact ⟨_, symbol, interned.pure_bind (.refl _ _ _)⟩
  | @some nilSymbol other alias_ =>
    have same := (symbol 0 0).beq_symbol alias_
    by_cases equal : other = name
    · subst equal
      refine ⟨.nil, fun _ _ => by simpa using .sentinel .nil, interned.pure_bind ?_⟩
      simp only [eq_apply, nil_eq, same.mpr rfl, if_true]
      exact .refl _ _ _
    · have different : ¬((Value.symbol (store.symbols.intern table name).1 == nilSymbol) = true) := by
        rw [same]
        simpa using Ne.symm equal
      refine ⟨_, fun lo hi => by simpa [equal] using symbol lo hi, interned.pure_bind ?_⟩
      simp only [eq_apply, different]
      exact .refl _ _ _

abbrev Performs (ctx : Context Store Value) (table : TableId) (store : Store) (text : List Char)
    (lexeme : Lexeme) (outcome : Outcome) : Prop :=
  Settles ctx table store.heap.pairs.size (fun item => pure item.start) (fun _ => ctx.perform lexeme)
    store text outcome text

theorem performs_token (token text : List Char) :
    Performs ctx table store text (.token token) (conv.token (String.ofList token)) := by
  simp only [Performs, Context.perform, Context.makeToken, bind_assoc, Convention.token]
  cases parsed : parseInteger (String.ofList token) 10 with
  | error fault =>
    refine ⟨0, .error (.value fault), store, .refl _ _ _, .error _, fun _ _ => ?_⟩
    exact (serves.parseNumber parsed text).bind _
  | ok number =>
    cases number with
    | some n =>
      refine ⟨0, .ok (.form (.integer n)), store, .refl _ _ _, .form (.integer n), fun _ _ => ?_⟩
      refine (serves.parseNumber parsed text).pure_bind ?_
      rw [serves.eq_apply, serves.false_eq]
      exact .refl _ _ _
    | none =>
      obtain ⟨v, denotes, becomes⟩ := serves.makeSymbol (String.ofList token) text
      refine ⟨0, .ok (.form v), _, store.agrees_learn _ _ table _, .form (denotes _ _),
        fun _ _ => ?_⟩
      refine (serves.parseNumber parsed text).pure_bind ?_
      rw [serves.eq_apply, serves.false_eq]
      simp only [beq_self_eq_true, if_true]
      exact becomes.pure_bind (.refl _ _ _)

theorem performs_number (radix : Nat) (digits text : List Char) :
    Performs ctx table store text (.number radix digits)
      (Convention.number radix (String.ofList digits)) := by
  simp only [Performs, Context.perform, Context.makeNumber, bind_assoc, Convention.number]
  cases parsed : parseInteger (String.ofList digits) radix with
  | error fault =>
    refine ⟨0, .error (.value fault), store, .refl _ _ _, .error _, fun _ _ => ?_⟩
    exact (serves.parseNumber parsed text).bind _
  | ok number =>
    cases number with
    | some n =>
      refine ⟨0, .ok (.form (.integer n)), store, .refl _ _ _, .form (.integer n), fun _ _ => ?_⟩
      refine (serves.parseNumber parsed text).pure_bind ?_
      rw [serves.eq_apply, serves.false_eq]
      exact .refl _ _ _
    | none =>
      refine ⟨0, .error (.fault (.invalidNumber (String.ofList digits) radix)), store,
        .refl _ _ _, .error _, fun _ _ => ?_⟩
      refine (serves.parseNumber parsed text).pure_bind ?_
      rw [serves.eq_apply, serves.false_eq]
      simp only [beq_self_eq_true, if_true, Context.fail_bind]
      exact .refl _ _ _

theorem performs {lexeme : Lexeme} {outcome : Outcome} (means : conv.atom lexeme = some outcome)
    (text : List Char) : Performs ctx table store text lexeme outcome := by
  have same : Agrees 0 store.heap.pairs.size store store := .refl _ _ _
  cases lexeme with
  | endOfInput =>
    cases means
    exact ⟨0, .ok .endOfInput, store, same, .endOfInput, fun _ _ => .refl _ _ _⟩
  | comment =>
    cases means
    exact ⟨0, .ok .comment, store, same, .comment, fun _ _ => .refl _ _ _⟩
  | opening opening => cases means
  | constant constant =>
    cases means
    refine ⟨0, .ok (.form (.sentinel constant.sentinel)), store, same, .form (.sentinel _),
      fun _ _ => ?_⟩
    rw [Context.perform, serves.constant?_eq]
    exact .refl _ _ _
  | token token =>
    cases means
    exact serves.performs_token token text
  | number radix digits =>
    cases means
    exact serves.performs_number radix digits text
  | string literal =>
    cases means
    refine ⟨0, .ok (.form _), store, same, .form (.string _), fun _ _ => ?_⟩
    exact (serves.makeString _ text).pure_bind (.refl _ _ _)
  | character c =>
    cases means
    refine ⟨0, .ok (.form _), _, store.agrees_pushCharacter _ _ c.toNat,
      .form (.character ⟨store.heap.characters, c.toNat⟩), fun _ _ => ?_⟩
    exact (hosted_becomes (serves.makeCharacter _) text).pure_bind (.refl _ _ _)
  | fault fault =>
    cases means
    exact ⟨0, .error (.fault fault), store, same, .error _, fun _ _ => .refl _ _ _⟩

end

end Serves

end SexprReader
