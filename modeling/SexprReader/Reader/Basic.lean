import SexprReader.Host
import SexprReader.Source
import SexprReader.Trace

namespace SexprReader

/-- What a read changes. All of it outlives a failure. -/
structure ReadState (σ : Type) where
  host : σ
  source : Source
  trace : Array Event

abbrev ReadM (σ : Type) := EStateM Failure (ReadState σ)

/-- A host together with the symbols a reader asks of it once, and the reader's options. -/
structure Context (σ V : Type) where
  host : Host σ V
  bracketLists : Bool
  dot : V
  quoteSymbol : QuoteMark → V

/-- What to do with `#c` when no built-in sequence matches. -/
structure Hook (σ V : Type) where
  /-- How many calls of the hook may be nested, each in a form that the one before it reads. -/
  limit : Nat := standardLimit
  /-- Sees the reader itself, as a read of the next form, with `c` consumed; `none` skips what it
  consumed. -/
  answer : Context σ V → ReadM σ V → Char → ReadM σ (Option V)

structure Options (σ V : Type) where
  bracketLists : Bool
  hook : Option (Hook σ V)

namespace ReadM

variable {σ α : Type}

def hosted (call : HostM σ α) : ReadM σ α := fun ⟨host, source, trace⟩ =>
  match call host with
  | .ok a host => .ok a ⟨host, source, trace⟩
  | .error e host => .error e ⟨host, source, trace⟩

def report (event : Event) : ReadM σ Unit := fun ⟨host, source, trace⟩ =>
  .ok () ⟨host, source, trace.push event⟩

def reportHere (event : Option Int → Option Int → Event) : ReadM σ Unit := do
  let source := (← get).source
  report (event source.line? source.column?)

/-- The next character, left in the source; `none` at the end of input. -/
def peekChar : ReadM σ (Option Char) := fun ⟨host, source, trace⟩ =>
  if source.atUndecodable then .error .undecodable ⟨host, source, trace⟩
  else .ok source.remaining.head? ⟨host, source.pull, trace⟩

def nextChar : ReadM σ (Option Char) := fun ⟨host, source, trace⟩ =>
  if source.atUndecodable then .error .undecodable ⟨host, source, trace⟩
  else match source.remaining with
    | [] => .ok none ⟨host, source, trace⟩
    | c :: rest => .ok (some c) ⟨host, source.consume [c] rest, trace⟩

def consumeWhile (p : Char → Bool) : ReadM σ (List Char) := fun ⟨host, source, trace⟩ =>
  let taken := source.remaining.takeWhile p
  .ok taken ⟨host, source.consume taken (source.remaining.dropWhile p), trace⟩

def takeWhile (p : Char → Bool) : ReadM σ (List Char) := do
  let taken ← consumeWhile p
  let _ ← peekChar
  return taken

end ReadM

def splitThrough {S : Type} (scan : S → Char → Option S) :
    S → List Char → List Char → Option (List Char × List Char)
  | _, _, [] => none
  | state, seen, c :: rest =>
    match scan state c with
    | none => some ((c :: seen).reverse, rest)
    | some state => splitThrough scan state (c :: seen) rest

theorem splitThrough_append {S : Type} {scan : S → Char → Option S} {state : S}
    {seen text taken rest : List Char}
    (splits : splitThrough scan state seen text = some (taken, rest)) :
    taken ++ rest = seen.reverse ++ text := by
  induction text generalizing state seen with
  | nil => simp [splitThrough] at splits
  | cons c text ih =>
    unfold splitThrough at splits
    split at splits
    next =>
      obtain ⟨rfl, rfl⟩ := Prod.mk.inj (Option.some.inj splits)
      simp
    next => simpa using ih splits

namespace ReadM

variable {σ : Type}

/-- Consumes characters up to and including the one at which the scanner stops. If it never
stops, all input is consumed and there is no result. -/
def takeThrough {S : Type} (scan : S → Char → Option S) (start : S) :
    ReadM σ (Option (List Char)) := fun ⟨host, source, trace⟩ =>
  match splitThrough scan start [] source.remaining with
  | some (taken, rest) => .ok (some taken) ⟨host, source.consume taken rest, trace⟩
  | none =>
    let exhausted := source.consume source.remaining []
    if exhausted.atUndecodable then .error .undecodable ⟨host, exhausted, trace⟩
    else .ok none ⟨host, exhausted, trace⟩

end ReadM

namespace Context

variable {σ V α : Type}

/-- Ends the read with a fault at the place of the last consumed character, by way of the host. -/
def fail (ctx : Context σ V) (fault : ReadFault) : ReadM σ α := do
  let source := (← get).source
  let e : ReadError := ⟨fault, source.line?, source.column?, source.name⟩
  ReadM.report (.failed e)
  ReadM.hosted (ctx.host.signalError e)
  throw (.reading e)

/-- A context over a host: the reader's own five symbols are interned in this order. -/
def create (host : Host σ V) (bracketLists : Bool) : HostM σ (Context σ V) := do
  let dot ← host.internSymbol "."
  let quote ← host.internSymbol QuoteMark.quote.symbolName
  let quasiquote ← host.internSymbol QuoteMark.quasiquote.symbolName
  let unquote ← host.internSymbol QuoteMark.unquote.symbolName
  let splicing ← host.internSymbol QuoteMark.unquoteSplicing.symbolName
  let quoteSymbol : QuoteMark → V
    | .quote => quote
    | .quasiquote => quasiquote
    | .unquote => unquote
    | .unquoteSplicing => splicing
  return { host, bracketLists, dot, quoteSymbol }

end Context

end SexprReader
