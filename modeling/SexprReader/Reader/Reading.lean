import SexprReader.Reader.Machine
import SexprReader.Source.Decoding

namespace SexprReader

variable {σ V : Type}

inductive Input where
  | source
  | rawText (typeName : String)
deriving DecidableEq, Repr

def readOne (host : Host σ V) (options : Options σ V) (input : Input) : ReadM σ V := do
  match input with
  | .rawText typeName => throw (.rawText typeName)
  | .source =>
    let ctx ← ReadM.hosted (Context.create host options.bracketLists)
    ctx.readForm options.hook

/-- The forms completed in order, and why there are no more if the source did not just end. -/
structure Reading (σ V : Type) where
  forms : List V
  failure : Option Failure
  final : ReadState σ

namespace Context

/-- Reads forms up to the first which is the host's `endOfStream`, behind those already
`done`, latest first; there is at most one for each character of `bound`. -/
def readFormsWithin (ctx : Context σ V) (hook : Option (Hook σ V)) :
    (bound : List Char) → (done : List V) → ReadState σ → Reading σ V
  | bound, done, state =>
    match ctx.readForm hook state with
    | .error failure final => ⟨done.reverse, some failure, final⟩
    | .ok form next =>
      if ctx.host.eq form ctx.host.endOfStream then ⟨done.reverse, none, next⟩
      else match bound with
        | [] => ⟨done.reverse, some .stalled, next⟩
        | _ :: bound => readFormsWithin ctx hook bound (form :: done) next

def readForms (ctx : Context σ V) (hook : Option (Hook σ V)) (state : ReadState σ) :
    Reading σ V :=
  ctx.readFormsWithin hook state.source.remaining [] state

end Context

/-- Reads all forms of a source over a host in a given state. -/
def readAll (host : Host σ V) (options : Options σ V) (state : σ) (source : Source) :
    Reading σ V :=
  match Context.create host options.bracketLists state with
  | .error failure state => ⟨[], some failure, ⟨state, source, #[]⟩⟩
  | .ok ctx state => ctx.readForms options.hook ⟨state, source, #[]⟩

theorem readAll_of_create {host : Host σ V} {bracketLists : Bool} {state opened : σ}
    {ctx : Context σ V} (creates : Context.create host bracketLists state = .ok ctx opened)
    (hook : Option (Hook σ V)) (source : Source) :
    readAll host ⟨bracketLists, hook⟩ state source = ctx.readForms hook ⟨opened, source, #[]⟩ := by
  rw [readAll, creates]

def readContents (host : Host σ V) (options : Options σ V) (state : σ)
    (contents : Option (List UInt8)) (line column : Int) (name : String) : Reading σ V :=
  match contents with
  | none => ⟨[], some .fileNotFound, ⟨state, .plain [], #[]⟩⟩
  | some bytes => readAll host options state (.ofBytes bytes line column (some name))

end SexprReader
