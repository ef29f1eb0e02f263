import SexprReader.Reader.Machine

/-! Reading one form by recursion on its structure, without hooks. Every open form is a call
that waits for its parts, where the machine keeps a frame on its stack. -/

namespace SexprReader

inductive Item (V : Type) where
  | form (v : V)
  | comment
  | endOfInput
deriving DecidableEq, Repr

namespace Context.Recursive

variable {σ V : Type}

def readCloser (ctx : Context σ V) (bracket : Bracket) : ReadM σ Unit := do
  match ← skipBlanks with
  | none => ctx.fail (.endOfInput bracket.openForm)
  | some c =>
    let _ ← ReadM.nextChar
    if c == bracket.closer then return else ctx.fail (.afterDottedTail bracket.closer c)

mutual

/-- Reads a form, past the comments in front of it; `none` at the end of input. -/
def form (ctx : Context σ V) : (bound : Nat) → ReadM σ (Option V)
  | 0 => throw .stalled
  | bound + 1 => do
    match ← item ctx bound with
    | .form v => return some v
    | .endOfInput => return none
    | .comment => form ctx bound

def item (ctx : Context σ V) : (bound : Nat) → ReadM σ (Item V)
  | 0 => throw .stalled
  | bound + 1 => do
    match ← ctx.readDatum none (throw .stalled) with
    | .whole v => return .form v
    | .comment => return .comment
    | .endOfInput => return .endOfInput
    | .opening .datumComment =>
      match ← form ctx bound with
      | none => return .endOfInput
      | some _ =>
        ReadM.report .discardedDatum
        return .comment
    | .opening (.quoted mark symbol) =>
      match ← form ctx bound with
      | none => ctx.fail (.endOfInput (.quoted mark))
      | some v =>
        let rest ← ReadM.hosted (ctx.host.makePair v ctx.host.nil)
        return .form (← ReadM.hosted (ctx.host.makePair symbol rest))
    | .opening (.list bracket spine) => return .form (← items ctx bound bracket spine)

/-- Reads the members of a list up to its closing bracket, behind those of the spine. -/
def items (ctx : Context σ V) : (bound : Nat) → Bracket → Spine V → ReadM σ V
  | 0, _, _ => throw .stalled
  | bound + 1, bracket, spine => do
    match ← skipBlanks with
    | none => ctx.fail (.endOfInput bracket.openForm)
    | some c =>
      if c == bracket.closer then
        let _ ← ReadM.nextChar
        ctx.close bracket spine
      else
        match ← item ctx bound with
        | .comment => items ctx bound bracket spine
        | .endOfInput => ctx.fail (.endOfInput bracket.openForm)
        | .form v =>
          match ← ctx.append bracket spine v with
          | .dotted head last =>
            match ← form ctx bound with
            | none => ctx.fail (.endOfInput bracket.openForm)
            | some tail =>
              let spine ← ctx.append bracket (.dotted head last) tail
              readCloser ctx bracket
              ctx.close bracket spine
          | spine => items ctx bound bracket spine

end

end Context.Recursive

namespace Context

variable {σ V : Type}

/-- Reads one form by recursion; at the end of input it is the host's `endOfStream`. -/
def readFormRecursively (ctx : Context σ V) : ReadM σ V := do
  -- A character opens at most one form, which waits in at most three calls.
  let bound := 3 * (← get).source.remaining.length + 3
  return (← Recursive.form ctx bound).getD ctx.host.endOfStream

end Context

end SexprReader
