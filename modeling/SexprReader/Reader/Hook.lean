import SexprReader.Reader.Machine

namespace SexprReader.Hook

variable {σ V : Type}

def skip : Hook σ V where
  answer _ _ _ := return none

def constant (value : V) : Hook σ V where
  answer _ _ _ := return some value

def endOfStream : Hook σ V where
  answer ctx _ _ := return some ctx.host.endOfStream

def dot : Hook σ V where
  answer ctx _ _ := return some ctx.dot

def character : Hook σ V where
  answer ctx _ c := do return some (← ReadM.hosted (ctx.host.makeCharacter c.toNat))

def scanAngle (_ : Unit) (c : Char) : Option Unit := if c == '>' then none else some ()

/-- The text up to the next `>`, or to the end of input, as a string. -/
def untilAngle : Hook σ V where
  answer ctx _ c := do
    let others ←
      if c == '>' then pure []
      else do
        let rest := (← get).source.remaining
        pure ((← ReadM.takeThrough scanAngle ()).getD rest)
    return some (← ReadM.hosted (ctx.host.makeString (String.ofList (c :: others))))

def failing : Hook σ V where
  answer _ _ c := throw (.host ("hook " ++ c.toString) none)

/-- Skips the form behind `#_`, and wraps the one behind `#?` as `(maybe form)`. -/
def forms : Hook σ V where
  answer ctx readForm c := do
    match c with
    | '_' =>
      let _ ← readForm
      return none
    | '?' =>
      let form ← readForm
      let maybe ← ReadM.hosted (ctx.host.internSymbol "maybe")
      let rest ← ReadM.hosted (ctx.host.makePair form ctx.host.nil)
      return some (← ReadM.hosted (ctx.host.makePair maybe rest))
    | _ => ctx.fail (.custom .unsupportedHashSequence ("No dispatch for #" ++ c.toString))

end SexprReader.Hook
