import SexprReader.Reader.Lexeme

namespace SexprReader

inductive Bracket where
  | round
  | square
  | vector
deriving DecidableEq, Repr

namespace Bracket

def closer : Bracket → Char
  | round => ')'
  | square => ']'
  | vector => ')'

def openForm : Bracket → OpenForm
  | round => .list
  | square => .list
  | vector => .vector

end Bracket

/-- What a list holds so far: its first and its last pair, and what may come next. A pair that a host
has made is never the null of that host, so that a list with a last pair cannot be taken for one
without. -/
inductive Spine (V : Type) where
  | empty
  | growing (head last : V)
  /-- A dot was read, and the form behind it becomes the rest of `last`. -/
  | dotted (head last : V)
  /-- The form behind the dot is in place; only the closing bracket may follow. -/
  | sealed (head last : V)
deriving DecidableEq, Repr

inductive Frame (V : Type) where
  | list (bracket : Bracket) (spine : Spine V)
  | quoted (mark : QuoteMark) (symbol : V)
  | datumComment
deriving DecidableEq, Repr

abbrev Stack (V : Type) := List (Frame V)

/-- How far a form is after a step. The end of input counts as `finished none`. -/
inductive Progress (V : Type) where
  | pending (stack : Stack V)
  | finished (form : Option V)
deriving DecidableEq, Repr

namespace Context

variable {σ V : Type}

/-- Appends a form to a list. The dot symbol announces the tail instead. No form is read behind the tail
of a `sealed` list, so that nothing is ever appended to one. -/
def append (ctx : Context σ V) (bracket : Bracket) (spine : Spine V) (form : V) :
    ReadM σ (Spine V) := do
  match spine with
  | .dotted head last =>
    ReadM.hosted (ctx.host.setRest last form)
    return .sealed head last
  | .empty =>
    if ctx.host.eq form ctx.dot then
      ctx.fail .nothingBeforeDot
    else
      let pair ← ReadM.hosted (ctx.host.makePair form ctx.host.nil)
      return .growing pair pair
  | .growing head last =>
    if ctx.host.eq form ctx.dot then
      if bracket = .vector then ctx.fail .dotInVector
      else return .dotted head last
    else
      let pair ← ReadM.hosted (ctx.host.makePair form ctx.host.nil)
      ReadM.hosted (ctx.host.setRest last pair)
      return .growing head pair
  | .sealed head last => return .sealed head last

def close (ctx : Context σ V) (bracket : Bracket) (spine : Spine V) : ReadM σ V :=
  let head := match spine with
    | .empty => ctx.host.nil
    | .growing head _ | .dotted head _ | .sealed head _ => head
  match bracket with
  | .vector => ReadM.hosted (ctx.host.listToVector head)
  | .round | .square => pure head

/-- Hands a complete form, or the end of input, to the innermost open form. Quotes around it
are complete with it, and a datum comment swallows it. -/
def complete (ctx : Context σ V) : Stack V → Option V → ReadM σ (Progress V)
  | [], form => pure (.finished form)
  | .datumComment :: outer, none => complete ctx outer none
  | .datumComment :: outer, some _ => do
    ReadM.report .discardedDatum
    return .pending outer
  | .quoted mark _ :: _, none => ctx.fail (.endOfInput (.quoted mark))
  | .quoted _ symbol :: outer, some form => do
    let rest ← ReadM.hosted (ctx.host.makePair form ctx.host.nil)
    let pair ← ReadM.hosted (ctx.host.makePair symbol rest)
    complete ctx outer (some pair)
  | .list bracket _ :: _, none => ctx.fail (.endOfInput bracket.openForm)
  | .list bracket spine :: outer, some form => do
    let spine ← ctx.append bracket spine form
    return .pending (.list bracket spine :: outer)

end Context

end SexprReader
