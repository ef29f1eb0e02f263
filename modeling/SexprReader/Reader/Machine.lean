import SexprReader.Reader.Frame

/-! Reading one form. Open lists, quotes and datum comments are kept on a stack, so that the
depth of a text is bounded by nothing but its length. -/

namespace SexprReader

inductive Starter where
  | mark (mark : QuoteMark)
  | comma
  | list (bracket : Bracket)
  | hash
  | string
  | token
  | nothing
deriving DecidableEq, Repr

def Starter.ofChar (bracketLists : Bool) (c : Char) : Starter :=
  match c with
  | '\x27' => .mark .quote
  | '\x60' => .mark .quasiquote
  | ',' => .comma
  | '(' => .list .round
  | '#' => .hash
  | '\x22' => .string
  | _ =>
    if c == '[' && bracketLists then .list .square
    else if Lexeme.startsToken c then .token
    else .nothing

inductive Constant where
  | false
  | true
  | unspecified
  | logicalEof
deriving DecidableEq, Repr

def Constant.ofChar? (c : Char) : Option Constant :=
  if c == 'f' || c == 'F' then some .false
  else if c == 't' || c == 'T' then some .true
  else if c == 'u' || c == 'U' then some .unspecified
  else if c == '#' then some .logicalEof
  else none

def Host.constant? {σ V : Type} (host : Host σ V) : Constant → Option V
  | .false => some host.false
  | .true => host.true?
  | .unspecified => host.unspecified?
  | .logicalEof => host.logicalEof?

inductive HashStarter (V : Type) where
  | shebang
  | blockComment
  | datumComment
  | vector
  | character
  | constant (value : V)
  | radix (radix : Nat)
  | unknown
deriving DecidableEq, Repr

inductive FormStart (V : Type) where
  | whole (form : V)
  | comment
  | opening (frame : Frame V)
  | endOfInput
deriving DecidableEq, Repr

namespace Context

open Lexeme

variable {σ V : Type}

def hashStarter (ctx : Context σ V) (c : Char) : HashStarter V :=
  match c with
  | '!' => .shebang
  | '|' => .blockComment
  | ';' => .datumComment
  | '(' => .vector
  | '\\' => .character
  | _ =>
    match (Constant.ofChar? c).bind ctx.host.constant?, radix? c with
    | some value, _ => .constant value
    | none, some radix => .radix radix
    | none, none => .unknown

/-- Hands a sequence no built-in one matches to the hook. -/
def readUnknownHash (ctx : Context σ V) (hook : Option (Hook σ V)) (readForm : ReadM σ V)
    (c : Char) : ReadM σ (FormStart V) := do
  match hook with
  | none => ctx.fail (.unsupportedHash c)
  | some hook =>
    match ← hook.answer ctx readForm c with
    | some form => return .whole form
    | none => return .comment

def readSequence (ctx : Context σ V) (hook : Option (Hook σ V)) (readForm : ReadM σ V)
    (c : Char) : ReadM σ (FormStart V) := do
  let _ ← ReadM.nextChar
  match ctx.hashStarter c with
  | .shebang =>
    skipLine
    return .comment
  | .blockComment =>
    ctx.skipBlockComment
    return .comment
  | .datumComment => return .opening .datumComment
  | .vector => return .opening (.list .vector .empty)
  | .character => return .whole (← ctx.readCharacter)
  | .constant value => return .whole value
  | .radix radix => return .whole (← ctx.readRadixNumber radix)
  | .unknown => ctx.readUnknownHash hook readForm c

/-- Reads a sequence behind its `#`. Exactness marks in front of it mean nothing. -/
def readHash (ctx : Context σ V) (hook : Option (Hook σ V)) (readForm : ReadM σ V) :
    ReadM σ (FormStart V) := do
  let _ ← ReadM.takeWhile isExactness
  match ← ReadM.peekChar with
  | none => ctx.fail (.endOfInput .hash)
  | some c =>
    if c == '!' then ReadM.reportHere .shebangComment
    ctx.readSequence hook readForm c

def quoted (ctx : Context σ V) (mark : QuoteMark) : FormStart V :=
  .opening (.quoted mark (ctx.quoteSymbol mark))

/-- Reads what begins with a character just consumed: all of it, unless it is a list, a quote or
a comment. -/
def readStarted (ctx : Context σ V) (hook : Option (Hook σ V)) (readForm : ReadM σ V)
    (c : Char) : ReadM σ (FormStart V) := do
  match Starter.ofChar ctx.bracketLists c with
  | .mark mark => return ctx.quoted mark
  | .comma =>
    if (← ReadM.peekChar) == some '@' then
      let _ ← ReadM.nextChar
      return ctx.quoted .unquoteSplicing
    else
      return ctx.quoted .unquote
  | .list bracket => return .opening (.list bracket .empty)
  | .hash => ctx.readHash hook readForm
  | .string => return .whole (← ctx.readString)
  | .token => return .whole (← ctx.readToken c)
  | .nothing => ctx.fail (.unexpectedCharacter c)

def readDatum (ctx : Context σ V) (hook : Option (Hook σ V)) (readForm : ReadM σ V) :
    ReadM σ (FormStart V) := do
  match ← skipBlanks with
  | none => return .endOfInput
  | some c =>
    let _ ← ReadM.nextChar
    ReadM.reportHere (.dispatching c)
    ctx.readStarted hook readForm c

def readPart (ctx : Context σ V) (hook : Option (Hook σ V)) (readForm : ReadM σ V)
    (stack : Stack V) : ReadM σ (Progress V) := do
  match ← ctx.readDatum hook readForm with
  | .whole form => ctx.complete stack (some form)
  | .endOfInput => ctx.complete stack none
  | .comment => return .pending stack
  | .opening frame => return .pending (frame :: stack)

/-- Takes the innermost open form one part further, or closes it. -/
def step (ctx : Context σ V) (hook : Option (Hook σ V)) (readForm : ReadM σ V)
    (stack : Stack V) : ReadM σ (Progress V) := do
  match stack with
  | .list bracket (.sealed head last) :: outer =>
    match ← skipBlanks with
    | none => ctx.fail (.endOfInput bracket.openForm)
    | some c =>
      let _ ← ReadM.nextChar
      if c == bracket.closer then
        ctx.complete outer (some (← ctx.close bracket (.sealed head last)))
      else
        ctx.fail (.afterDottedTail bracket.closer c)
  | .list _ (.dotted _ _) :: _ => ctx.readPart hook readForm stack
  | .list bracket spine :: outer =>
    match ← skipBlanks with
    | none => ctx.fail (.endOfInput bracket.openForm)
    | some c =>
      if c == bracket.closer then
        let _ ← ReadM.nextChar
        ctx.complete outer (some (← ctx.close bracket spine))
      else
        ctx.readPart hook readForm stack
  | _ => ctx.readPart hook readForm stack

/-- Takes steps until the outermost form is finished, at most one for each character of
`bound` and one more. -/
def run (ctx : Context σ V) (hook : Option (Hook σ V)) (readForm : ReadM σ V) :
    (bound : List Char) → Stack V → ReadM σ (Option V)
  | bound, stack => do
    match ← ctx.step hook readForm stack with
    | .finished form => return form
    | .pending stack =>
      match bound with
      | [] => throw .stalled
      | _ :: bound => run ctx hook readForm bound stack

/-- Reads one form in one of at most `depth` nested reads. -/
def readFormWithin (ctx : Context σ V) (hook : Option (Hook σ V)) : (depth : Nat) → ReadM σ V
  | 0 => throw .tooDeep
  | depth + 1 => do
    let form ← ctx.run hook (readFormWithin ctx hook depth) (← get).source.remaining []
    return form.getD ctx.host.endOfStream

/-- What the first call of a hook reads a form with. -/
def readNested (ctx : Context σ V) (hook : Option (Hook σ V)) : ReadM σ V :=
  ctx.readFormWithin hook (hook.elim 0 Hook.limit)

/-- Reads one form; at the end of input it is the host's `endOfStream`. -/
def readForm (ctx : Context σ V) (hook : Option (Hook σ V)) : ReadM σ V := do
  let form ← ctx.run hook (ctx.readNested hook) (← get).source.remaining []
  return form.getD ctx.host.endOfStream

end Context

end SexprReader
