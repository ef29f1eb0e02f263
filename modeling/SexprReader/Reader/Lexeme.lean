import SexprReader.Reader.Basic

/-! The parts of a text that are read without nesting: blanks, comments, tokens, strings and
characters. Each production starts where its first character has been consumed. -/

namespace SexprReader

namespace Lexeme

def isWhitespace (c : Char) : Bool :=
  c == ' ' || c == '\t' || c == '\n' || c == '\x0b' || c == '\x0c' || c == '\r'

def isLetter (c : Char) : Bool := c.isAlpha

/-- Letters, digits, some signs, and everything outside ASCII may start a token. -/
def startsToken (c : Char) : Bool :=
  c.isAlphanum || "~!@$%&*_+-=:<>^.?/|".toList.contains c || 128 ≤ c.toNat

def isExactness (c : Char) : Bool := c == 'e' || c == 'E' || c == 'i' || c == 'I'

def radix? (c : Char) : Option Nat :=
  match c.toLower with
  | 'b' => some 2
  | 'o' => some 8
  | 'd' => some 10
  | 'x' => some 16
  | _ => none

def occursIn (text : List Char) : List Char → Bool
  | [] => text.isEmpty
  | c :: row => text.isPrefixOf (c :: row) || occursIn text row

def namedCharacter? (name : List Char) : Option Char :=
  let lower := name.map Char.toLower
  if lower = "space".toList then some ' '
  else if lower = "newline".toList then some '\n'
  else none

/-- The character ends a token. So does the end of input. -/
def isTerminator (bracketLists : Bool) (c : Char) : Bool :=
  c == ';' || c == '(' || c == ')' || c == '#' || isWhitespace c ||
    (bracketLists && (c == '[' || c == ']'))

/-- Scans a string body; the state says that the character before was a lone backslash. -/
def scanString (escaped : Bool) (c : Char) : Option Bool :=
  if escaped then some false
  else if c == '\x22' then none
  else some (c == '\\')

inductive HalfDelimiter where
  | bar
  | hash
deriving DecidableEq, Repr

/-- How many block comments are open, less the outermost, and what the last character began. -/
structure BlockDepth where
  inner : Nat
  half : Option HalfDelimiter
deriving DecidableEq, Repr

/-- Scans a block comment. A delimiter is taken as soon as it is complete, and its characters
begin no other. -/
def scanBlock (depth : BlockDepth) (c : Char) : Option BlockDepth :=
  match depth.half, c with
  | some .bar, '#' =>
    match depth.inner with
    | 0 => none
    | inner + 1 => some ⟨inner, none⟩
  | some .hash, '|' => some ⟨depth.inner + 1, none⟩
  | _, '|' => some ⟨depth.inner, some .bar⟩
  | _, '#' => some ⟨depth.inner, some .hash⟩
  | _, _ => some ⟨depth.inner, none⟩

end Lexeme

namespace Context

open Lexeme

variable {σ V : Type}

/-- A text ends a token if it is empty, begins with whitespace, or is part of a row of
terminators. -/
def endsToken (ctx : Context σ V) (text : List Char) : Bool :=
  occursIn text ";()#".toList || text.head?.any isWhitespace ||
    (ctx.bracketLists && occursIn text "[]".toList)

def skipLine : ReadM σ Unit := do
  let _ ← ReadM.takeWhile (· != '\n')

/-- Consumes whitespace and line comments, with one comment at most for each character of
`bound`, and looks at the character behind them. -/
def skipBlanksWithin : (bound : List Char) → ReadM σ (Option Char)
  | [] => ReadM.peekChar
  | _ :: bound => do
    let _ ← ReadM.takeWhile isWhitespace
    match ← ReadM.peekChar with
    | some ';' =>
      ReadM.reportHere .lineComment
      skipLine
      skipBlanksWithin bound
    | next => return next

def skipBlanks : ReadM σ (Option Char) := do
  skipBlanksWithin (← get).source.remaining

def skipBlockComment (ctx : Context σ V) : ReadM σ Unit := do
  match ← ReadM.takeThrough scanBlock ⟨0, none⟩ with
  | some _ => return
  | none => ctx.fail (.endOfInput .blockComment)

def makeSymbol (ctx : Context σ V) (name : String) : ReadM σ V := do
  let symbol ← ReadM.hosted (ctx.host.internSymbol name)
  match ctx.host.nilSymbol? with
  | some nilSymbol => return if ctx.host.eq symbol nilSymbol then ctx.host.nil else symbol
  | none => return symbol

def makeToken (ctx : Context σ V) (token : String) : ReadM σ V := do
  let number ← ReadM.hosted (ctx.host.parseNumber token 10)
  if ctx.host.eq number ctx.host.false then ctx.makeSymbol token else return number

def readToken (ctx : Context σ V) (lead : Char) : ReadM σ V := do
  let others ← ReadM.takeWhile (!isTerminator ctx.bracketLists ·)
  ctx.makeToken (String.ofList (lead :: others))

def makeNumber (ctx : Context σ V) (radix : Nat) (digits : String) : ReadM σ V := do
  let number ← ReadM.hosted (ctx.host.parseNumber digits radix)
  if ctx.host.eq number ctx.host.false then
    ctx.fail (.invalidNumber digits radix)
  else
    return number

def readRadixNumber (ctx : Context σ V) (radix : Nat) : ReadM σ V := do
  let digits ← ReadM.takeWhile (!isTerminator ctx.bracketLists ·)
  ctx.makeNumber radix (String.ofList digits)

def makeString (ctx : Context σ V) (literal : String) : ReadM σ V := do
  let made ← ReadM.hosted (ctx.host.makeString literal)
  ReadM.hosted (ctx.host.postProcessString made)

/-- Reads a string behind its opening quote. Backslashes stay in it, with what they escape. -/
def readString (ctx : Context σ V) : ReadM σ V := do
  match ← ReadM.takeThrough scanString false with
  | some literal => ctx.makeString (String.ofList literal.dropLast)
  | none => ctx.fail (.endOfInput .string)

def readName (first : Char) : ReadM σ (List Char) :=
  if isLetter first then ReadM.takeWhile isLetter else pure []

def makeNamed (ctx : Context σ V) (first : Char) (others : List Char) : ReadM σ V :=
  match namedCharacter? (first :: others), others with
  | some named, _ => ReadM.hosted (ctx.host.makeCharacter named.toNat)
  | none, [] => ReadM.hosted (ctx.host.makeCharacter first.toNat)
  | none, _ :: _ => ctx.fail (.unknownCharacter (String.ofList (first :: others)))

def readCharacter (ctx : Context σ V) : ReadM σ V := do
  match ← ReadM.nextChar with
  | none => ctx.fail (.endOfInput .character)
  | some first => ctx.makeNamed first (← readName first)

end Context

end SexprReader
