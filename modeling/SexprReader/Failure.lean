import SexprReader.ReadError

namespace SexprReader

/-- How many calls may be nested in one where no other limit is given. The limit is that of the stack
on which the library is run, so that nothing is stated for this one alone. -/
def standardLimit : Nat := 245

inductive ValueFault where
  | noSuchField
  | immutable
  | notIterable
  | improperList
  | notAVector
  | indexOutOfRange
  | unhashable
  | notOneCharacter
  | notACodePoint
  /-- A code point that does not even fit a word of 32 bits. -/
  | codePointOverflow
  | tooManyDigits
  | unusableRadix
  | tooDeep
  | cyclic
deriving DecidableEq, Repr

inductive Failure where
  | reading (e : ReadError)
  | host (message : String) (cause : Option ReadError)
  | value (fault : ValueFault)
  | undecodable
  | fileNotFound
  /-- A text was handed over bare, without the lookahead of a source. -/
  | rawText (typeName : String)
  /-- Hooks were nested beyond the limit. -/
  | tooDeep
  /-- A hook has taken more steps than the text has characters. -/
  | stalled
deriving DecidableEq, Repr

def ValueFault.message? : ValueFault → Option String
  | improperList => some "Cannot iterate over an improper list"
  | _ => none

def Failure.message? : Failure → Option String
  | reading e => some e.message
  | host message _ => some message
  | value fault => fault.message?
  | rawText typeName => some ("read_one requires a CharacterSource, not " ++ typeName ++
      "; wrap text streams in a StreamReader")
  | undecodable | fileNotFound | tooDeep | stalled => none

end SexprReader
