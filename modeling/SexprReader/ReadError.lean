import SexprReader.QuoteMark

namespace SexprReader

/-- The classes of errors a text can have; `general` is the class all others belong to. -/
inductive ErrorKind where
  | unexpectedEnd
  | unexpectedCharacter
  | malformedDottedList
  | invalidNumberLiteral
  | unknownCharacterName
  | unsupportedHashSequence
  | general
deriving DecidableEq, Repr

namespace ErrorKind

def name : ErrorKind → String
  | unexpectedEnd => "UnexpectedEOFError"
  | unexpectedCharacter => "UnexpectedCharacterError"
  | malformedDottedList => "MalformedDottedListError"
  | invalidNumberLiteral => "InvalidNumberLiteralError"
  | unknownCharacterName => "UnknownCharacterNameError"
  | unsupportedHashSequence => "UnsupportedHashSequenceError"
  | general => "SyntaxError"

def qualifiedName (kind : ErrorKind) : String := "lispread.lang.exception." ++ kind.name

end ErrorKind

inductive OpenForm where
  | list
  | vector
  | string
  | blockComment
  | hash
  | character
  | quoted (mark : QuoteMark)
deriving DecidableEq, Repr

/-- Why a text cannot be read. `custom` is for hosts and hooks with errors of their own. -/
inductive ReadFault where
  | endOfInput (inside : OpenForm)
  | unexpectedCharacter (c : Char)
  | nothingBeforeDot
  | dotInVector
  | afterDottedTail (expected found : Char)
  | invalidNumber (digits : String) (radix : Nat)
  | unknownCharacter (name : String)
  | unsupportedHash (c : Char)
  | custom (kind : ErrorKind) (message : String)
deriving DecidableEq, Repr

namespace OpenForm

def message : OpenForm → String
  | list => "Unexpected EOF in list"
  | vector => "Unexpected EOF in vector"
  | string => "Unexpected EOF in string"
  | blockComment => "Unterminated block comment"
  | hash => "Unexpected EOF after '#'"
  | character => "Unexpected EOF after '#\\'"
  | quoted mark => "Unexpected EOF after '" ++ mark.text ++ "'"

end OpenForm

namespace ReadFault

def kind : ReadFault → ErrorKind
  | endOfInput _ => .unexpectedEnd
  | unexpectedCharacter _ => .unexpectedCharacter
  | nothingBeforeDot => .malformedDottedList
  | dotInVector => .malformedDottedList
  | afterDottedTail _ _ => .malformedDottedList
  | invalidNumber _ _ => .invalidNumberLiteral
  | unknownCharacter _ => .unknownCharacterName
  | unsupportedHash _ => .unsupportedHashSequence
  | custom kind _ => kind

def message : ReadFault → String
  | endOfInput inside => inside.message
  | unexpectedCharacter c => "Unexpected character '" ++ c.toString ++ "'"
  | nothingBeforeDot => "Expected an element before '.'"
  | dotInVector => "Unexpected '.' in vector"
  | afterDottedTail expected found =>
    "Expected '" ++ expected.toString ++ "' after dotted tail; found '" ++ found.toString ++ "'"
  | invalidNumber digits radix =>
    "Invalid number literal '" ++ digits ++ "' for radix " ++ radix.repr
  | unknownCharacter name => "Unknown character name '#\\" ++ name ++ "'"
  | unsupportedHash c => "Unsupported sequence '#" ++ c.toString ++ "'"
  | custom _ message => message

end ReadFault

structure ReadError where
  fault : ReadFault
  line : Option Int
  column : Option Int
  filename : Option String
deriving DecidableEq, Repr

def absentText : String := "None"

def optionalInt : Option Int → String
  | none => absentText
  | some n => n.repr

namespace ReadError

def kind (e : ReadError) : ErrorKind := e.fault.kind

def message (e : ReadError) : String := e.fault.message

def isUnexpectedEnd (e : ReadError) : Bool := e.kind == .unexpectedEnd

/-- The parts of the location that are known; line and column count only together. -/
def details (e : ReadError) : List String :=
  (match e.filename with
    | some file => ["file: " ++ file]
    | none => []) ++
  (match e.line, e.column with
    | some line, some column => ["line: " ++ line.repr, "col: " ++ column.repr]
    | _, _ => [])

def describe (e : ReadError) : String :=
  match e.details with
  | [] => e.message
  | details => e.message ++ " (" ++ ", ".intercalate details ++ ")"

def debugText (e : ReadError) : String :=
  e.kind.qualifiedName ++ "(" ++ e.message ++ ", " ++ optionalInt e.line ++ ", " ++
    optionalInt e.column ++ ", filename=" ++ e.filename.getD absentText ++ ")"

end ReadError

end SexprReader
