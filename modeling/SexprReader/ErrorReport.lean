import SexprReader.ReadError

namespace SexprReader

/-- An error as reports see it: one in a text, or any other by its class and message. -/
inductive Problem where
  | reading (e : ReadError)
  | other (className message : String)
deriving DecidableEq, Repr

namespace Problem

def className : Problem → String
  | reading e => e.kind.qualifiedName
  | other name _ => name

def classText (p : Problem) : String := "<class '" ++ p.className ++ "'>"

def text : Problem → String
  | reading e => e.describe
  | other _ message => message

def line (p : Problem) : String :=
  if p.text.isEmpty then p.className ++ "\n" else p.className ++ ": " ++ p.text ++ "\n"

end Problem

namespace ErrorReport

def position (e : ReadError) : Option String :=
  match e.line, e.column with
  | some line, some column => some (line.repr ++ ":" ++ column.repr)
  | some line, none => some line.repr
  | none, _ => none

def locationLines (e : ReadError) : List String :=
  match e.filename, position e with
  | some file, position =>
    ["   location: " ++ file ++ ":" ++ position.getD "NO_SOURCE_LINE" ++ "\n"]
  | none, some position => ["       line: " ++ position ++ "\n"]
  | none, none => []

def readingLines (e : ReadError) (cause : Option Problem) : List String :=
  let error := Problem.reading e
  let (classes, message) := match cause with
    | none => (error.classText, e.message)
    | some cause => (cause.classText ++ " from " ++ error.classText, e.message ++ ": " ++ cause.text)
  ["\n", "  exception: " ++ classes ++ "\n", "    message: " ++ message ++ "\n"] ++ locationLines e

def causeLine : String :=
  "\nThe above exception was the direct cause of the following exception:\n\n"

/-- An error below its causes, the first of which comes first. -/
def chainLines : Problem → (causes : List Problem) → List String
  | problem, [] => [problem.line]
  | problem, cause :: causes => chainLines cause causes ++ [causeLine, problem.line]

/-- The report of an error, given first, and its chain of causes; without any error it says so. -/
def lines : List Problem → List String
  | [] => ["NoneType: None\n"]
  | .reading e :: causes => readingLines e causes.head?
  | problem :: causes => chainLines problem causes

def printed (problems : List Problem) : String := String.join (lines problems) ++ "\n"

end ErrorReport

end SexprReader
