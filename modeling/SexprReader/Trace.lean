import SexprReader.ReadError

namespace SexprReader

/-- A report of the reader. Its line and column are those of the last consumed character. -/
inductive Event where
  | lineComment (line column : Option Int)
  | shebangComment (line column : Option Int)
  | dispatching (c : Char) (line column : Option Int)
  | discardedDatum
  | failed (e : ReadError)
deriving DecidableEq, Repr

namespace Event

def traceLevel : Int := 5

def debugLevel : Int := 10

def level : Event → Int
  | failed _ => debugLevel
  | _ => traceLevel

def locationText (line column : Option Int) : String :=
  optionalInt line ++ ":" ++ optionalInt column

def message : Event → String
  | lineComment line column => "Line comment at " ++ locationText line column
  | shebangComment line column => "Shebang comment at " ++ locationText line column
  | dispatching c line column =>
    "Dispatching on '" ++ c.toString ++ "' at " ++ locationText line column
  | discardedDatum => "Discarded datum comment"
  | failed e => "Reader error: " ++ e.describe

end Event

end SexprReader
