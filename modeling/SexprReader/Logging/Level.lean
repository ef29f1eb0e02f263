namespace SexprReader.Logging

def levelNames : List (String × Int) :=
  [("CRITICAL", 50), ("FATAL", 50), ("ERROR", 40), ("WARNING", 30), ("WARN", 30), ("INFO", 20),
    ("DEBUG", 10), ("TRACE", 5), ("NOTSET", 0)]

def level? (name : String) : Option Int := levelNames.lookup name

def levelName (level : Int) : String :=
  match levelNames.find? (·.2 == level) with
  | some (name, _) => name
  | none => "Level " ++ level.repr

/-- The level of a logger which has none of its own, nor has any above it. -/
def defaultLevel : Int := 30

end SexprReader.Logging
