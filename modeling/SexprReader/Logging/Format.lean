import SexprReader.Logging.Level

namespace SexprReader.Logging

structure Record where
  logger : String
  level : Int
  message : String
deriving DecidableEq, Repr

inductive Field where
  | message
  | levelName
  | loggerName
deriving DecidableEq, Repr

def Field.all : List Field := [message, levelName, loggerName]

def Field.mark : Field → String
  | message => "%(message)s"
  | levelName => "%(levelname)s"
  | loggerName => "%(name)s"

def Field.of (record : Record) : Field → String
  | message => record.message
  | levelName => Logging.levelName record.level
  | loggerName => record.logger

def fieldAt? (text : List Char) : Option Field :=
  Field.all.find? (·.mark.toList.isPrefixOf text)

structure Format where
  text : String
deriving DecidableEq, Repr

namespace Format

def messageOnly : Format := ⟨Field.message.mark⟩

def standard : Format := ⟨"%(levelname)s [%(name)s] %(message)s"⟩

def behindNumber? : List Char → Option (List Char)
  | '*' :: rest => some rest
  | text => if (text.takeWhile Char.isDigit).isEmpty then none else some (text.dropWhile Char.isDigit)

/-- A text begins with the mark of a field, whatever its name: a name in parentheses, flags, a width, a
precision and a conversion. -/
def beginsMark : List Char → Bool
  | '%' :: '(' :: text =>
    match text.dropWhile (fun c => c.isAlphanum || c == '_') with
    | ')' :: rest =>
      let rest := rest.dropWhile "#0+ -".toList.contains
      let rest := (behindNumber? rest).getD rest
      let rest := match rest with
        | '.' :: precision => (behindNumber? precision).getD rest
        | _ => rest
      text.head? != some ')' && rest.head?.any fun c => "diouxefgcrsa%".toList.contains c.toLower
    | _ => false
  | _ => false

def hasMark : List Char → Bool
  | [] => false
  | c :: rest => beginsMark (c :: rest) || hasMark rest

def isMarked (text : String) : Bool := hasMark text.toList

/-- Whether a text is accepted as a layout depends on what is to lay out the records. Usually it must have
the mark of a field in it. An empty one means the message alone. -/
def ofText? (text : String) (accepts : String → Bool := isMarked) : Option Format :=
  if text.isEmpty then some messageOnly
  else if accepts text then some ⟨text⟩
  else none

/-- Lays out a record, over what is left of the layout, once `skip` more characters of a mark
are passed. Two percent signs stand for one. Of the marks only those of `Field` are filled in. -/
def layOutFrom (record : Record) : (skip : Nat) → (done : String) → List Char → String
  | _, done, [] => done
  | skip + 1, done, _ :: rest => layOutFrom record skip done rest
  | 0, done, c :: rest =>
    match fieldAt? (c :: rest) with
    | some field =>
      layOutFrom record (field.mark.length - 1) (done ++ field.of record) rest
    | none =>
      if c == '%' && rest.head? == some '%' then layOutFrom record 1 (done.push '%') rest
      else layOutFrom record 0 (done.push c) rest

def layOut (format : Format) (record : Record) : String :=
  layOutFrom record 0 "" format.text.toList

end Format

end SexprReader.Logging
