/-! Where the last consumed character of a text stands, by line and column.
A line ends at LF, at CR LF, and at a CR which anything but LF follows. -/

namespace SexprReader

/-- The place of the last consumed character, together with that character. -/
structure Place where
  line : Int
  column : Int
  last : Option Char
deriving DecidableEq, Repr

namespace Place

def start (line column : Int) : Place := ⟨line, column, none⟩

/-- The last character closed its line, given that `c` comes next. -/
def endsLineBefore (p : Place) (c : Char) : Bool :=
  match p.last with
  | none => false
  | some last => last == '\n' || (last == '\r' && c != '\n')

def advance (p : Place) (c : Char) : Place :=
  if p.endsLineBefore c then ⟨p.line + 1, 1, some c⟩
  else ⟨p.line, p.column + 1, some c⟩

def advanceAll (p : Place) (cs : List Char) : Place := cs.foldl advance p

@[simp] theorem advanceAll_nil (p : Place) : p.advanceAll [] = p := rfl

@[simp] theorem advanceAll_cons (p : Place) (c : Char) (cs : List Char) :
    p.advanceAll (c :: cs) = (p.advance c).advanceAll cs := rfl

theorem advanceAll_append (p : Place) (cs ds : List Char) :
    p.advanceAll (cs ++ ds) = (p.advanceAll cs).advanceAll ds :=
  List.foldl_append

@[simp] theorem advance_last (p : Place) (c : Char) : (p.advance c).last = some c := by
  unfold advance
  split <;> rfl

end Place

end SexprReader
