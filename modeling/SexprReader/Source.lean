import SexprReader.Place

/-! A source of characters with one character of lookahead. Everything a reader can learn
from it goes through `remaining`, the characters not yet consumed, and `ending`. -/

namespace SexprReader

inductive Ending where
  | endOfInput
  | undecodable
deriving DecidableEq, Repr

structure Source where
  /-- The character already pulled from the text and not yet consumed. -/
  lookahead : Option Char
  unread : List Char
  ending : Ending
  /-- Absent when the source does not count lines. -/
  place : Option Place
  name : Option String
deriving DecidableEq, Repr

namespace Source

/-- A text whose lines are counted from `line` and whose columns follow `column`. -/
def ofText (text : List Char) (line column : Int) (name : Option String) : Source :=
  ⟨none, text, .endOfInput, some (.start line column), name⟩

def plain (text : List Char) : Source := ⟨none, text, .endOfInput, none, none⟩

def remaining (s : Source) : List Char := s.lookahead.toList ++ s.unread

def line? (s : Source) : Option Int := s.place.map Place.line

def column? (s : Source) : Option Int := s.place.map Place.column

def pull (s : Source) : Source :=
  match s.lookahead, s.unread with
  | none, c :: cs => { s with lookahead := some c, unread := cs }
  | _, _ => s

def consume (s : Source) (taken rest : List Char) : Source :=
  { s with lookahead := none, unread := rest, place := s.place.map (·.advanceAll taken) }

/-- Asking for another character would meet bytes that decode to none. -/
def atUndecodable (s : Source) : Bool :=
  s.remaining.isEmpty && s.ending == .undecodable

@[simp] theorem remaining_ofText (text : List Char) (line column : Int) (name : Option String) :
    (ofText text line column name).remaining = text := rfl

@[simp] theorem remaining_pull (s : Source) : s.pull.remaining = s.remaining := by
  unfold pull
  split
  next none_ahead some_unread => simp [remaining, none_ahead, some_unread]
  next => rfl

@[simp] theorem place_pull (s : Source) : s.pull.place = s.place := by
  unfold pull
  split <;> rfl

@[simp] theorem remaining_consume (s : Source) (taken rest : List Char) :
    (s.consume taken rest).remaining = rest := rfl

@[simp] theorem place_consume (s : Source) (taken rest : List Char) :
    (s.consume taken rest).place = s.place.map (·.advanceAll taken) := rfl

end Source

end SexprReader
