import Mathlib.Algebra.Group.Nat.Even
import Mathlib.Data.List.Induction
import SexprReader.Reader.Lexeme
import SexprReader.Text.Escape

/-! Double quotes and backslashes in string literals. The end of a literal is found first and escapes are
interpreted in it later, and both take the same backslashes for escaped. -/

namespace SexprReader

open Lexeme

namespace Escape

/-- A backslash in front of every backslash and every double quote. -/
def escape (text : List Char) : List Char :=
  text.flatMap fun c => if c = '\\' ∨ c = '\x22' then ['\\', c] else [c]

def trailing (text : List Char) : Nat := (text.reverse.takeWhile (· == '\\')).length

/-- Behind an opening quote, the double quote at this place is not escaped. -/
def Closes (text : List Char) (i : Nat) : Prop := text[i]? = some '\x22' ∧ Even (trailing (text.take i))

/-- The text ends in a backslash that escapes nothing when it is interpreted. -/
def dangles (text : List Char) : Bool := (text.foldl Progress.next ⟨false, []⟩).escaped

theorem interpretChars_escaped (text : List Char) : interpretChars (escape text) = text := by
  induction text with
  | nil => rfl
  | cons c text ih =>
    rw [escape, List.flatMap_cons, ← escape]
    by_cases special : c = '\\' ∨ c = '\x22'
    · have itself : named c = c := by rcases special with rfl | rfl <;> rfl
      rw [if_pos special, List.cons_append, List.singleton_append, interpretChars_escape, itself, ih]
    · have plain : c ≠ '\\' := fun backslash => special (.inl backslash)
      rw [if_neg special, List.singleton_append, interpretChars_cons plain, ih]

theorem trailing_concat (text : List Char) (c : Char) :
    trailing (text ++ [c]) = if c = '\\' then trailing text + 1 else 0 := by
  by_cases backslash : c = '\\' <;> simp [trailing, backslash]

theorem dangles_concat (text : List Char) (c : Char) :
    dangles (text ++ [c]) = (!dangles text && c == '\\') := by
  rw [dangles, List.foldl_append, List.foldl_cons, List.foldl_nil, Progress.next, ← dangles]
  cases dangles text with
  | true => rfl
  | false => by_cases backslash : c = '\\' <;> simp [backslash]

/-- Of the backslashes at the end of a text, each second one is escaped by the one before it. -/
theorem dangles_eq_false_iff (text : List Char) : dangles text = false ↔ Even (trailing text) := by
  induction text using List.reverseRecOn with
  | nil => simp [dangles, trailing]
  | append_singleton text c ih =>
    rw [dangles_concat, trailing_concat]
    by_cases backslash : c = '\\'
    · rw [if_pos backslash, Nat.even_add_one, ← ih]
      simp [backslash]
    · simp [backslash]

end Escape

open Escape

/-- Where no double quote can end the literal, the scanner goes on, and it knows whether the next character
is escaped. -/
theorem splitThrough_scanString_append {text : List Char} (open_ : ∀ i, ¬Closes text i) (more : List Char) :
    splitThrough scanString false [] (text ++ more) =
      splitThrough scanString (dangles text) text.reverse more := by
  induction text using List.reverseRecOn generalizing more with
  | nil => rfl
  | append_singleton text c ih =>
    have earlier (i : Nat) : ¬Closes text i := by
      rintro ⟨quote, even⟩
      have inside := (List.getElem?_eq_some_iff.mp quote).1
      refine open_ i ⟨?_, ?_⟩
      · rw [List.getElem?_append_left inside, quote]
      · rwa [List.take_append_of_le_length (Nat.le_of_lt inside)]
    have escaped (quote : c = '\x22') : dangles text = true := by
      rw [← Bool.not_eq_false, dangles_eq_false_iff]
      intro even
      exact open_ text.length ⟨by simp [quote], by simpa using even⟩
    have step : scanString (dangles text) c = some (dangles (text ++ [c])) := by
      rw [dangles_concat, scanString]
      cases state : dangles text with
      | true => rfl
      | false =>
        have other : c ≠ '\x22' := fun quote => by simp [escaped quote] at state
        simp [other]
    rw [List.append_assoc, List.singleton_append, ih earlier, splitThrough, step, List.reverse_append]
    rfl

theorem splitThrough_scanString_of_closes {text : List Char} {i : Nat} (closes : Closes text i)
    (first : ∀ j < i, ¬Closes text j) :
    splitThrough scanString false [] text = some (text.take i ++ ['\x22'], text.drop (i + 1)) := by
  obtain ⟨inside, quote⟩ := List.getElem?_eq_some_iff.mp closes.1
  have open_ (j : Nat) : ¬Closes (text.take i) j := by
    rintro ⟨quote', even⟩
    have before : j < i := by
      have below := (List.getElem?_eq_some_iff.mp quote').1
      rw [List.length_take] at below
      omega
    refine first j before ⟨?_, ?_⟩
    · rwa [List.getElem?_take_of_lt before] at quote'
    · rwa [List.take_take, Nat.min_eq_left (Nat.le_of_lt before)] at even
  have parts : text = text.take i ++ '\x22' :: text.drop (i + 1) := by
    rw [← quote, List.getElem_cons_drop, List.take_append_drop]
  calc splitThrough scanString false [] text
    _ = splitThrough scanString false [] (text.take i ++ '\x22' :: text.drop (i + 1)) := by rw [← parts]
    _ = splitThrough scanString false (text.take i).reverse ('\x22' :: text.drop (i + 1)) := by
      rw [splitThrough_scanString_append open_, (dangles_eq_false_iff _).mpr closes.2]
    _ = some (text.take i ++ ['\x22'], text.drop (i + 1)) := by simp [splitThrough, scanString]

theorem splitThrough_scanString_of_open {text : List Char} (open_ : ∀ i, ¬Closes text i) :
    splitThrough scanString false [] text = none := by
  simpa [splitThrough] using splitThrough_scanString_append open_ []

theorem splitThrough_scanString_escape (text rest : List Char) :
    splitThrough scanString false [] (escape text ++ '\x22' :: rest) =
      some (escape text ++ ['\x22'], rest) := by
  have passes (seen : List Char) : splitThrough scanString false seen (escape text ++ '\x22' :: rest) =
      some (seen.reverse ++ escape text ++ ['\x22'], rest) := by
    induction text generalizing seen with
    | nil => simp [escape, splitThrough, scanString]
    | cons c text ih =>
      rw [escape, List.flatMap_cons, ← escape]
      by_cases special : c = '\\' ∨ c = '\x22'
      · have pair : splitThrough scanString false seen ('\\' :: c :: (escape text ++ '\x22' :: rest)) =
            splitThrough scanString false (c :: '\\' :: seen) (escape text ++ '\x22' :: rest) := rfl
        rw [if_pos special, List.cons_append, List.singleton_append, List.cons_append, List.cons_append, pair,
          ih]
        simp
      · have plain : scanString false c = some false := by
          rw [not_or] at special
          simp [scanString, special]
        rw [if_neg special, List.singleton_append, List.cons_append, splitThrough, plain]
        simp only [ih]
        simp
  exact passes []

end SexprReader
