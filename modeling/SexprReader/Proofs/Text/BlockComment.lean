import Mathlib.Data.List.Infix
import SexprReader.Reader.Lexeme

/-! Delimiters in block comments. They are told apart from left to right, and a comment ends where closing
ones first outnumber opening ones. The scanner, which sees one character at a time, finds this very place. -/

namespace SexprReader

open Lexeme

/-- A text takes a reader out of a block comment, in which `inner` others are open, with its last
character. Delimiters are taken from left to right, and no character is part of two of them. -/
inductive Nests : (inner : Nat) → List Char → Prop
  | last : Nests 0 ['|', '#']
  | closes {inner : Nat} {text : List Char} (others : Nests inner text) :
      Nests (inner + 1) ('|' :: '#' :: text)
  | opens {inner : Nat} {text : List Char} (others : Nests (inner + 1) text) :
      Nests inner ('#' :: '|' :: text)
  | plain {inner : Nat} {c : Char} {text : List Char}
      (single : ¬['|', '#'] <+: c :: text ∧ ¬['#', '|'] <+: c :: text) (others : Nests inner text) :
      Nests inner (c :: text)

def Lexeme.HalfDelimiter.Apart (half : Option HalfDelimiter) (text : List Char) : Prop :=
  (half = some .bar → text.head? ≠ some '#') ∧ (half = some .hash → text.head? ≠ some '|')

namespace BlockComment

abbrev Single (c : Char) (text : List Char) : Prop :=
  ¬['|', '#'] <+: c :: text ∧ ¬['#', '|'] <+: c :: text

inductive Piece where
  | opening
  | closing
  | single (c : Char)
deriving DecidableEq

/-- Splits a text from left to right. A delimiter is taken as soon as it is met, and its characters are not
used again. -/
def pieces : List Char → List Piece
  | '#' :: '|' :: text => .opening :: pieces text
  | '|' :: '#' :: text => .closing :: pieces text
  | c :: text => .single c :: pieces text
  | [] => []

/-- In the text, closing delimiters outnumber opening ones by `n`. -/
def Surplus (n : Nat) (text : List Char) : Prop :=
  (pieces text).count .closing = (pieces text).count .opening + n

instance (n : Nat) (text : List Char) : Decidable (Surplus n text) :=
  inferInstanceAs (Decidable (_ = _))

def Ends (inner : Nat) (text : List Char) : Prop := ∃ taken, taken <+: text ∧ Nests inner taken

abbrev PlainText := { run : List Char // '#' ∉ run ∧ '|' ∉ run }

/-- What stands between the delimiters of a block comment: plain text and further comments, in any order and
to any depth. -/
inductive Interior where
  | empty
  | text (run : PlainText) (behind : Interior)
  | comment (inner behind : Interior)

def delimited (text : List Char) : List Char := '#' :: '|' :: (text ++ ['|', '#'])

def Interior.render : Interior → List Char
  | empty => []
  | text run behind => run ++ behind.render
  | comment inner behind => delimited inner.render ++ behind.render

end BlockComment

open BlockComment

variable {inner n : Nat} {c : Char} {text rest taken : List Char}

namespace BlockComment

@[elab_as_elim]
theorem pieces_induction {motive : List Char → Prop} (text : List Char) (nil : motive [])
    (opening : ∀ text, motive text → motive ('#' :: '|' :: text))
    (closing : ∀ text, motive text → motive ('|' :: '#' :: text))
    (single : ∀ c text, Single c text → motive text → motive (c :: text)) : motive text := by
  fun_induction pieces text with
  | case1 text ih => exact opening text ih
  | case2 text ih => exact closing text ih
  | case3 c text noOpening noClosing ih =>
    -- The split asks for the characters one by one, where `Single` speaks of prefixes.
    refine single c text ⟨?_, ?_⟩ ih
    · rintro ⟨rest, same⟩
      cases same
      exact noClosing rest rfl rfl
    · rintro ⟨rest, same⟩
      cases same
      exact noOpening rest rfl rfl
  | case4 => exact nil

theorem pieces_single (single : Single c text) : pieces (c :: text) = .single c :: pieces text := by
  rw [pieces]
  · rintro rest rfl rfl
    exact single.2 ⟨rest, rfl⟩
  · rintro rest rfl rfl
    exact single.1 ⟨rest, rfl⟩

theorem surplus_opening : Surplus n ('#' :: '|' :: text) ↔ Surplus (n + 1) text := by
  simp only [Surplus, pieces, List.count_cons_self, List.count_cons_of_ne, ne_eq, reduceCtorEq,
    not_false_eq_true]
  omega

theorem surplus_closing : Surplus (n + 1) ('|' :: '#' :: text) ↔ Surplus n text := by
  simp only [Surplus, pieces, List.count_cons_self, List.count_cons_of_ne, ne_eq, reduceCtorEq,
    not_false_eq_true]
  omega

theorem surplus_single (single : Single c text) : Surplus n (c :: text) ↔ Surplus n text := by
  rw [Surplus, pieces_single single, List.count_cons_of_ne (by simp), List.count_cons_of_ne (by simp),
    Surplus]

end BlockComment

namespace Nests

theorem ne_nil (nests : Nests inner text) : text ≠ [] := by
  cases nests <;> simp

theorem single_append (others : Nests inner text) (single : Single c text) (rest : List Char) :
    Single c (text ++ rest) := by
  have two : 2 ≤ (c :: text).length := Nat.succ_le_succ (List.length_pos_iff.mpr others.ne_nil)
  have begins : c :: text <+: c :: (text ++ rest) := List.prefix_append (c :: text) rest
  exact ⟨fun starts => single.1 (List.prefix_of_prefix_length_le starts begins two),
    fun starts => single.2 (List.prefix_of_prefix_length_le starts begins two)⟩

theorem pieces_append (nests : Nests inner text) (rest : List Char) :
    pieces (text ++ rest) = pieces text ++ pieces rest := by
  induction nests with
  | last => rfl
  | closes _ ih => exact congrArg (Piece.closing :: ·) ih
  | opens _ ih => exact congrArg (Piece.opening :: ·) ih
  | plain single others ih =>
    rw [List.cons_append, pieces_single (others.single_append single rest), ih, pieces_single single]
    rfl

theorem surplus (nests : Nests inner text) : Surplus (inner + 1) text := by
  induction nests with
  | last => rfl
  | closes _ ih => exact surplus_closing.mpr ih
  | opens _ ih => exact surplus_opening.mpr ih
  | plain single _ ih => exact (surplus_single single).mpr ih

theorem behind_plain (run : PlainText) (others : Nests inner text) : Nests inner (run ++ text) := by
  obtain ⟨run, noHash, noBar⟩ := run
  induction run with
  | nil => exact others
  | cons c run ih =>
    rw [List.mem_cons, not_or] at noHash noBar
    refine .plain ⟨?_, ?_⟩ (ih noHash.2 noBar.2)
    · exact fun starts => noBar.1 (List.cons_prefix_cons.mp starts).1
    · exact fun starts => noHash.1 (List.cons_prefix_cons.mp starts).1

end Nests

namespace BlockComment

theorem Interior.nests (interior : Interior) (others : Nests inner text) :
    Nests inner (interior.render ++ text) := by
  induction interior generalizing inner text with
  | empty => exact others
  | text run behind ih =>
    rw [render, List.append_assoc]
    exact .behind_plain run (ih others)
  | comment within behind ihWithin ihBehind =>
    have closed := Nests.closes (ihBehind others)
    simpa [render, delimited] using Nests.opens (ihWithin closed)

namespace Ends

theorem last : Ends 0 ('|' :: '#' :: text) := ⟨['|', '#'], by simp, .last⟩

theorem closing : Ends inner text → Ends (inner + 1) ('|' :: '#' :: text)
  | ⟨taken, begins, nests⟩ => ⟨'|' :: '#' :: taken, by simpa using begins, .closes nests⟩

theorem opening : Ends (inner + 1) text → Ends inner ('#' :: '|' :: text)
  | ⟨taken, begins, nests⟩ => ⟨'#' :: '|' :: taken, by simpa using begins, .opens nests⟩

theorem single (single : Single c text) : Ends inner text → Ends inner (c :: text)
  | ⟨taken, begins, nests⟩ => by
    have within : c :: taken <+: c :: text := List.cons_prefix_cons.mpr ⟨rfl, begins⟩
    exact ⟨c :: taken, within, .plain ⟨fun starts => single.1 (starts.trans within),
      fun starts => single.2 (starts.trans within)⟩ nests⟩

end Ends

theorem ends_of_surplus (surplus : Surplus (inner + 1) text) : Ends inner text := by
  -- Each piece in front changes the surplus just as it changes how many comments are open behind it.
  induction text using pieces_induction generalizing inner with
  | nil => simp [Surplus, pieces] at surplus
  | opening text ih => exact (ih (surplus_opening.mp surplus)).opening
  | closing text ih =>
    cases inner with
    | zero => exact .last
    | succ inner => exact (ih (surplus_closing.mp surplus)).closing
  | single c text single ih => exact .single single (ih ((surplus_single single).mp surplus))

theorem not_ends_iff :
    ¬Ends inner text ↔ ∀ taken, taken <+: text → ¬Surplus (inner + 1) taken := by
  constructor
  · intro open_ taken begins surplus
    obtain ⟨first, earlier, nests⟩ := ends_of_surplus surplus
    exact open_ ⟨first, earlier.trans begins, nests⟩
  · rintro never ⟨taken, begins, nests⟩
    exact never taken begins nests.surplus

theorem nests_of_shortest (surplus : Surplus (inner + 1) taken)
    (shortest : ∀ shorter, shorter <+: taken → Surplus (inner + 1) shorter → shorter = taken) :
    Nests inner taken := by
  obtain ⟨first, begins, nests⟩ := ends_of_surplus surplus
  exact shortest first begins nests.surplus ▸ nests

end BlockComment

section Scanning

variable {half : Option HalfDelimiter}

theorem scanBlock_bar (apart : half ≠ some .hash) :
    scanBlock ⟨inner, half⟩ '|' = some ⟨inner, some .bar⟩ := by
  match half, apart with
  | none, _ => rfl
  | some .bar, _ => rfl

theorem scanBlock_hash (apart : half ≠ some .bar) :
    scanBlock ⟨inner, half⟩ '#' = some ⟨inner, some .hash⟩ := by
  match half, apart with
  | none, _ => rfl
  | some .hash, _ => rfl

theorem scanBlock_other (bar : c ≠ '|') (hash : c ≠ '#') :
    scanBlock ⟨inner, half⟩ c = some ⟨inner, none⟩ := by
  unfold scanBlock
  split <;> simp_all

theorem splitThrough_apart (apart : HalfDelimiter.Apart half text) (seen : List Char) :
    splitThrough scanBlock ⟨inner, half⟩ seen text = splitThrough scanBlock ⟨inner, none⟩ seen text := by
  cases text with
  | nil => rfl
  | cons c text =>
    have step : scanBlock ⟨inner, half⟩ c = scanBlock ⟨inner, none⟩ c := by
      by_cases bar : c = '|'
      · subst bar
        rw [scanBlock_bar fun same => apart.2 same rfl, scanBlock_bar (by simp)]
      · by_cases hash : c = '#'
        · subst hash
          rw [scanBlock_hash fun same => apart.1 same rfl, scanBlock_hash (by simp)]
        · rw [scanBlock_other bar hash, scanBlock_other bar hash]
    rw [splitThrough, step, splitThrough]

theorem splitThrough_opening (seen : List Char) :
    splitThrough scanBlock ⟨inner, none⟩ seen ('#' :: '|' :: text) =
      splitThrough scanBlock ⟨inner + 1, none⟩ ('|' :: '#' :: seen) text := rfl

theorem splitThrough_closing (seen : List Char) :
    splitThrough scanBlock ⟨inner + 1, none⟩ seen ('|' :: '#' :: text) =
      splitThrough scanBlock ⟨inner, none⟩ ('#' :: '|' :: seen) text := rfl

theorem splitThrough_single (single : Single c text) (seen : List Char) :
    splitThrough scanBlock ⟨inner, none⟩ seen (c :: text) =
      splitThrough scanBlock ⟨inner, none⟩ (c :: seen) text := by
  rw [splitThrough]
  -- Behind a bar or a hash the scanner waits for the other half of a delimiter, which does not come.
  by_cases bar : c = '|'
  · subst bar
    rw [scanBlock_bar (by simp)]
    refine splitThrough_apart ⟨fun _ hash => single.1 ?_, by simp⟩ _
    obtain ⟨text, rfl⟩ := List.head?_eq_some_iff.mp hash
    simp
  · by_cases hash : c = '#'
    · subst hash
      rw [scanBlock_hash (by simp)]
      refine splitThrough_apart ⟨by simp, fun _ bar => single.2 ?_⟩ _
      obtain ⟨text, rfl⟩ := List.head?_eq_some_iff.mp bar
      simp
    · rw [scanBlock_other bar hash]

theorem Nests.splitThrough (nests : Nests inner text) (seen rest : List Char) :
    splitThrough scanBlock ⟨inner, none⟩ seen (text ++ rest) = some (seen.reverse ++ text, rest) := by
  induction nests generalizing seen with
  | last => simp [SexprReader.splitThrough, scanBlock]
  | closes _ ih =>
    rw [List.cons_append, List.cons_append, splitThrough_closing, ih]
    simp
  | opens _ ih =>
    rw [List.cons_append, List.cons_append, splitThrough_opening, ih]
    simp
  | plain single others ih =>
    rw [List.cons_append, splitThrough_single (others.single_append single rest), ih]
    simp

theorem splitThrough_of_not_ends (open_ : ¬Ends inner text) (seen : List Char) :
    splitThrough scanBlock ⟨inner, none⟩ seen text = none := by
  induction text using pieces_induction generalizing inner seen with
  | nil => rfl
  | opening text ih =>
    rw [splitThrough_opening]
    exact ih (fun ends => open_ ends.opening) _
  | closing text ih =>
    cases inner with
    | zero => exact absurd .last open_
    | succ inner =>
      rw [splitThrough_closing]
      exact ih (fun ends => open_ ends.closing) _
  | single c text single ih =>
    rw [splitThrough_single single]
    exact ih (fun ends => open_ (ends.single single)) _

end Scanning

end SexprReader
