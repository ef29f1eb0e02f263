import Mathlib.Tactic.IntervalCases
import SexprReader.Proofs.Store.Single
import SexprReader.Proofs.Text.Literal

namespace SexprReader

open ReadM Store Escape Lexeme

section

variable {dialect : Dialect} {text rest literal : List Char}

theorem Dialect.scan_quote (dialect : Dialect) (text : List Char) :
    dialect.scan ('\x22' :: text) = match splitThrough scanString false [] text with
      | some (literal, rest) => (.string literal.dropLast, rest)
      | none => (.fault (.endOfInput .string), []) := rfl

theorem Convention.parses_literal (conv : Convention)
    (splits : splitThrough scanString false [] text = some (literal ++ ['\x22'], rest)) :
    Parses conv .form ('\x22' :: text) (.ok (.form (conv.string (String.ofList literal)))) rest := by
  have scans : conv.dialect.scan ('\x22' :: text) = (.string literal, rest) := by
    rw [Dialect.scan_quote, splits]
    simp only [List.dropLast_concat]
  exact .stop (.atom scans rfl) (by simp)

theorem Convention.parses_open_literal (conv : Convention)
    (splits : splitThrough scanString false [] text = none) :
    Parses conv .form ('\x22' :: text) (.error (.fault (.endOfInput .string))) [] := by
  have scans : conv.dialect.scan ('\x22' :: text) = (.fault (.endOfInput .string), []) := by
    rw [Dialect.scan_quote, splits]
  exact .stop (.atom scans rfl) (by simp)

variable {σ V : Type} (ctx : Context σ V) (host : σ)

theorem Context.readString_becomes
    (splits : splitThrough scanString false [] text = some (literal ++ ['\x22'], rest)) :
    ctx.readString.Becomes host text (ctx.makeString (String.ofList literal)) host rest := by
  refine (takeThrough_becomes host splits).pure_bind ?_
  simp only [List.dropLast_concat]
  exact .refl _ host rest

theorem Context.readString_becomes_fail (splits : splitThrough scanString false [] text = none) :
    ctx.readString.Becomes host text (ctx.fail (.endOfInput .string)) host [] :=
  (takeThrough_becomes_none host splits).pure_bind (.refl _ host [])

end

/-- The literal that is written for a text, with a backslash in front of every backslash and double quote, is
read as the text, or as it stands if escapes are not interpreted. Any literal ends with the first double quote
behind evenly many backslashes, and what stands in front of it is the literal's value as it is written. It
never ends in a backslash that escapes nothing. Without such a quote the input ends too early. Of any model,
the last two go for the part of a reader which reads on behind an opening quote. -/
theorem string_literals (conv : Convention) (table : TableId) (store : Store)
    (known : table.index < store.symbols.tables.size) {ctx : Context Store Value} {opened later : Store}
    (opens : conv.context table store = .ok ctx opened) (grown : opened.Agrees 0 0 later) :
    (∀ s rest : List Char,
      (ctx.readForm none).Takes later ('\x22' :: escape s ++ '\x22' :: rest) rest fun _ v =>
        v = .string (String.ofList (if conv.interpretEscapes then s else escape s))) ∧
    ∀ text : List Char,
      (∀ i, Closes text i → (∀ j < i, ¬Closes text j) →
        let raw := text.take i
        let rest := text.drop (i + 1)
        dangles raw = false ∧
        (ctx.readForm none).Takes later ('\x22' :: text) rest (fun _ v =>
          v = .string (String.ofList (if conv.interpretEscapes then interpretChars raw else raw))) ∧
        ∀ {σ V : Type} (any : Context σ V) (host : σ),
          any.readString.Becomes host text (any.makeString (String.ofList raw)) host rest) ∧
      ((∀ i, ¬Closes text i) →
        (ctx.readForm none).Refuses later ('\x22' :: text) [] (.endOfInput .string) ∧
        ∀ {σ V : Type} (any : Context σ V) (host : σ),
          any.readString.Becomes host text (any.fail (.endOfInput .string)) host []) := by
  have serves := conv.serves_later known opens grown
  have takes {text literal rest : List Char}
      (splits : splitThrough scanString false [] text = some (literal ++ ['\x22'], rest)) :
      (ctx.readForm none).Takes later ('\x22' :: text) rest fun _ v =>
        v = .string (String.ofList (if conv.interpretEscapes then interpretChars literal else literal)) := by
    refine (serves.takes_of_parses (conv.parses_literal splits)).mono fun after v ⟨_, denotes⟩ => ?_
    cases denotes
    cases conv.interpretEscapes <;> simp [interpret]
  refine ⟨fun s rest => ?_, fun text => ⟨fun i closes first => ?_, fun open_ => ?_⟩⟩
  · have literal := takes (splitThrough_scanString_escape s rest)
    rw [interpretChars_escaped] at literal
    exact literal
  · have splits := splitThrough_scanString_of_closes closes first
    refine ⟨(dangles_eq_false_iff _).mpr closes.2, takes splits, fun any host => ?_⟩
    exact any.readString_becomes host splits
  · have splits := splitThrough_scanString_of_open open_
    refine ⟨serves.refuses_of_parses (conv.parses_open_literal splits), fun any host => ?_⟩
    exact any.readString_becomes_fail host splits

/-- A literal of a quote and a backslash, one with a pair of backslashes in front of its end, and one whose
only quote is escaped. -/
theorem string_literals_with_pairs :
    ∃ ctx opened, Convention.context ⟨false, true, none⟩ .shared .initial = .ok ctx opened ∧
      let read := ctx.readForm none
      read.Takes opened "\"a\\\"\\\\\" b".toList " b".toList (fun _ v => v = .string "a\"\\") ∧
      read.Takes opened "\"\\\"\\n\\\\\"\"".toList "\"".toList (fun _ v => v = .string "\"\n\\") ∧
      dangles "\\\"\\n\\\\".toList = false ∧
      read.Refuses opened "\"a\\\"".toList [] (.endOfInput .string) := by
  refine ⟨_, _, rfl, ?_⟩
  intro read
  have literals := string_literals ⟨false, true, none⟩ .shared .initial (by decide) rfl (.refl 0 0 _)
  have closes : Closes "\\\"\\n\\\\\"\"".toList 6 := by simp [Closes, trailing]
  have first : ∀ j < 6, ¬Closes "\\\"\\n\\\\\"\"".toList j := by
    intro j before
    interval_cases j <;> simp [Closes, trailing]
  obtain ⟨paired, takes, -⟩ := (literals.2 _).1 6 closes first
  refine ⟨literals.1 "a\"\\".toList " b".toList, takes, paired, ((literals.2 "a\\\"".toList).2 ?_).1⟩
  rintro i ⟨quote, even⟩
  have inside : i < 3 := (List.getElem?_eq_some_iff.mp quote).1
  interval_cases i <;> simp [trailing] at quote even

end SexprReader
