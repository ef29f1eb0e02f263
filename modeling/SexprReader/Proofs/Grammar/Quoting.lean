import SexprReader.Proofs.Grammar.Forms
import SexprReader.Proofs.Grammar.Names

namespace SexprReader

variable {conv : Convention} {form rest : List Char} {d : Datum}

theorem Dialect.scan_mark (dialect : Dialect) {mark : QuoteMark} {text : List Char}
    (comma : mark = .unquote → text.head? ≠ some '@') :
    dialect.scan (mark.text.toList ++ text) = (.opening (.quoted mark), text) := by
  cases mark with
  | quote => rfl
  | quasiquote => rfl
  | unquote =>
    have scans : dialect.scan (',' :: text) =
        if text.head? == some '@' then (.opening (.quoted .unquoteSplicing), text.tail)
        else (.opening (.quoted .unquote), text) := rfl
    exact scans.trans (if_neg (by simpa using comma rfl))
  | unquoteSplicing => rfl

theorem Parses.behind_mark (parses : Parses conv .form (form ++ rest) (.ok (.form d)) rest)
    {mark : QuoteMark} (comma : mark = .unquote → form.head? ≠ some '@') :
    Parses conv .form (mark.text.toList ++ (form ++ rest)) (.ok (.form (d.quoted mark))) rest := by
  have first : (form ++ rest).head? = form.head? := List.head?_append_of_ne_nil _ (parses.ne_nil rfl)
  rw [← first] at comma
  exact .stop (.quoted (conv.dialect.scan_mark comma) parses) (by simp)

theorem Parses.members_of_form {bracket : Bracket} {before : List Datum} {outcome : Outcome}
    {text inner : List Char} (parses : Parses conv .form text (.ok (.form d)) inner)
    (plain : d.isDot = false) (others : Parses conv (.members bracket (before ++ [d])) inner outcome rest) :
    Parses conv (.members bracket before) text outcome rest := by
  generalize isForm : Task.form = task, ok : (.ok (.form d) : Outcome) = item at parses
  induction parses with
  | skip comment _ _ ih =>
    exact .more (comment.unclosed_of_item (by simp) bracket) comment rfl (ih others isForm ok)
  | stop item _ _ =>
    subst ok
    have effect : bracket.effect before (.ok (.form d)) = .continues (before ++ [d]) := by
      simp [Bracket.effect, plain]
    exact .more (item.unclosed_of_item (by simp) bracket) item effect others
  | _ => cases isForm

theorem QuoteMark.isName_symbolName (mark : QuoteMark) (bracketLists : Bool) :
    Lexeme.isName bracketLists mark.symbolName.toList = true := by
  cases mark <;> cases bracketLists <;> decide

theorem QuoteMark.isDot_symbol (mark : QuoteMark) : Datum.isDot (.symbol mark.symbolName) = false := by
  cases mark <;> decide

theorem Parses.in_long_form (parses : Parses conv .form (form ++ rest) (.ok (.form d)) rest)
    (plain : d.isDot = false) {mark : QuoteMark} (other : conv.nilAlias ≠ some mark.symbolName) :
    Parses conv .form ('(' :: (mark.symbolName.toList ++ ' ' :: (form ++ ' ' :: ')' :: rest)))
      (.ok (.form (d.quoted mark))) rest := by
  have space : Lexeme.isWhitespace ' ' = true := rfl
  have closed : Parses conv (.members .round [.symbol mark.symbolName, d]) (' ' :: ')' :: rest)
      (.ok (.form (d.quoted mark))) rest := .close rfl
  have spaced : Parses conv .form (form ++ ' ' :: ')' :: rest) (.ok (.form d)) (' ' :: ')' :: rest) :=
    parses.replaceAt space rfl (.inl rfl) (.inr ⟨d, rfl⟩)
  have member : Parses conv (.members .round [.symbol mark.symbolName]) (' ' :: (form ++ ' ' :: ')' :: rest))
      (.ok (.form (d.quoted mark))) rest :=
    (spaced.form_of_behindBlanks (behindBlanks_blank space _)).members_of_form plain closed
  have symbol := conv.parses_name other (mark.isName_symbolName conv.bracketLists)
    (.space conv.dialect (form ++ ' ' :: ')' :: rest))
  have effect : Bracket.round.effect [] (.ok (.form (.symbol mark.symbolName))) =
      .continues [.symbol mark.symbolName] := by
    simp [Bracket.effect, mark.isDot_symbol]
  have members := Parses.more (symbol.unclosed_of_item (by simp) .round) symbol effect member
  exact .stop (.list rfl members) (by simp)

end SexprReader
