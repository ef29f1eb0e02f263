import SexprReader.Proofs.Grammar.Completion

namespace SexprReader

/-- The forms of a text up to its end, or up to an obstacle. -/
inductive ParsesAll (conv : Convention) :
    List Char → List Datum → Option Obstacle → List Char → Prop
  | stop {text rest : List Char} (end_ : Parses conv .form text (.ok .endOfInput) rest) :
      ParsesAll conv text [] none rest
  | fail {text rest : List Char} {obstacle : Obstacle}
      (error : Parses conv .form text (.error obstacle) rest) :
      ParsesAll conv text [] (some obstacle) rest
  | form {text inner rest : List Char} {d : Datum} {ds : List Datum} {obstacle : Option Obstacle}
      (first : Parses conv .form text (.ok (.form d)) inner)
      (others : ParsesAll conv inner ds obstacle rest) : ParsesAll conv text (d :: ds) obstacle rest

namespace ParsesAll

variable {conv : Convention} {text rest : List Char} {ds : List Datum} {obstacle : Obstacle}

theorem total (conv : Convention) (text : List Char) :
    ∃ ds obstacle rest, ParsesAll conv text ds obstacle rest := by
  induction length : text.length using Nat.strongRecOn generalizing text with
  | ind n ih =>
    obtain ⟨outcome, inner, form⟩ := (Parses.total conv text).form
    match outcome, form with
    | .error _, form => exact ⟨_, _, _, .fail form⟩
    | .ok .endOfInput, form => exact ⟨_, _, _, .stop form⟩
    | .ok .comment, form => exact absurd rfl form.ne_comment
    | .ok (.form d), form =>
      obtain ⟨ds, obstacle, rest, others⟩ := ih inner.length (length ▸ form.length_lt rfl) inner rfl
      exact ⟨_, _, _, .form form others⟩

theorem completable {inside : OpenForm}
    (all : ParsesAll conv text ds (some (.fault (.endOfInput inside))) rest) :
    ∃ more, (∀ first, Border first text (text ++ more)) ∧
      ∃ ds' rest', ParsesAll conv (text ++ more) ds' none rest' := by
  generalize ends : some (Obstacle.fault (.endOfInput inside)) = obstacle at all
  induction all with
  | stop => cases ends
  | fail error =>
    cases ends
    obtain ⟨more, item, completes⟩ := error.completable rfl
    refine ⟨more ++ ['\n'], fun first => completes.border first ['\n'], ?_⟩
    match item, completes with
    | .form d, completes =>
      have last : Parses conv .form ['\n'] (.ok .endOfInput) [] := .stop (.atom rfl rfl) (by simp)
      exact ⟨[d], [], .form (completes.parses []) (.stop last)⟩
    | .comment, completes => exact absurd rfl (completes.parses []).ne_comment
    | .endOfInput, completes => exact completes.plain.elim
  | @form _ _ _ d _ _ first others ih =>
    obtain ⟨more, border, ds', rest', all⟩ := ih ends
    have taken_some := first.length_lt rfl
    obtain ⟨taken, rfl⟩ := first.suffix
    refine ⟨more, fun _ => .extend ?_ more, d :: ds', rest', ?_⟩
    · rintro empty
      simp [empty] at taken_some
    rw [List.append_assoc]
    exact .form (first.replace rfl (border taken)) all

theorem ne_nil (all : ParsesAll conv text ds (some obstacle) rest)
    (early : Outcome.meetsEnd (.error obstacle) = false) : text ≠ [] := by
  rintro rfl
  cases all with
  | fail error => exact absurd (error.length_lt early) (by simp)
  | form first _ => exact absurd (first.length_lt rfl) (by simp)

/-- An error that is not due to the end of the text stays, with the forms before it, whatever
comes in the lines behind. -/
theorem append (all : ParsesAll conv text ds (some obstacle) rest)
    (early : Outcome.meetsEnd (.error obstacle) = false) (line : text.getLast? = some '\n')
    (more : List Char) : ParsesAll conv (text ++ more) ds (some obstacle) (rest ++ more) := by
  have border {taken rest : List Char} (line : (taken ++ rest).getLast? = some '\n') :
      Border taken rest (rest ++ more) := by
    cases rest with
    | nil => exact .inr (.inr (by simpa using line))
    | cons c rest => exact .extend (by simp) more
  generalize same : some obstacle = obstacle? at all
  induction all with
  | stop => cases same
  | fail error =>
    cases same
    obtain ⟨taken, rfl⟩ := error.suffix
    have longer := error.replace early (border line)
    rw [List.append_assoc]
    exact .fail longer
  | @form text inner rest d ds _ first others ih =>
    subst same
    obtain ⟨taken, rfl⟩ := first.suffix
    have longer := first.replace rfl (border line)
    rw [List.getLast?_append_of_ne_nil _ (others.ne_nil early)] at line
    rw [List.append_assoc]
    exact .form longer (ih line rfl)

end ParsesAll

inductive Body (conv : Convention) : List Char → List Datum → Prop
  | blank {text : List Char} (blank : behindBlanks false text = []) : Body conv text []
  | comment {text inner : List Char} {ds : List Datum}
      (item : Parses conv .item text (.ok .comment) inner) (others : Body conv inner ds) :
      Body conv text ds
  | form {text inner : List Char} {d : Datum} {ds : List Datum}
      (item : Parses conv .item text (.ok (.form d)) inner) (others : Body conv inner ds) :
      Body conv text (d :: ds)

inductive Dangles (conv : Convention) : List Char → Prop
  | here {text inner rest : List Char}
      (scans : conv.dialect.scan text = (.opening .datumComment, inner))
      (end_ : Parses conv .form inner (.ok .endOfInput) rest) : Dangles conv text
  | later {text inner : List Char} {item : Item Datum}
      (first : Parses conv .item text (.ok item) inner) (there : item ≠ .endOfInput)
      (others : Dangles conv inner) : Dangles conv text

def Lexeme.Found : Lexeme → Prop
  | .endOfInput | .fault (.custom _ _) => False
  | _ => True

namespace Dialect

variable {dialect : Dialect} {text rest : List Char}

theorem scanSequence_found (dialect : Dialect) (c : Char) (text : List Char) :
    (dialect.scanSequence c text).1.Found := by
  have named (first : Char) (others : List Char) : (named first others).Found := by
    unfold named
    split <;> trivial
  have character : (scanCharacter text).1.Found := by
    cases text with
    | nil => trivial
    | cons first text =>
      simp only [scanCharacter]
      split <;> exact named _ _
  unfold scanSequence
  split
  case h_2 => split <;> trivial
  case h_5 => exact character
  all_goals trivial

theorem scanStarted_found (dialect : Dialect) (c : Char) (text : List Char) :
    (dialect.scanStarted c text).1.Found := by
  unfold scanStarted
  split
  case h_2 => split <;> trivial
  case h_4 =>
    unfold scanHash
    split
    · trivial
    · exact dialect.scanSequence_found _ _
  case h_5 => split <;> trivial
  all_goals trivial

theorem blank_of_scan (scans : dialect.scan text = (.endOfInput, rest)) :
    behindBlanks false text = [] := by
  cases blanks : behindBlanks false text with
  | nil => rfl
  | cons c inner =>
    have started : dialect.scanStarted c inner = (.endOfInput, rest) := by
      simpa [scan, blanks] using scans
    have found := dialect.scanStarted_found c inner
    rw [started] at found
    exact found.elim

theorem not_custom_of_scan {kind : ErrorKind} {message : String}
    (scans : dialect.scan text = (.fault (.custom kind message), rest)) : False := by
  unfold scan at scans
  split at scans
  · cases scans
  next c inner _ =>
    have found := dialect.scanStarted_found c inner
    rw [scans] at found
    exact found

theorem unclosed_or (dialect : Dialect) (bracket : Bracket) (text : List Char) :
    bracket.Unclosed text ∨ (dialect.scan text).1 = .endOfInput ∨
      ∃ c, (dialect.scan text).1 = .fault (.unexpectedCharacter c) := by
  unfold scan
  cases blanks : behindBlanks false text with
  | nil => exact .inr (.inl rfl)
  | cons c rest =>
    by_cases closer : c = bracket.closer
    · have starter : Starter.ofChar dialect.bracketLists bracket.closer = .nothing := by
        cases dialect.bracketLists <;> cases bracket <;> decide
      subst closer
      exact .inr (.inr ⟨bracket.closer, by simp [scanStarted, starter]⟩)
    · exact .inl ⟨c, rest, blanks, closer⟩

end Dialect

theorem Convention.eq_endOfInput_of_atom {conv : Convention} {lexeme : Lexeme}
    (means : conv.atom lexeme = some (.ok .endOfInput)) : lexeme = .endOfInput := by
  cases Convention.means_of_atom means
  rfl

namespace Parses

variable {conv : Convention} {text inner rest : List Char} {outcome : Outcome}

theorem end_cases (item : Parses conv .item text (.ok .endOfInput) rest) :
    behindBlanks false text = [] ∨ Dangles conv text := by
  generalize ends : (.ok .endOfInput : Outcome) = outcome at item
  cases item with
  | atom scans means =>
    subst ends
    rw [Convention.eq_endOfInput_of_atom means] at scans
    exact .inl (Dialect.blank_of_scan scans)
  | @quoted _ _ _ _ outcome scans form =>
    match outcome, ends with
    | .ok .endOfInput, ends => cases ends
  | @discarded _ _ _ outcome scans form =>
    match outcome, ends, form with
    | .ok .endOfInput, _, form => exact .inr (.here scans form)
  | list scans members =>
    obtain ⟨d, same⟩ := members.members_outcome ends.symm
    cases same

theorem body_of_end (form : Parses conv .form text (.ok .endOfInput) rest) :
    Body conv text [] ∨ Dangles conv text := by
  generalize ends : (.ok .endOfInput : Outcome) = outcome at form
  generalize task : Task.form = task at form
  induction form with
  | skip comment _ _ ih =>
    rcases ih ends task with body | dangles
    · exact .inl (.comment comment body)
    · exact .inr (.later comment (by simp) dangles)
  | stop item there _ =>
    subst ends
    exact item.end_cases.imp_left .blank
  | _ => cases task

theorem body_of_form {d : Datum} {ds : List Datum}
    (form : Parses conv .form text (.ok (.form d)) inner)
    (others : Body conv inner ds ∨ Dangles conv inner) :
    Body conv text (d :: ds) ∨ Dangles conv text := by
  generalize same : (.ok (.form d) : Outcome) = outcome at form
  generalize task : Task.form = task at form
  induction form with
  | skip comment _ _ ih =>
    rcases ih others same task with body | dangles
    · exact .inl (.comment comment body)
    · exact .inr (.later comment (by simp) dangles)
  | stop item there _ =>
    subst same
    rcases others with body | dangles
    · exact .inl (.form item body)
    · exact .inr (.later item (by simp) dangles)
  | _ => cases task

theorem members_of_behindBlanks {text' : List Char}
    (same : behindBlanks false text' = behindBlanks false text) {bracket : Bracket} {before : List Datum}
    (members : Parses conv (.members bracket before) text outcome rest) :
    Parses conv (.members bracket before) text' outcome rest := by
  have unclosed (unclosed : bracket.Unclosed text) : bracket.Unclosed text' := by
    rwa [Bracket.Unclosed, same]
  cases members with
  | unclosed blank => exact .unclosed (same.trans blank)
  | close closer => exact .close (same.trans closer)
  | cut open_ item effect =>
    exact .cut (unclosed open_) (item.item_of_behindBlanks same) effect
  | more open_ item effect others =>
    exact .more (unclosed open_) (item.item_of_behindBlanks same) effect others
  | tail open_ dot effect form ends =>
    exact .tail (unclosed open_) (dot.item_of_behindBlanks same) effect form ends
  | tailCut open_ dot effect form without stops =>
    exact .tailCut (unclosed open_) (dot.item_of_behindBlanks same) effect form without stops

end Parses

theorem ParsesAll.body {conv : Convention} {text rest : List Char} {ds : List Datum}
    (all : ParsesAll conv text ds none rest) : Body conv text ds ∨ Dangles conv text := by
  generalize none_ : (none : Option Obstacle) = obstacle at all
  induction all with
  | stop end_ => exact end_.body_of_end
  | fail => cases none_
  | form first _ ih => exact first.body_of_form (ih none_)

theorem Parses.unclosed_of_item {conv : Convention} {text rest : List Char} {item : Item Datum}
    (parses : Parses conv .item text (.ok item) rest) (there : item ≠ .endOfInput)
    (bracket : Bracket) : bracket.Unclosed text := by
  generalize ok : (.ok item : Outcome) = outcome at parses
  have cases_ := conv.dialect.unclosed_or bracket text
  cases parses with
  | atom scans means =>
    rw [scans] at cases_
    rcases cases_ with unclosed | rfl | ⟨c, rfl⟩
    · exact unclosed
    · cases means
      cases ok
      exact absurd rfl there
    · cases means
      cases ok
  | quoted scans _ =>
    rw [scans] at cases_
    simpa using cases_
  | discarded scans _ =>
    rw [scans] at cases_
    simpa using cases_
  | list scans _ =>
    rw [scans] at cases_
    simpa using cases_

/-- The members of a list whose body is a text that can stand by itself, whatever follows in the next
line. -/
theorem Body.members {conv : Convention} {text more rest : List Char} {ds before : List Datum}
    {bracket : Bracket} {outcome : Outcome} (body : Body conv text ds)
    (plain : ∀ d ∈ ds, d.isDot = false)
    (others : Parses conv (.members bracket (before ++ ds)) ('\n' :: more) outcome rest) :
    Parses conv (.members bracket before) (text ++ '\n' :: more) outcome rest := by
  induction body generalizing before with
  | blank blank =>
    have same : behindBlanks false (_ ++ '\n' :: more) = behindBlanks false ('\n' :: more) :=
      behindBlanks_newline blank more
    rw [List.append_nil] at others
    exact others.members_of_behindBlanks same
  | comment item _ ih =>
    have unclosed := (item.unclosed_of_item (by simp) bracket).append ('\n' :: more)
    exact .more unclosed (item.extend_newline rfl more) rfl (ih plain others)
  | @form _ _ d ds item _ ih =>
    have unclosed := (item.unclosed_of_item (by simp) bracket).append ('\n' :: more)
    have effect : bracket.effect before (.ok (.form d)) = .continues (before ++ [d]) := by
      simp [Bracket.effect, plain d (by simp)]
    refine .more unclosed (item.extend_newline rfl more) effect (ih ?_ ?_)
    · intro e inside
      exact plain e (by simp [inside])
    · simpa using others

end SexprReader
