import SexprReader.Proofs.Grammar.Border
import SexprReader.Proofs.Text.BlockComment

/-! A text that ends too early can be completed. Whatever it has left open is closed from the inside
to the outside, on lines of its own except within a lexeme. -/

namespace SexprReader

open Lexeme

def Item.Plain : Item Datum → Prop
  | .form d => d.isDot = false
  | .comment => True
  | .endOfInput => False

theorem behindBlanks_append {inComment : Bool} {text rest : List Char} {c : Char}
    (blanks : behindBlanks inComment text = c :: rest) (more : List Char) :
    behindBlanks inComment (text ++ more) = c :: (rest ++ more) := by
  obtain ⟨skipped, rfl, kept⟩ := behindBlanks_split blanks
  rw [List.append_assoc, List.cons_append, kept]

theorem behindBlanks_newline {inComment : Bool} {text : List Char}
    (blanks : behindBlanks inComment text = []) (more : List Char) :
    behindBlanks inComment (text ++ '\n' :: more) = behindBlanks false more := by
  induction text generalizing inComment with
  | nil => cases inComment <;> rfl
  | cons c text ih =>
    cases inComment with
    | true => exact ih blanks
    | false =>
      simp only [List.cons_append, behindBlanks] at blanks ⊢
      split at blanks
      next blank =>
        rw [if_pos blank]
        exact ih blanks
      next solid =>
        rw [if_neg solid]
        split at blanks
        next semicolon =>
          rw [if_pos semicolon]
          exact ih blanks
        next => cases blanks

theorem splitThrough_resume {S : Type} {scan : S → Char → Option S} {state : S}
    {seen text : List Char} (splits : splitThrough scan state seen text = none) :
    ∃ state' seen', ∀ more,
      splitThrough scan state seen (text ++ more) = splitThrough scan state' seen' more := by
  induction text generalizing state seen with
  | nil => exact ⟨state, seen, fun _ => rfl⟩
  | cons c text ih =>
    simp only [List.cons_append, splitThrough] at splits ⊢
    cases next : scan state c with
    | none => simp [next] at splits
    | some state' =>
      simp only [next] at splits
      exact ih splits

theorem scanString_closes (escaped : Bool) (seen : List Char) :
    ∃ literal, ∀ rest,
      splitThrough scanString escaped seen ('a' :: '\x22' :: rest) = some (literal, rest) := by
  cases escaped <;> exact ⟨_, fun _ => rfl⟩

theorem scanBlock_closes (inner : Nat) (seen : List Char) :
    ∃ more, ∀ rest, ∃ comment,
      splitThrough scanBlock ⟨inner, none⟩ seen (more ++ rest) = some (comment, rest) := by
  induction inner generalizing seen with
  | zero => exact ⟨['|', '#'], fun rest => ⟨_, rfl⟩⟩
  | succ inner ih =>
    obtain ⟨more, closes⟩ := ih ('#' :: '|' :: seen)
    exact ⟨'|' :: '#' :: more, closes⟩

namespace Convention

variable (conv : Convention)

def Finishes (text more : List Char) (lexeme : Lexeme) : Prop :=
  (∃ item, conv.atom lexeme = some (.ok item) ∧ item.Plain) ∧
    ∀ z, conv.dialect.scan (text ++ (more ++ '\n' :: z)) = (lexeme, '\n' :: z)

variable {conv} {text rest : List Char}

theorem scan_append {c : Char} (blanks : behindBlanks false text = c :: rest) (more : List Char) :
    conv.dialect.scan (text ++ more) = conv.dialect.scanStarted c (rest ++ more) := by
  rw [Dialect.scan, behindBlanks_append blanks]

theorem finishes_blank (blanks : behindBlanks false text = []) :
    conv.Finishes text "\n#f".toList (.constant .false) := by
  refine ⟨⟨_, rfl, rfl⟩, fun z => ?_⟩
  have blanks' := behindBlanks_newline blanks ('#' :: 'f' :: '\n' :: z)
  change behindBlanks false (text ++ ("\n#f".toList ++ '\n' :: z)) = _ at blanks'
  rw [Dialect.scan, blanks']
  rfl

theorem finishes_string {c : Char} (blanks : behindBlanks false text = c :: rest)
    (starter : Starter.ofChar conv.dialect.bracketLists c = .string)
    (splits : splitThrough scanString false [] rest = none) :
    ∃ lexeme, conv.Finishes text "a\"".toList lexeme := by
  obtain ⟨escaped, seen, resumes⟩ := splitThrough_resume splits
  obtain ⟨literal, closes⟩ := scanString_closes escaped seen
  refine ⟨.string literal.dropLast, ⟨_, rfl, rfl⟩, fun z => ?_⟩
  have whole := (resumes _).trans (closes ('\n' :: z))
  change splitThrough scanString false [] (rest ++ ("a\"".toList ++ '\n' :: z)) = _ at whole
  rw [scan_append blanks, Dialect.scanStarted, starter]
  simp only [whole]

theorem scan_hash_append {c d : Char} {inner : List Char}
    (blanks : behindBlanks false text = c :: rest)
    (starter : Starter.ofChar conv.dialect.bracketLists c = .hash)
    (drops : rest.dropWhile isExactness = d :: inner) (more : List Char) :
    conv.dialect.scan (text ++ more) = conv.dialect.scanSequence d (inner ++ more) := by
  obtain ⟨marks, rfl, kept⟩ := dropWhile_split drops
  rw [scan_append blanks, Dialect.scanStarted, starter]
  simp only [Dialect.scanHash, List.append_assoc, List.cons_append, kept]

theorem finishes_hash {c : Char} (blanks : behindBlanks false text = c :: rest)
    (starter : Starter.ofChar conv.dialect.bracketLists c = .hash)
    (drops : rest.dropWhile isExactness = []) :
    conv.Finishes text "f".toList (.constant .false) := by
  refine ⟨⟨_, rfl, rfl⟩, fun z => ?_⟩
  have takes : rest.takeWhile isExactness = rest := by
    simpa [drops] using List.takeWhile_append_dropWhile (p := isExactness) (l := rest)
  have all : ∀ d ∈ rest, isExactness d = true := by
    rw [← takes]
    exact List.all_eq_true.mp List.all_takeWhile
  have marks : (rest ++ 'f' :: '\n' :: z).dropWhile isExactness = 'f' :: '\n' :: z := by
    rw [List.dropWhile_append_of_pos all]
    rfl
  rw [scan_append blanks, Dialect.scanStarted, starter]
  change conv.dialect.scanHash (rest ++ 'f' :: '\n' :: z) = _
  rw [Dialect.scanHash, marks]
  rfl

theorem finishes_character {c d : Char} (blanks : behindBlanks false text = c :: rest)
    (starter : Starter.ofChar conv.dialect.bracketLists c = .hash)
    (drops : rest.dropWhile isExactness = [d])
    (hashStarter : conv.dialect.hashStarter d = .character) :
    conv.Finishes text "0".toList (.character '0') := by
  refine ⟨⟨_, rfl, rfl⟩, fun z => ?_⟩
  rw [scan_hash_append blanks starter drops, Dialect.scanSequence, hashStarter]
  rfl

theorem finishes_block {c d : Char} {inner : List Char}
    (blanks : behindBlanks false text = c :: rest)
    (starter : Starter.ofChar conv.dialect.bracketLists c = .hash)
    (drops : rest.dropWhile isExactness = d :: inner)
    (hashStarter : conv.dialect.hashStarter d = .blockComment)
    (splits : splitThrough scanBlock ⟨0, none⟩ [] inner = none) :
    ∃ more, conv.Finishes text more .comment := by
  obtain ⟨depth, seen, resumes⟩ := splitThrough_resume splits
  obtain ⟨more, closes⟩ := scanBlock_closes depth.inner ('\n' :: seen)
  refine ⟨'\n' :: more, ⟨_, rfl, trivial⟩, fun z => ?_⟩
  obtain ⟨comment, whole⟩ := closes ('\n' :: z)
  have resumed : splitThrough scanBlock ⟨0, none⟩ [] (inner ++ ('\n' :: more ++ '\n' :: z)) =
      some (comment, '\n' :: z) := by
    rw [resumes, List.cons_append, splitThrough, scanBlock_other (by decide) (by decide)]
    exact whole
  rw [scan_hash_append blanks starter drops, Dialect.scanSequence, hashStarter]
  simp only [resumed]

theorem named_meetsEnd (first : Char) (others : List Char) :
    (Dialect.named first others).meetsEnd = false := by
  unfold Dialect.named
  split <;> rfl

theorem of_scanSequence_meetsEnd {d : Char} {inner : List Char}
    (ends : (conv.dialect.scanSequence d inner).1.meetsEnd = true) :
    (conv.dialect.hashStarter d = .blockComment ∧
        splitThrough scanBlock ⟨0, none⟩ [] inner = none) ∨
      (conv.dialect.hashStarter d = .character ∧ inner = []) := by
  unfold Dialect.scanSequence at ends
  split at ends
  next => cases ends
  next starter =>
    split at ends
    next => cases ends
    next splits => exact .inl ⟨starter, splits⟩
  next => cases ends
  next => cases ends
  next starter =>
    cases inner with
    | nil => exact .inr ⟨starter, rfl⟩
    | cons first inner =>
      simp only [Dialect.scanCharacter] at ends
      split at ends <;> simp [named_meetsEnd] at ends
  next => cases ends
  next => cases ends
  next => cases ends

theorem exists_finishes (ends : (conv.dialect.scan text).1.meetsEnd = true) :
    ∃ more lexeme, conv.Finishes text more lexeme := by
  cases blanks : behindBlanks false text with
  | nil => exact ⟨_, _, finishes_blank blanks⟩
  | cons c inner =>
    rw [Dialect.scan, blanks] at ends
    simp only [Dialect.scanStarted] at ends
    split at ends
    next => cases ends
    next => split at ends <;> cases ends
    next => cases ends
    next starter =>
      unfold Dialect.scanHash at ends
      split at ends
      next drops => exact ⟨_, _, finishes_hash blanks starter drops⟩
      next d behind drops =>
        obtain ⟨block, splits⟩ | ⟨character, rfl⟩ := of_scanSequence_meetsEnd ends
        · obtain ⟨more, finishes⟩ := finishes_block blanks starter drops block splits
          exact ⟨more, _, finishes⟩
        · exact ⟨_, _, finishes_character blanks starter drops character⟩
    next starter =>
      split at ends
      next => cases ends
      next splits => exact ⟨_, finishes_string blanks starter splits⟩
    next => cases ends
    next => cases ends

end Convention

namespace Outcome

variable {outcome : Outcome}

theorem meetsEnd_of_quoted {mark : QuoteMark} (ends : (outcome.quoted mark).meetsEnd = true)
    (there : outcome ≠ .ok .comment) : outcome.meetsEnd = true := by
  match outcome, ends, there with
  | .ok .endOfInput, _, _ => rfl
  | .ok .comment, _, there => exact absurd rfl there
  | .error _, ends, _ => exact ends

theorem meetsEnd_of_discarded (ends : outcome.discarded.meetsEnd = true) :
    outcome.meetsEnd = true := by
  match outcome, ends with
  | .ok .endOfInput, _ => rfl
  | .error _, ends => exact ends

end Outcome

namespace Bracket

variable {bracket : Bracket} {before : List Datum} {text : List Char}

theorem meetsEnd_of_effect {outcome outcome' : Outcome}
    (effect : bracket.effect before outcome = .stops outcome') (ends : outcome'.meetsEnd = true) :
    outcome.meetsEnd = true := by
  obtain ⟨obstacle, rfl, rfl⟩ | ⟨rfl, -⟩ | ⟨d, fault, -, -, rfl, place⟩ := stops_cases effect
  · exact ends
  · rfl
  · obtain ⟨rfl, -⟩ | ⟨rfl, -⟩ := place
    · cases ends
    · cases ends

theorem effect_of_plain (bracket : Bracket) (before : List Datum) {item : Item Datum}
    (plain : item.Plain) :
    ∃ members, bracket.effect before (.ok item) = .continues (before ++ members) := by
  match item, plain with
  | .form d, plain => exact ⟨[d], by simp [effect, show d.isDot = false from plain]⟩
  | .comment, _ => exact ⟨[], by simp [effect]⟩

theorem isDot_ofList {members : List Datum} {tail : Datum} (some : members ≠ [] ∨ tail = .nil) :
    Datum.isDot (.ofList members tail) = false := by
  cases members with
  | nil =>
    rw [some.resolve_left (by simp)]
    rfl
  | cons d members => rfl

theorem isDot_enclose {members : List Datum} {tail : Datum} (some : members ≠ [] ∨ tail = .nil) :
    Datum.isDot (bracket.enclose members tail) = false := by
  cases bracket with
  | vector => rfl
  | round => exact isDot_ofList some
  | square => exact isDot_ofList some

theorem closer_solid (bracket : Bracket) (rest : List Char) :
    behindBlanks false ('\n' :: bracket.closer :: rest) = bracket.closer :: rest := by
  cases bracket <;> rfl

theorem Unclosed.append (unclosed : bracket.Unclosed text) (more : List Char) :
    bracket.Unclosed (text ++ more) := by
  obtain ⟨c, rest, blanks, open_⟩ := unclosed
  exact ⟨c, rest ++ more, behindBlanks_append blanks more, open_⟩

theorem Unclosed.ne_nil (unclosed : bracket.Unclosed text) : text ≠ [] := by
  rintro rfl
  obtain ⟨c, rest, blanks, -⟩ := unclosed
  cases blanks

end Bracket

structure Completes (conv : Convention) (task : Task) (text more : List Char) (item : Item Datum) :
    Prop where
  plain : item.Plain
  parses (z : List Char) :
    Parses conv task (text ++ (more ++ '\n' :: z)) (.ok item) ('\n' :: z)
  border (first z : List Char) : Border first text (text ++ (more ++ z))

def Completable (conv : Convention) (task : Task) (text : List Char) : Prop :=
  ∃ more item, Completes conv task text more item

theorem Parses.false_form (conv : Convention) (z : List Char) :
    Parses conv .form ('\n' :: '#' :: 'f' :: '\n' :: z) (.ok (.form (.sentinel .false)))
      ('\n' :: z) :=
  .stop (.atom rfl rfl) (by simp)

namespace Completes

variable {conv : Convention} {task : Task} {text inner more : List Char} {item : Item Datum}

theorem of_finishes {lexeme : Lexeme} (finishes : conv.Finishes text more lexeme)
    (border : ∀ first z, Border first text (text ++ (more ++ z))) :
    Completable conv .item text := by
  obtain ⟨⟨item, means, plain⟩, scans⟩ := finishes
  exact ⟨more, item, plain, fun z => .atom (scans z) means, border⟩

theorem of_scan (ends : (conv.dialect.scan text).1.meetsEnd = true) :
    Completable conv .item text := by
  cases text with
  | nil => exact of_finishes (Convention.finishes_blank rfl) fun first z => .inl rfl
  | cons c text =>
    obtain ⟨more, lexeme, finishes⟩ := Convention.exists_finishes ends
    exact of_finishes finishes fun first z => .extend (by simp) _

/-- A form is completed along with an item, or by a form behind it if that is a comment. -/
theorem form (completes : Completes conv .item text more item) : Completable conv .form text := by
  by_cases comment : item = .comment
  · subst comment
    refine ⟨more ++ ['\n', '#', 'f'], .form (.sentinel .false), rfl, fun z => ?_, fun first z => ?_⟩
    · have skipped := completes.parses ('#' :: 'f' :: '\n' :: z)
      simpa using Parses.skip skipped (.false_form conv z)
    · simpa using completes.border first (['\n', '#', 'f'] ++ z)
  · exact ⟨more, item, completes.plain,
      fun z => .stop (completes.parses z) (by simpa using comment), completes.border⟩

theorem scan (completes : Completes conv task inner more item) {opening : Opening}
    (scans : conv.dialect.scan text = (.opening opening, inner)) (z : List Char) :
    conv.dialect.scan (text ++ (more ++ z)) = (.opening opening, inner ++ (more ++ z)) := by
  obtain ⟨first, rfl⟩ := Dialect.scan_suffix scans
  rw [List.append_assoc]
  exact Dialect.scan_replace (completes.border first z) scans rfl

theorem behind (completes : Completes conv task inner more item) {task' : Task} {outcome : Outcome}
    (parses : Parses conv task' text outcome inner) (early : outcome.meetsEnd = false)
    (z : List Char) :
    Parses conv task' (text ++ (more ++ z)) outcome (inner ++ (more ++ z)) := by
  obtain ⟨first, rfl⟩ := parses.suffix
  rw [List.append_assoc]
  exact parses.replace early (completes.border first z)

theorem quoted (completes : Completes conv .form inner more item) {mark : QuoteMark}
    (scans : conv.dialect.scan text = (.opening (.quoted mark), inner)) (some : text ≠ []) :
    Completable conv .item text := by
  match item, completes with
  | .form d, completes =>
    exact ⟨more, .form (d.quoted mark), rfl,
      fun z => .quoted (completes.scan scans _) (completes.parses z), fun first z => .extend some _⟩
  | .comment, completes => exact absurd rfl (completes.parses []).ne_comment
  | .endOfInput, completes => exact completes.plain.elim

theorem discarded (completes : Completes conv .form inner more item)
    (scans : conv.dialect.scan text = (.opening .datumComment, inner)) (some : text ≠ []) :
    Completable conv .item text := by
  match item, completes with
  | .form d, completes =>
    exact ⟨more, .comment, trivial,
      fun z => .discarded (completes.scan scans _) (completes.parses z),
      fun first z => .extend some _⟩
  | .comment, completes => exact absurd rfl (completes.parses []).ne_comment
  | .endOfInput, completes => exact completes.plain.elim

theorem members (completes : Completes conv .item text more item) {bracket : Bracket}
    (before : List Datum) (unclosed : bracket.Unclosed text) :
    Completable conv (.members bracket before) text := by
  obtain ⟨others, effect⟩ := bracket.effect_of_plain before completes.plain
  refine ⟨more ++ ['\n', bracket.closer], .form (bracket.enclose (before ++ others) .nil),
    Bracket.isDot_enclose (.inr rfl), fun z => ?_, fun first z => .extend unclosed.ne_nil _⟩
  have item := completes.parses (bracket.closer :: '\n' :: z)
  simpa using Parses.more (unclosed.append _) item effect (.close (bracket.closer_solid _))

theorem tail {bracket : Bracket} {before : List Datum} {outcome : Outcome}
    (completes : Completes conv .form inner more item) (unclosed : bracket.Unclosed text)
    (dot : Parses conv .item text outcome inner)
    (effect : bracket.effect before outcome = .expectsTail) :
    Completable conv (.members bracket before) text := by
  have early := Bracket.early_of_effect effect (by simp)
  match item, completes with
  | .form d, completes =>
    refine ⟨more ++ ['\n', bracket.closer], .form (bracket.enclose before d),
      Bracket.isDot_enclose (.inl (Bracket.ne_nil_of_expectsTail effect)), fun z => ?_,
      fun first z => .extend unclosed.ne_nil _⟩
    have ends : bracket.afterTail before d ('\n' :: bracket.closer :: '\n' :: z) =
        (.ok (.form (bracket.enclose before d)), '\n' :: z) := by
      simp [Bracket.afterTail, bracket.closer_solid]
    have parses := Parses.tail (unclosed.append _) (completes.behind dot early _) effect
      (completes.parses (bracket.closer :: '\n' :: z)) ends
    simpa using parses
  | .comment, completes => exact absurd rfl (completes.parses []).ne_comment
  | .endOfInput, completes => exact completes.plain.elim

end Completes

namespace Parses

variable {conv : Convention} {task : Task} {text inner behind rest : List Char} {outcome : Outcome}

theorem completable_of_tail {bracket : Bracket} {before : List Datum} {tail : Datum}
    {outcome' : Outcome} (unclosed : bracket.Unclosed text)
    (dot : Parses conv .item text outcome inner)
    (effect : bracket.effect before outcome = .expectsTail)
    (form : Parses conv .form inner (.ok (.form tail)) behind)
    (ends : bracket.afterTail before tail behind = (outcome', rest))
    (late : outcome'.meetsEnd = true) : Completable conv (.members bracket before) text := by
  have blank : behindBlanks false behind = [] := by
    obtain ⟨blank, -⟩ | ⟨-, rfl⟩ | ⟨c, -, -, rfl⟩ := Bracket.afterTail_cases ends
    · exact blank
    · cases late
    · cases late
  refine ⟨['\n', bracket.closer], .form (bracket.enclose before tail),
    Bracket.isDot_enclose (.inl (Bracket.ne_nil_of_expectsTail effect)), fun z => ?_,
    fun first z => .extend unclosed.ne_nil _⟩
  -- The tail is there, so only blanks and the closing bracket are left to come.
  have early := Bracket.early_of_effect effect (by simp)
  have blanks : behindBlanks false (behind ++ '\n' :: bracket.closer :: '\n' :: z) =
      bracket.closer :: '\n' :: z :=
    (behindBlanks_newline blank _).trans (bracket.closer_solid ('\n' :: z))
  refine .tail (unclosed.append _) (dot.extend_newline early _) effect (form.extend_newline rfl _) ?_
  simp [Bracket.afterTail, blanks]

theorem completable (parses : Parses conv task text outcome rest)
    (ends : outcome.meetsEnd = true) : Completable conv task text := by
  -- The induction is on the derivation: the part in which the text ends is completed first, and
  -- then what it is a part of.
  induction parses with
  | atom scans means =>
    rw [Convention.atom_meetsEnd means] at ends
    exact Completes.of_scan (by rw [scans]; exact ends)
  | quoted scans form ih =>
    obtain ⟨more, item, completes⟩ := ih (Outcome.meetsEnd_of_quoted ends form.ne_comment)
    exact completes.quoted scans (by rintro rfl; cases scans)
  | discarded scans form ih =>
    obtain ⟨more, item, completes⟩ := ih (Outcome.meetsEnd_of_discarded ends)
    exact completes.discarded scans (by rintro rfl; cases scans)
  | list scans members ih =>
    obtain ⟨more, item, completes⟩ := ih ends
    exact ⟨more, item, completes.plain,
      fun z => .list (completes.scan scans _) (completes.parses z),
      fun first z => .extend (by rintro rfl; cases scans) _⟩
  | skip comment form _ ih =>
    obtain ⟨more, item, completes⟩ := ih ends
    have some := comment.length_lt rfl
    exact ⟨more, item, completes.plain,
      fun z => .skip (completes.behind comment rfl _) (completes.parses z),
      fun first z => .extend (by rintro rfl; simp at some) _⟩
  | stop item there ih =>
    obtain ⟨more, item, completes⟩ := ih ends
    exact completes.form
  | @unclosed text bracket before blank =>
    refine ⟨['\n', bracket.closer], .form (bracket.enclose before .nil),
      Bracket.isDot_enclose (.inr rfl), fun z => .close ?_, fun first z => .extend_newline _ _ _⟩
    have blanks := behindBlanks_newline blank (bracket.closer :: '\n' :: z)
    have closer := bracket.closer_solid ('\n' :: z)
    exact blanks.trans closer
  | close closer => cases ends
  | cut unclosed item effect ih =>
    obtain ⟨more, item, completes⟩ := ih (Bracket.meetsEnd_of_effect effect ends)
    exact completes.members _ unclosed
  | more unclosed item effect others _ ih =>
    obtain ⟨more, result, completes⟩ := ih ends
    have early := Bracket.early_of_effect effect (by simp)
    exact ⟨more, result, completes.plain,
      fun z => .more (unclosed.append _) (completes.behind item early _) effect
        (completes.parses z), fun first z => .extend unclosed.ne_nil _⟩
  | tail unclosed dot effect form closes _ _ =>
    exact completable_of_tail unclosed dot effect form closes ends
  | tailCut unclosed dot effect form without stops _ ih =>
    obtain ⟨more, item, completes⟩ := ih (Bracket.meetsEnd_of_effect stops ends)
    exact completes.tail unclosed dot effect

end Parses

end SexprReader
