import SexprReader.Proofs.Reader.Scan
import SexprReader.Reader.Recursive
import SexprReader.Store
import SexprReader.Value.Tree

/-! What a text means to a reader over a store, apart from how the reader gets at it. Meanings are
given by derivations, which follow the lexemes of the text. -/

namespace SexprReader

/-- The choices that decide what a text means. -/
structure Convention where
  bracketLists : Bool
  interpretEscapes : Bool
  /-- A name which stands for the empty list. -/
  nilAlias : Option String
deriving DecidableEq

/-- Why a text means nothing. -/
inductive Obstacle where
  | fault (fault : ReadFault)
  | value (fault : ValueFault)
deriving DecidableEq

/-- What the beginning of a text comes to. -/
abbrev Outcome := Except Obstacle (Item Datum)

def Outcome.meetsEnd : Outcome → Bool
  | .ok .endOfInput | .error (.fault (.endOfInput _)) => true
  | _ => false

namespace Datum

def isDot : Datum → Bool
  | .symbol name => name == "."
  | _ => false

def quoted (mark : QuoteMark) (d : Datum) : Datum := .pair (.symbol mark.symbolName) (.pair d .nil)

end Datum

namespace Outcome

/-- What a form comes to behind a quote mark. -/
def quoted (mark : QuoteMark) : Outcome → Outcome
  | .ok (.form d) => .ok (.form (d.quoted mark))
  | .ok _ => .error (.fault (.endOfInput (.quoted mark)))
  | .error obstacle => .error obstacle

def discarded : Outcome → Outcome
  | .ok (.form _) => .ok .comment
  | outcome => outcome

end Outcome

def Constant.sentinel : Constant → Sentinel
  | .false => .false
  | .true => .true
  | .unspecified => .unspecified
  | .logicalEof => .logicalEof

namespace Convention

variable (conv : Convention)

def dialect : Dialect := ⟨conv.bracketLists, fun _ => true⟩

def token (text : String) : Outcome :=
  match parseInteger text 10 with
  | .ok (some n) => .ok (.form (.integer n))
  | .ok none => .ok (.form (if conv.nilAlias = some text then .nil else .symbol text))
  | .error fault => .error (.value fault)

def number (radix : Nat) (digits : String) : Outcome :=
  match parseInteger digits radix with
  | .ok (some n) => .ok (.form (.integer n))
  | .ok none => .error (.fault (.invalidNumber digits radix))
  | .error fault => .error (.value fault)

def string (literal : String) : Datum :=
  .string (if conv.interpretEscapes then Escape.interpret literal else literal)

def atom : Lexeme → Option Outcome
  | .endOfInput => some (.ok .endOfInput)
  | .comment => some (.ok .comment)
  | .opening _ => none
  | .constant constant => some (.ok (.form (.sentinel constant.sentinel)))
  | .token text => some (conv.token (String.ofList text))
  | .number radix digits => some (number radix (String.ofList digits))
  | .string literal => some (.ok (.form (conv.string (String.ofList literal))))
  | .character c => some (.ok (.form (.character c.toNat)))
  | .fault fault => some (.error (.fault fault))

end Convention

inductive Effect where
  | stops (outcome : Outcome)
  | continues (members : List Datum)
  | expectsTail

namespace Bracket

def enclose : Bracket → List Datum → Datum → Datum
  | .vector, members, _ => .vector members
  | _, members, tail => .ofList members tail

def effect (bracket : Bracket) (before : List Datum) : Outcome → Effect
  | .error obstacle => .stops (.error obstacle)
  | .ok .endOfInput => .stops (.error (.fault (.endOfInput bracket.openForm)))
  | .ok .comment => .continues before
  | .ok (.form d) =>
    if d.isDot then
      if before.isEmpty then .stops (.error (.fault .nothingBeforeDot))
      else if bracket = .vector then .stops (.error (.fault .dotInVector))
      else .expectsTail
    else .continues (before ++ [d])

def afterTail (bracket : Bracket) (before : List Datum) (tail : Datum) (text : List Char) :
    Outcome × List Char :=
  match behindBlanks false text with
  | [] => (.error (.fault (.endOfInput bracket.openForm)), [])
  | c :: rest =>
    if c == bracket.closer then (.ok (.form (bracket.enclose before tail)), rest)
    else (.error (.fault (.afterDottedTail bracket.closer c)), rest)

def Unclosed (bracket : Bracket) (text : List Char) : Prop :=
  ∃ c rest, behindBlanks false text = c :: rest ∧ c ≠ bracket.closer

end Bracket

/-- What is expected of a text. -/
inductive Task where
  | item
  | form
  | members (bracket : Bracket) (before : List Datum)

/-- A text comes to an outcome, and this much of it is left. -/
inductive Parses (conv : Convention) : Task → List Char → Outcome → List Char → Prop
  | atom {text rest : List Char} {lexeme : Lexeme} {outcome : Outcome}
      (scans : conv.dialect.scan text = (lexeme, rest)) (means : conv.atom lexeme = some outcome) :
      Parses conv .item text outcome rest
  | quoted {text inner rest : List Char} {mark : QuoteMark} {outcome : Outcome}
      (scans : conv.dialect.scan text = (.opening (.quoted mark), inner))
      (form : Parses conv .form inner outcome rest) :
      Parses conv .item text (outcome.quoted mark) rest
  | discarded {text inner rest : List Char} {outcome : Outcome}
      (scans : conv.dialect.scan text = (.opening .datumComment, inner))
      (form : Parses conv .form inner outcome rest) :
      Parses conv .item text outcome.discarded rest
  | list {text inner rest : List Char} {bracket : Bracket} {outcome : Outcome}
      (scans : conv.dialect.scan text = (.opening (.list bracket), inner))
      (members : Parses conv (.members bracket []) inner outcome rest) :
      Parses conv .item text outcome rest
  | skip {text inner rest : List Char} {outcome : Outcome}
      (comment : Parses conv .item text (.ok .comment) inner)
      (form : Parses conv .form inner outcome rest) : Parses conv .form text outcome rest
  | stop {text rest : List Char} {outcome : Outcome} (item : Parses conv .item text outcome rest)
      (there : outcome ≠ .ok .comment) : Parses conv .form text outcome rest
  | unclosed {text : List Char} {bracket : Bracket} {before : List Datum}
      (blank : behindBlanks false text = []) :
      Parses conv (.members bracket before) text
        (.error (.fault (.endOfInput bracket.openForm))) []
  | close {text rest : List Char} {bracket : Bracket} {before : List Datum}
      (closer : behindBlanks false text = bracket.closer :: rest) :
      Parses conv (.members bracket before) text (.ok (.form (bracket.enclose before .nil))) rest
  | cut {text rest : List Char} {bracket : Bracket} {before : List Datum}
      {outcome outcome' : Outcome} (unclosed : bracket.Unclosed text)
      (item : Parses conv .item text outcome rest)
      (effect : bracket.effect before outcome = .stops outcome') :
      Parses conv (.members bracket before) text outcome' rest
  | more {text inner rest : List Char} {bracket : Bracket} {before members : List Datum}
      {outcome outcome' : Outcome} (unclosed : bracket.Unclosed text)
      (item : Parses conv .item text outcome inner)
      (effect : bracket.effect before outcome = .continues members)
      (others : Parses conv (.members bracket members) inner outcome' rest) :
      Parses conv (.members bracket before) text outcome' rest
  | tail {text inner behind rest : List Char} {bracket : Bracket} {before : List Datum}
      {outcome outcome' : Outcome} {tail : Datum} (unclosed : bracket.Unclosed text)
      (dot : Parses conv .item text outcome inner)
      (effect : bracket.effect before outcome = .expectsTail)
      (form : Parses conv .form inner (.ok (.form tail)) behind)
      (ends : bracket.afterTail before tail behind = (outcome', rest)) :
      Parses conv (.members bracket before) text outcome' rest
  | tailCut {text inner rest : List Char} {bracket : Bracket} {before : List Datum}
      {outcome reason outcome' : Outcome} (unclosed : bracket.Unclosed text)
      (dot : Parses conv .item text outcome inner)
      (effect : bracket.effect before outcome = .expectsTail)
      (form : Parses conv .form inner reason rest) (without : ∀ d, reason ≠ .ok (.form d))
      (stops : bracket.effect before reason = .stops outcome') :
      Parses conv (.members bracket before) text outcome' rest

inductive Convention.Means (conv : Convention) : Lexeme → Outcome → Prop
  | endOfInput : Means conv .endOfInput (.ok .endOfInput)
  | comment : Means conv .comment (.ok .comment)
  | constant (c : Constant) : Means conv (.constant c) (.ok (.form (.sentinel c.sentinel)))
  | integer {chars : List Char} {n : Int} (parsed : parseInteger (.ofList chars) 10 = .ok (some n)) :
      Means conv (.token chars) (.ok (.form (.integer n)))
  | aliased {chars : List Char} (parsed : parseInteger (.ofList chars) 10 = .ok none)
      (isAlias : conv.nilAlias = some (.ofList chars)) :
      Means conv (.token chars) (.ok (.form .nil))
  | name {chars : List Char} (parsed : parseInteger (.ofList chars) 10 = .ok none)
      (other : conv.nilAlias ≠ some (.ofList chars)) :
      Means conv (.token chars) (.ok (.form (.symbol (.ofList chars))))
  | unreadable {chars : List Char} {reason : ValueFault}
      (parsed : parseInteger (.ofList chars) 10 = .error reason) :
      Means conv (.token chars) (.error (.value reason))
  | number {radix : Nat} {digits : List Char} {n : Int}
      (parsed : parseInteger (.ofList digits) radix = .ok (some n)) :
      Means conv (.number radix digits) (.ok (.form (.integer n)))
  | invalid {radix : Nat} {digits : List Char}
      (parsed : parseInteger (.ofList digits) radix = .ok none) :
      Means conv (.number radix digits) (.error (.fault (.invalidNumber (.ofList digits) radix)))
  | unreadableNumber {radix : Nat} {digits : List Char} {reason : ValueFault}
      (parsed : parseInteger (.ofList digits) radix = .error reason) :
      Means conv (.number radix digits) (.error (.value reason))
  | string (literal : List Char) :
      Means conv (.string literal) (.ok (.form (conv.string (.ofList literal))))
  | character (c : Char) : Means conv (.character c) (.ok (.form (.character c.toNat)))
  | fault (reason : ReadFault) : Means conv (.fault reason) (.error (.fault reason))

theorem Convention.means_of_atom {conv : Convention} {lexeme : Lexeme} {outcome : Outcome}
    (means : conv.atom lexeme = some outcome) : conv.Means lexeme outcome := by
  cases lexeme with
  | endOfInput =>
    cases means
    exact .endOfInput
  | comment =>
    cases means
    exact .comment
  | opening => cases means
  | constant c =>
    cases means
    exact .constant c
  | token chars =>
    cases means
    unfold token
    split
    next parsed => exact .integer parsed
    next parsed =>
      split
      next isAlias => exact .aliased parsed isAlias
      next other => exact .name parsed other
    next parsed => exact .unreadable parsed
  | number radix digits =>
    cases means
    unfold Convention.number
    split
    next parsed => exact .number parsed
    next parsed => exact .invalid parsed
    next parsed => exact .unreadableNumber parsed
  | string literal =>
    cases means
    exact .string literal
  | character c =>
    cases means
    exact .character c
  | fault reason =>
    cases means
    exact .fault reason

namespace Dialect

variable (dialect : Dialect)

theorem splitThrough_suffix {S : Type} {scan : S → Char → Option S} {state : S}
    {text taken rest : List Char} (splits : splitThrough scan state [] text = some (taken, rest)) :
    rest <:+ text := ⟨taken, splitThrough_append splits⟩

theorem scanCharacter_suffix (text : List Char) : (scanCharacter text).2 <:+ text := by
  cases text with
  | nil => exact List.suffix_rfl
  | cons first text =>
    simp only [scanCharacter]
    split
    · exact (List.dropWhile_suffix _).trans (List.suffix_cons first text)
    · exact List.suffix_cons first text

theorem scanSequence_suffix (c : Char) (text : List Char) :
    (dialect.scanSequence c text).2 <:+ text := by
  unfold scanSequence
  split
  · exact List.dropWhile_suffix _
  · split
    next splits => exact splitThrough_suffix splits
    next => exact List.nil_suffix
  · exact List.suffix_rfl
  · exact List.suffix_rfl
  · exact scanCharacter_suffix text
  · exact List.suffix_rfl
  · exact List.dropWhile_suffix _
  · exact List.suffix_rfl

theorem scanHash_suffix (text : List Char) : (dialect.scanHash text).2 <:+ text := by
  have marks : text.dropWhile Lexeme.isExactness <:+ text := List.dropWhile_suffix _
  unfold scanHash
  split
  · exact List.nil_suffix
  next c rest dropped =>
    rw [dropped] at marks
    exact (dialect.scanSequence_suffix c rest).trans ((List.suffix_cons c rest).trans marks)

theorem scanStarted_suffix (c : Char) (text : List Char) :
    (dialect.scanStarted c text).2 <:+ text := by
  unfold scanStarted
  split
  · exact List.suffix_rfl
  · split
    · exact List.tail_suffix text
    · exact List.suffix_rfl
  · exact List.suffix_rfl
  · exact dialect.scanHash_suffix text
  · split
    next splits => exact splitThrough_suffix splits
    next => exact List.nil_suffix
  · exact List.dropWhile_suffix _
  · exact List.suffix_rfl

theorem length_lt_of_scan {dialect : Dialect} {text rest : List Char} {lexeme : Lexeme}
    (scans : dialect.scan text = (lexeme, rest)) (there : lexeme ≠ .endOfInput) :
    rest.length < text.length := by
  have blanks := (behindBlanks_suffix false text).length_le
  unfold scan at scans
  split at scans
  · cases scans
    exact absurd rfl there
  next c inner behind =>
    have started : rest.length ≤ inner.length := by
      simpa [scans] using (dialect.scanStarted_suffix c inner).length_le
    rw [behind, List.length_cons] at blanks
    omega

theorem scan_suffix {dialect : Dialect} {text rest : List Char} {lexeme : Lexeme}
    (scans : dialect.scan text = (lexeme, rest)) : rest <:+ text := by
  unfold scan at scans
  split at scans
  · cases scans
    exact List.nil_suffix
  next c inner behind =>
    have started := dialect.scanStarted_suffix c inner
    rw [scans] at started
    refine started.trans ((List.suffix_cons c inner).trans ?_)
    rw [← behind]
    exact behindBlanks_suffix false text

end Dialect

namespace Bracket

variable {bracket : Bracket} {before : List Datum} {outcome : Outcome}

/-- A list is stopped by an obstacle, for want of an item, or by a dot that is out of place. -/
theorem stops_cases {reason : Outcome} (effect : bracket.effect before outcome = .stops reason) :
    (∃ obstacle, outcome = .error obstacle ∧ reason = .error obstacle) ∨
      (outcome = .ok .endOfInput ∧ reason = .error (.fault (.endOfInput bracket.openForm))) ∨
      ∃ d fault, outcome = .ok (.form d) ∧ d.isDot = true ∧ reason = .error (.fault fault) ∧
        (fault = .nothingBeforeDot ∧ before = [] ∨
          fault = .dotInVector ∧ before ≠ [] ∧ bracket = .vector) := by
  match outcome, effect with
  | .error obstacle, rfl => exact .inl ⟨obstacle, rfl, rfl⟩
  | .ok .endOfInput, rfl => exact .inr (.inl ⟨rfl, rfl⟩)
  | .ok (.form d), effect =>
    simp only [Bracket.effect] at effect
    split at effect
    next dot =>
      refine .inr (.inr ⟨d, ?_⟩)
      split at effect
      next none =>
        cases effect
        exact ⟨_, rfl, dot, rfl, .inl ⟨rfl, List.isEmpty_iff.mp none⟩⟩
      next some =>
        split at effect
        next vector =>
          cases effect
          exact ⟨_, rfl, dot, rfl, .inr ⟨rfl, fun none => some (List.isEmpty_iff.mpr none), vector⟩⟩
        next => cases effect
    next => cases effect

theorem continues_cases {members : List Datum}
    (effect : bracket.effect before outcome = .continues members) :
    (outcome = .ok .comment ∧ members = before) ∨
      ∃ d, outcome = .ok (.form d) ∧ d.isDot = false ∧ members = before ++ [d] := by
  match outcome, effect with
  | .ok .comment, rfl => exact .inl ⟨rfl, rfl⟩
  | .ok (.form d), effect =>
    simp only [Bracket.effect] at effect
    split at effect
    · split at effect
      · cases effect
      · split at effect <;> cases effect
    next plain =>
      cases effect
      exact .inr ⟨d, rfl, Bool.eq_false_iff.mpr plain, rfl⟩

theorem expectsTail_cases (effect : bracket.effect before outcome = .expectsTail) :
    ∃ d, outcome = .ok (.form d) ∧ d.isDot = true ∧ before ≠ [] ∧ bracket ≠ .vector := by
  match outcome, effect with
  | .ok (.form d), effect =>
    simp only [Bracket.effect] at effect
    split at effect
    next dot =>
      split at effect
      next => cases effect
      next some =>
        split at effect
        next => cases effect
        next list => exact ⟨d, rfl, dot, fun none => some (List.isEmpty_iff.mpr none), list⟩
    next => cases effect

theorem ne_nil_of_expectsTail (effect : bracket.effect before outcome = .expectsTail) :
    before ≠ [] := by
  obtain ⟨-, -, -, some, -⟩ := expectsTail_cases effect
  exact some

theorem error_of_effect {reason : Outcome} (effect : bracket.effect before outcome = .stops reason) :
    ∃ obstacle, reason = .error obstacle := by
  obtain ⟨obstacle, -, rfl⟩ | ⟨-, rfl⟩ | ⟨-, fault, -, -, rfl, -⟩ := stops_cases effect
  · exact ⟨obstacle, rfl⟩
  · exact ⟨_, rfl⟩
  · exact ⟨_, rfl⟩

theorem plain_of_continues {members : List Datum} {d : Datum}
    (effect : bracket.effect before (.ok (.form d)) = .continues members) :
    d.isDot = false ∧ members = before ++ [d] := by
  obtain ⟨comment, -⟩ | ⟨_, form, plain, grown⟩ := continues_cases effect
  · cases comment
  · cases form
    exact ⟨plain, grown⟩

/-- An item that ends its list for another reason than the end of the text, or not at all, is there
before the text ends. -/
theorem early_of_effect {effect : Effect} (does : bracket.effect before outcome = effect)
    (early : ∀ reason, effect = .stops reason → reason.meetsEnd = false) :
    outcome.meetsEnd = false := by
  refine Bool.eq_false_iff.mpr fun ends => ?_
  unfold Outcome.meetsEnd at ends
  split at ends
  · cases early _ does.symm
  · cases early _ does.symm
  · cases ends

theorem afterTail_cases {tail : Datum} {text rest : List Char}
    (ends : bracket.afterTail before tail text = (outcome, rest)) :
    (behindBlanks false text = [] ∧ rest = [] ∧
        outcome = .error (.fault (.endOfInput bracket.openForm))) ∨
      (behindBlanks false text = bracket.closer :: rest ∧
        outcome = .ok (.form (bracket.enclose before tail))) ∨
      ∃ c, behindBlanks false text = c :: rest ∧ c ≠ bracket.closer ∧
        outcome = .error (.fault (.afterDottedTail bracket.closer c)) := by
  unfold afterTail at ends
  split at ends
  next blank =>
    cases ends
    exact .inl ⟨blank, rfl, rfl⟩
  next c inner behind =>
    split at ends
    next closer =>
      cases ends
      rw [eq_of_beq closer] at behind
      exact .inr (.inl ⟨behind, rfl⟩)
    next other =>
      cases ends
      exact .inr (.inr ⟨c, behind, fun closer => other (beq_iff_eq.mpr closer), rfl⟩)

theorem enclose_of_ne_vector (list : bracket ≠ .vector) (members : List Datum) (tail : Datum) :
    bracket.enclose members tail = .ofList members tail := by
  cases bracket with
  | vector => exact absurd rfl list
  | round => rfl
  | square => rfl

theorem eq_enclose_of_afterTail {item : Item Datum} {tail : Datum} {text rest : List Char}
    (ends : bracket.afterTail before tail text = (.ok item, rest)) :
    item = .form (bracket.enclose before tail) := by
  obtain ⟨-, -, error⟩ | ⟨-, closed⟩ | ⟨_, -, -, error⟩ := afterTail_cases ends
  · cases error
  · exact Except.ok.inj closed
  · cases error

theorem afterTail_suffix {tail : Datum} {text rest : List Char}
    (ends : bracket.afterTail before tail text = (outcome, rest)) : rest <:+ text := by
  have blanks := behindBlanks_suffix false text
  obtain ⟨-, rfl, -⟩ | ⟨behind, -⟩ | ⟨c, behind, -⟩ := afterTail_cases ends
  · exact List.nil_suffix
  · rw [behind] at blanks
    exact (List.suffix_cons _ rest).trans blanks
  · rw [behind] at blanks
    exact (List.suffix_cons c rest).trans blanks

end Bracket

namespace Parses

variable {conv : Convention} {task : Task} {text rest : List Char} {outcome : Outcome}

section

variable {text' : List Char} (same : behindBlanks false text' = behindBlanks false text)

include same

theorem item_of_behindBlanks (item : Parses conv .item text outcome rest) :
    Parses conv .item text' outcome rest := by
  have scan : conv.dialect.scan text' = conv.dialect.scan text := by
    rw [Dialect.scan, Dialect.scan, same]
  cases item with
  | atom scans means => exact .atom (scan.trans scans) means
  | quoted scans form => exact .quoted (scan.trans scans) form
  | discarded scans form => exact .discarded (scan.trans scans) form
  | list scans members => exact .list (scan.trans scans) members

theorem form_of_behindBlanks (form : Parses conv .form text outcome rest) :
    Parses conv .form text' outcome rest := by
  cases form with
  | skip comment form => exact .skip (comment.item_of_behindBlanks same) form
  | stop item there => exact .stop (item.item_of_behindBlanks same) there

end

theorem suffix (parses : Parses conv task text outcome rest) : rest <:+ text := by
  induction parses with
  | atom scans _ => exact Dialect.scan_suffix scans
  | quoted scans _ form => exact form.trans (Dialect.scan_suffix scans)
  | discarded scans _ form => exact form.trans (Dialect.scan_suffix scans)
  | list scans _ members => exact members.trans (Dialect.scan_suffix scans)
  | skip _ _ comment form => exact form.trans comment
  | stop _ _ item => exact item
  | unclosed _ => exact List.nil_suffix
  | close closer => exact (closer ▸ List.suffix_cons _ _).trans (behindBlanks_suffix false _)
  | cut _ _ _ item => exact item
  | more _ _ _ _ item others => exact others.trans item
  | tail _ _ _ _ ends dot form => exact ((Bracket.afterTail_suffix ends).trans form).trans dot
  | tailCut _ _ _ _ _ _ dot form => exact form.trans dot

theorem length_lt (parses : Parses conv task text outcome rest) (early : outcome.meetsEnd = false) :
    rest.length < text.length := by
  -- One lexeme at least stands in front, and the rest of the derivation only takes more.
  induction parses with
  | @atom _ _ lexeme _ scans means =>
    refine Dialect.length_lt_of_scan scans ?_
    rintro rfl
    cases means
    cases early
  | quoted scans form _ =>
    exact Nat.lt_of_le_of_lt form.suffix.length_le (Dialect.length_lt_of_scan scans (by simp))
  | discarded scans form _ =>
    exact Nat.lt_of_le_of_lt form.suffix.length_le (Dialect.length_lt_of_scan scans (by simp))
  | list scans members _ =>
    exact Nat.lt_of_le_of_lt members.suffix.length_le (Dialect.length_lt_of_scan scans (by simp))
  | skip _ form comment _ => exact Nat.lt_of_le_of_lt form.suffix.length_le (comment rfl)
  | stop _ _ item => exact item early
  | unclosed _ => cases early
  | @close text rest bracket _ closer =>
    have blanks := (behindBlanks_suffix false text).length_le
    rw [closer, List.length_cons] at blanks
    omega
  | cut _ _ effect item =>
    exact item (Bracket.early_of_effect effect fun _ same => by cases same; exact early)
  | more _ _ effect others item _ =>
    have first := item (Bracket.early_of_effect effect (by simp))
    exact Nat.lt_of_le_of_lt others.suffix.length_le first
  | tail _ _ effect form ends dot _ =>
    have first := dot (Bracket.early_of_effect effect (by simp))
    have second := form.suffix.length_le
    have third := (Bracket.afterTail_suffix ends).length_le
    omega
  | tailCut _ _ effect form _ _ dot _ =>
    have first := dot (Bracket.early_of_effect effect (by simp))
    exact Nat.lt_of_le_of_lt form.suffix.length_le first

theorem ne_comment (parses : Parses conv .form text outcome rest) : outcome ≠ .ok .comment := by
  generalize isForm : Task.form = task at parses
  induction parses with
  | skip _ _ _ form => exact form isForm
  | stop _ there _ => exact there
  | _ => cases isForm

theorem members_outcome {bracket : Bracket} {before : List Datum}
    (members : Parses conv (.members bracket before) text outcome rest) {item : Item Datum}
    (ok : outcome = .ok item) : ∃ d, item = .form d := by
  generalize task : Task.members bracket before = task at members
  induction members generalizing bracket before with
  | unclosed => cases ok
  | close =>
    cases ok
    exact ⟨_, rfl⟩
  | cut _ _ effect _ =>
    obtain ⟨obstacle, rfl⟩ := Bracket.error_of_effect effect
    cases ok
  | more _ _ _ _ _ ih => exact ih ok rfl
  | tail _ _ _ _ ends _ _ =>
    subst ok
    exact ⟨_, Bracket.eq_enclose_of_afterTail ends⟩
  | tailCut _ _ _ _ _ stops _ _ =>
    obtain ⟨obstacle, rfl⟩ := Bracket.error_of_effect stops
    cases ok
  | _ => cases task

structure Total (conv : Convention) (text : List Char) : Prop where
  item : ∃ outcome rest, Parses conv .item text outcome rest
  form : ∃ outcome rest, Parses conv .form text outcome rest
  members (bracket : Bracket) (before : List Datum) :
    ∃ outcome rest, Parses conv (.members bracket before) text outcome rest

section Total

variable (shorter : ∀ inner : List Char, inner.length < text.length → Total conv inner)

include shorter

theorem exists_item : ∃ outcome rest, Parses conv .item text outcome rest := by
  cases scans : conv.dialect.scan text with
  | mk lexeme inner =>
    cases means : conv.atom lexeme with
    | some outcome => exact ⟨outcome, inner, .atom scans means⟩
    | none =>
      cases lexeme with
      | opening opening =>
        have inside := shorter inner (Dialect.length_lt_of_scan scans (by simp))
        cases opening with
        | quoted mark =>
          obtain ⟨outcome, rest, form⟩ := inside.form
          exact ⟨_, rest, .quoted scans form⟩
        | list bracket =>
          obtain ⟨outcome, rest, members⟩ := inside.members bracket []
          exact ⟨outcome, rest, .list scans members⟩
        | datumComment =>
          obtain ⟨outcome, rest, form⟩ := inside.form
          exact ⟨_, rest, .discarded scans form⟩
      | _ => cases means

theorem exists_form {outcome : Outcome} {inner : List Char}
    (item : Parses conv .item text outcome inner) :
    ∃ outcome rest, Parses conv .form text outcome rest := by
  by_cases comment : outcome = .ok .comment
  · subst comment
    obtain ⟨outcome, rest, form⟩ := (shorter inner (item.length_lt rfl)).form
    exact ⟨outcome, rest, .skip item form⟩
  · exact ⟨outcome, inner, .stop item comment⟩

theorem exists_tail {outcome : Outcome} {inner : List Char} {bracket : Bracket}
    {before : List Datum} (unclosed : bracket.Unclosed text)
    (dot : Parses conv .item text outcome inner)
    (effect : bracket.effect before outcome = .expectsTail) :
    ∃ outcome rest, Parses conv (.members bracket before) text outcome rest := by
  have less := dot.length_lt (Bracket.early_of_effect effect (by simp))
  obtain ⟨reason, behind, form⟩ := (shorter inner less).form
  match reason, form with
  | .ok (.form _), form => exact ⟨_, _, .tail unclosed dot effect form rfl⟩
  | .ok .comment, form => exact absurd rfl form.ne_comment
  | .ok .endOfInput, form => exact ⟨_, _, .tailCut unclosed dot effect form (by simp) rfl⟩
  | .error obstacle, form => exact ⟨_, _, .tailCut unclosed dot effect form (by simp) rfl⟩

theorem exists_members {outcome : Outcome} {inner : List Char}
    (item : Parses conv .item text outcome inner) (bracket : Bracket) (before : List Datum) :
    ∃ outcome rest, Parses conv (.members bracket before) text outcome rest := by
  cases blanks : behindBlanks false text with
  | nil => exact ⟨_, [], .unclosed blanks⟩
  | cons c behind =>
    by_cases closer : c = bracket.closer
    · subst closer
      exact ⟨_, behind, .close blanks⟩
    · have unclosed : bracket.Unclosed text := ⟨c, behind, blanks, closer⟩
      cases effect : bracket.effect before outcome with
      | stops reason => exact ⟨reason, inner, .cut unclosed item effect⟩
      | continues members =>
        have less := item.length_lt (Bracket.early_of_effect effect (by simp))
        obtain ⟨reason, rest, others⟩ := (shorter inner less).members bracket members
        exact ⟨reason, rest, .more unclosed item effect others⟩
      | expectsTail => exact exists_tail shorter unclosed item effect

end Total

theorem total (conv : Convention) (text : List Char) : Total conv text := by
  induction length : text.length using Nat.strongRecOn generalizing text with
  | ind n ih =>
    have shorter (inner : List Char) (less : inner.length < text.length) : Total conv inner :=
      ih inner.length (length ▸ less) inner rfl
    obtain ⟨outcome, inner, item⟩ := exists_item shorter
    exact ⟨⟨outcome, inner, item⟩, exists_form shorter item, exists_members shorter item⟩

end Parses

end SexprReader
