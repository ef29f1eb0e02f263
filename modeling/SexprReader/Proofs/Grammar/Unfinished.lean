import SexprReader.Proofs.Grammar.Forms

/-! What a text means where some forms are open. Of an open form, only the data it holds so far and
what it waits for decide how it goes on. -/

namespace SexprReader

/-- A form that is open, by the data it holds so far. -/
inductive Unfinished where
  | members (bracket : Bracket) (before : List Datum)
  | dotted (bracket : Bracket) (before : List Datum)
  | sealed (bracket : Bracket) (before : List Datum) (tail : Datum)
  | quoted (mark : QuoteMark)
  | discarded

inductive Turn where
  | pending (frames : List Unfinished)
  | finished (form : Option Datum)
  | stopped (obstacle : Obstacle)

namespace Unfinished

def ofOpening : Opening → Unfinished
  | .quoted mark => .quoted mark
  | .list bracket => .members bracket []
  | .datumComment => .discarded

def complete : List Unfinished → Option Datum → Turn
  | [], form => .finished form
  | .discarded :: outer, none => complete outer none
  | .discarded :: outer, some _ => .pending outer
  | .quoted mark :: _, none => .stopped (.fault (.endOfInput (.quoted mark)))
  | .quoted mark :: outer, some d => complete outer (some (d.quoted mark))
  | .members bracket _ :: _, none => .stopped (.fault (.endOfInput bracket.openForm))
  | .members bracket before :: outer, some d =>
    if d.isDot then
      if before.isEmpty then .stopped (.fault .nothingBeforeDot)
      else if bracket = .vector then .stopped (.fault .dotInVector)
      else .pending (.dotted bracket before :: outer)
    else .pending (.members bracket (before ++ [d]) :: outer)
  | .dotted bracket _ :: _, none => .stopped (.fault (.endOfInput bracket.openForm))
  | .dotted bracket before :: outer, some d => .pending (.sealed bracket before d :: outer)
  | .sealed bracket _ _ :: _, none => .stopped (.fault (.endOfInput bracket.openForm))
  | .sealed bracket before tail :: outer, some _ => .pending (.sealed bracket before tail :: outer)

def deliver (frames : List Unfinished) : Outcome → Turn
  | .ok (.form d) => complete frames (some d)
  | .ok .comment => .pending frames
  | .ok .endOfInput => complete frames none
  | .error obstacle => .stopped obstacle

def Ready (text : List Char) : List Unfinished → Prop
  | .members bracket _ :: _ => bracket.Unclosed text
  | .sealed _ _ _ :: _ => False
  | _ => True

end Unfinished

open Unfinished

/-- Open forms come to this in one turn, and this much of the text is left. -/
inductive Turns (conv : Convention) : List Unfinished → List Char → Turn → List Char → Prop
  | opening {frames : List Unfinished} {text rest : List Char} {start : Opening}
      (ready : Ready text frames) (scans : conv.dialect.scan text = (.opening start, rest)) :
      Turns conv frames text (.pending (ofOpening start :: frames)) rest
  | atom {frames : List Unfinished} {text rest : List Char} {lexeme : Lexeme} {outcome : Outcome}
      (ready : Ready text frames) (scans : conv.dialect.scan text = (lexeme, rest))
      (means : conv.atom lexeme = some outcome) :
      Turns conv frames text (deliver frames outcome) rest
  | unclosed {outer : List Unfinished} {text : List Char} {bracket : Bracket} {before : List Datum}
      (blank : behindBlanks false text = []) :
      Turns conv (.members bracket before :: outer) text
        (.stopped (.fault (.endOfInput bracket.openForm))) []
  | close {outer : List Unfinished} {text rest : List Char} {bracket : Bracket}
      {before : List Datum} (closer : behindBlanks false text = bracket.closer :: rest) :
      Turns conv (.members bracket before :: outer) text
        (complete outer (some (bracket.enclose before .nil))) rest
  | closeTail {outer : List Unfinished} {text rest : List Char} {bracket : Bracket}
      {before : List Datum} {tail : Datum} {outcome : Outcome}
      (ends : bracket.afterTail before tail text = (outcome, rest)) :
      Turns conv (.sealed bracket before tail :: outer) text (deliver outer outcome) rest

inductive Finishes (conv : Convention) : List Unfinished → List Char → Outcome → List Char → Prop
  | form {frames : List Unfinished} {text rest : List Char} {d : Datum}
      (turns : Turns conv frames text (.finished (some d)) rest) :
      Finishes conv frames text (.ok (.form d)) rest
  | end_ {frames : List Unfinished} {text rest : List Char}
      (turns : Turns conv frames text (.finished none) rest) :
      Finishes conv frames text (.ok .endOfInput) rest
  | stop {frames : List Unfinished} {text rest : List Char} {obstacle : Obstacle}
      (turns : Turns conv frames text (.stopped obstacle) rest) :
      Finishes conv frames text (.error obstacle) rest
  | turn {frames frames' : List Unfinished} {text inner rest : List Char} {outcome : Outcome}
      (turns : Turns conv frames text (.pending frames') inner)
      (next : Finishes conv frames' inner outcome rest) : Finishes conv frames text outcome rest

/-- The outermost of some open forms is finished, and the forms behind it follow up to the end of the
text, or up to an obstacle. -/
inductive FinishesAll (conv : Convention) :
    List Unfinished → List Char → List Datum → Option Obstacle → List Char → Prop
  | stop {frames : List Unfinished} {text rest : List Char}
      (end_ : Finishes conv frames text (.ok .endOfInput) rest) :
      FinishesAll conv frames text [] none rest
  | fail {frames : List Unfinished} {text rest : List Char} {obstacle : Obstacle}
      (error : Finishes conv frames text (.error obstacle) rest) :
      FinishesAll conv frames text [] (some obstacle) rest
  | form {frames : List Unfinished} {text inner rest : List Char} {d : Datum} {ds : List Datum}
      {obstacle : Option Obstacle} (first : Finishes conv frames text (.ok (.form d)) inner)
      (others : ParsesAll conv inner ds obstacle rest) :
      FinishesAll conv frames text (d :: ds) obstacle rest

variable {conv : Convention} {frames frames' : List Unfinished} {text rest : List Char}
  {outcome : Outcome}

def Turn.Fruitful : Turn → Prop
  | .pending _ | .finished (some _) => True
  | .finished none | .stopped _ => False

theorem Unfinished.not_fruitful_complete_none (frames : List Unfinished) :
    ¬(complete frames none).Fruitful := by
  induction frames with
  | nil => exact id
  | cons frame outer ih =>
    cases frame with
    | discarded => exact ih
    | _ => exact id

theorem Unfinished.early_of_deliver (fruitful : (deliver frames outcome).Fruitful) :
    outcome.meetsEnd = false := by
  match outcome, fruitful with
  | .ok (.form _), _ => rfl
  | .ok .comment, _ => rfl
  | .ok .endOfInput, fruitful => exact absurd fruitful (not_fruitful_complete_none frames)

theorem Unfinished.complete_ne_value (frames : List Unfinished) (form : Option Datum)
    (reason : ValueFault) : complete frames form ≠ .stopped (.value reason) := by
  fun_induction complete frames form <;> first | assumption | simp

theorem Unfinished.eq_error_of_deliver {reason : ValueFault}
    (fails : deliver frames outcome = .stopped (.value reason)) : outcome = .error (.value reason) := by
  match outcome, fails with
  | .ok (.form d), fails => exact absurd fails (complete_ne_value frames (some d) reason)
  | .ok .endOfInput, fails => exact absurd fails (complete_ne_value frames none reason)
  | .error _, fails => cases fails; rfl

theorem Dialect.scan_of_behindBlanks {dialect : Dialect} {text' : List Char}
    (same : behindBlanks false text' = behindBlanks false text) :
    dialect.scan text' = dialect.scan text := by
  rw [scan, scan, same]

theorem Unfinished.ready_of_behindBlanks {text' : List Char}
    (same : behindBlanks false text' = behindBlanks false text) (ready : Ready text frames) :
    Ready text' frames := by
  unfold Ready at ready ⊢
  split at ready
  · rw [Bracket.Unclosed, same]
    exact ready
  · exact ready
  · trivial

theorem Bracket.length_lt_of_afterTail {bracket : Bracket} {before : List Datum} {tail : Datum}
    (ends : bracket.afterTail before tail text = (outcome, rest)) (early : outcome.meetsEnd = false) :
    rest.length < text.length := by
  have blanks := (behindBlanks_suffix false text).length_le
  obtain ⟨-, -, rfl⟩ | ⟨behind, -⟩ | ⟨c, behind, -⟩ := afterTail_cases ends
  · cases early
  · rw [behind, List.length_cons] at blanks
    omega
  · rw [behind, List.length_cons] at blanks
    omega

namespace Turns

theorem length_lt {turn : Turn} (turns : Turns conv frames text turn rest)
    (fruitful : turn.Fruitful) : rest.length < text.length := by
  cases turns with
  | opening _ scans => exact Dialect.length_lt_of_scan scans (by simp)
  | @atom _ _ _ lexeme _ _ scans means =>
    apply Dialect.length_lt_of_scan scans
    rintro rfl
    cases means
    exact not_fruitful_complete_none frames fruitful
  | unclosed => exact fruitful.elim
  | close closer =>
    have blanks := (behindBlanks_suffix false text).length_le
    rw [closer, List.length_cons] at blanks
    omega
  | closeTail ends => exact Bracket.length_lt_of_afterTail ends (early_of_deliver fruitful)

theorem of_value {reason : ValueFault}
    (turns : Turns conv frames text (.stopped (.value reason)) rest) :
    ∃ lexeme, Ready text frames ∧ conv.dialect.scan text = (lexeme, rest) ∧
      conv.atom lexeme = some (.error (.value reason)) := by
  generalize same : (.stopped (.value reason) : Turn) = turn at turns
  cases turns with
  | opening => cases same
  | atom ready scans means =>
    rw [eq_error_of_deliver same.symm] at means
    exact ⟨_, ready, scans, means⟩
  | unclosed => cases same
  | close => exact absurd same.symm (complete_ne_value _ _ _)
  | @closeTail _ _ _ bracket before tail _ ends =>
    rw [eq_error_of_deliver same.symm] at ends
    obtain ⟨-, -, error⟩ | ⟨-, closed⟩ | ⟨c, -, -, error⟩ := Bracket.afterTail_cases ends
    · cases error
    · cases closed
    · cases error

theorem exists_of_ready (ready : Ready text frames) : ∃ turn rest, Turns conv frames text turn rest := by
  cases scans : conv.dialect.scan text with
  | mk lexeme inner =>
    cases means : conv.atom lexeme with
    | some outcome => exact ⟨_, inner, .atom ready scans means⟩
    | none =>
      cases lexeme with
      | opening start => exact ⟨_, inner, .opening ready scans⟩
      | _ => cases means

theorem exists_turn (conv : Convention) (frames : List Unfinished) (text : List Char) :
    ∃ turn rest, Turns conv frames text turn rest := by
  match frames with
  | .members bracket before :: outer =>
    cases blanks : behindBlanks false text with
    | nil => exact ⟨_, _, .unclosed blanks⟩
    | cons c behind =>
      by_cases closer : c = bracket.closer
      · subst closer
        exact ⟨_, behind, .close blanks⟩
      · exact exists_of_ready ⟨c, behind, blanks, closer⟩
  | .sealed bracket before tail :: outer => exact ⟨_, _, .closeTail rfl⟩
  | .dotted _ _ :: _ => exact exists_of_ready trivial
  | .quoted _ :: _ => exact exists_of_ready trivial
  | .discarded :: _ => exact exists_of_ready trivial
  | [] => exact exists_of_ready trivial

theorem of_behindBlanks {turn : Turn} {text' : List Char}
    (same : behindBlanks false text' = behindBlanks false text)
    (turns : Turns conv frames text turn rest) : Turns conv frames text' turn rest := by
  have scan : conv.dialect.scan text' = conv.dialect.scan text := Dialect.scan_of_behindBlanks same
  cases turns with
  | opening ready scans => exact .opening (ready_of_behindBlanks same ready) (scan.trans scans)
  | atom ready scans means =>
    exact .atom (ready_of_behindBlanks same ready) (scan.trans scans) means
  | unclosed blank => exact .unclosed (same.trans blank)
  | close closer => exact .close (same.trans closer)
  | closeTail ends =>
    refine .closeTail (Eq.trans ?_ ends)
    rw [Bracket.afterTail, Bracket.afterTail, same]

end Turns

namespace Finishes

theorem total (conv : Convention) (frames : List Unfinished) (text : List Char) :
    ∃ outcome rest, Finishes conv frames text outcome rest := by
  induction length : text.length using Nat.strongRecOn generalizing frames text with
  | ind n ih =>
    obtain ⟨turn, inner, turns⟩ := Turns.exists_turn conv frames text
    match turn, turns with
    | .finished (some _), turns => exact ⟨_, _, .form turns⟩
    | .finished none, turns => exact ⟨_, _, .end_ turns⟩
    | .stopped _, turns => exact ⟨_, _, .stop turns⟩
    | .pending frames', turns =>
      obtain ⟨outcome, rest, next⟩ := ih inner.length (length ▸ turns.length_lt trivial) frames' inner rfl
      exact ⟨outcome, rest, .turn turns next⟩

theorem of_behindBlanks {text' : List Char}
    (same : behindBlanks false text' = behindBlanks false text)
    (finishes : Finishes conv frames text outcome rest) :
    Finishes conv frames text' outcome rest := by
  cases finishes with
  | form turns => exact .form (turns.of_behindBlanks same)
  | end_ turns => exact .end_ (turns.of_behindBlanks same)
  | stop turns => exact .stop (turns.of_behindBlanks same)
  | turn turns next => exact .turn (turns.of_behindBlanks same) next

theorem ne_comment (finishes : Finishes conv frames text outcome rest) : outcome ≠ .ok .comment := by
  induction finishes with
  | turn _ _ ih => exact ih
  | _ => simp

theorem length_lt {d : Datum} (finishes : Finishes conv frames text (.ok (.form d)) rest) :
    rest.length < text.length := by
  generalize same : (.ok (.form d) : Outcome) = outcome at finishes
  induction finishes with
  | form turns => exact turns.length_lt trivial
  | end_ => cases same
  | stop => cases same
  | turn turns _ ih => exact Nat.lt_trans (ih same) (turns.length_lt trivial)

end Finishes

namespace FinishesAll

theorem total (conv : Convention) (frames : List Unfinished) (text : List Char) :
    ∃ ds obstacle rest, FinishesAll conv frames text ds obstacle rest := by
  obtain ⟨outcome, inner, finishes⟩ := Finishes.total conv frames text
  match outcome, finishes with
  | .error _, finishes => exact ⟨_, _, _, .fail finishes⟩
  | .ok .endOfInput, finishes => exact ⟨_, _, _, .stop finishes⟩
  | .ok .comment, finishes => exact absurd rfl finishes.ne_comment
  | .ok (.form d), finishes =>
    obtain ⟨ds, obstacle, rest, others⟩ := ParsesAll.total conv inner
    exact ⟨_, _, _, .form finishes others⟩

theorem of_behindBlanks {ds : List Datum} {obstacle : Option Obstacle} {text' : List Char}
    (same : behindBlanks false text' = behindBlanks false text)
    (all : FinishesAll conv frames text ds obstacle rest) :
    FinishesAll conv frames text' ds obstacle rest := by
  cases all with
  | stop end_ => exact .stop (end_.of_behindBlanks same)
  | fail error => exact .fail (error.of_behindBlanks same)
  | form first others => exact .form (first.of_behindBlanks same) others

end FinishesAll

end SexprReader
