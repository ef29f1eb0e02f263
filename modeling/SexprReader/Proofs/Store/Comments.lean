import SexprReader.Proofs.Reader.BlockComments
import SexprReader.Proofs.Store.OpenForms

namespace SexprReader

open ReadM Store Unfinished Lexeme

def Context.takesForm {σ V : Type} (ctx : Context σ V) (s : ReadState σ) (text rest : List Char) :
    Bool :=
  match ctx.readForm none (s.withText (text ++ rest)) with
  | .ok v s' => !ctx.host.eq v ctx.host.endOfStream && s'.source.remaining == rest
  | .error _ _ => false

inductive Context.CompleteComment {σ V : Type} (ctx : Context σ V) (s : ReadState σ)
    (rest : List Char) : List Char → Prop
  | blanks {text : List Char} (blank : ∀ c ∈ text, isWhitespace c = true) :
      CompleteComment ctx s rest text
  | line {text : List Char} (inside : '\n' ∉ text) :
      CompleteComment ctx s rest (';' :: text ++ ['\n'])
  | shebang {text : List Char} (inside : '\n' ∉ text) :
      CompleteComment ctx s rest ('#' :: '!' :: text ++ ['\n'])
  | block {text : List Char} (nests : Nests 0 text) : CompleteComment ctx s rest ('#' :: '|' :: text)
  | datum {text : List Char} (takes : ctx.takesForm s text rest = true) :
      CompleteComment ctx s rest ('#' :: ';' :: text)

/-- The innermost open form is a list with its tail in place, which only waits to be closed. -/
def Stack.isSealed {V : Type} : Stack V → Bool
  | .list _ (.sealed _ _) :: _ => true
  | _ => false

def Reading.data? (reading : Reading Store Value) : Option (List Datum) :=
  reading.forms.mapM fun form => (reading.final.host.heap.tree? form).map Tree.datum

def Failure.unplaced : Failure → Failure
  | .reading e => .reading ⟨e.fault, none, none, none⟩
  | failure => failure

/-- Both readings give the same data, and end in the same way apart from the place of an error. -/
def Reading.Alike (left right : Reading Store Value) : Prop :=
  (∃ ds, left.data? = some ds ∧ right.data? = some ds) ∧
    left.failure.map Failure.unplaced = right.failure.map Failure.unplaced

/-- The reader of a convention, with the host it describes. -/
def Convention.context (conv : Convention) (table : TableId) : HostM Store (Context Store Value) := do
  let host ← (Store.host ⟨table, conv.interpretEscapes, .all, true, .raise⟩).withNilAlias conv.nilAlias
  Context.create host conv.bracketLists

variable {ctx : Context Store Value} {conv : Convention} {table : TableId} {store : Store}
  {text rest : List Char}

theorem Convention.exists_opened (conv : Convention) (known : table.index < store.symbols.tables.size) :
    ∃ ctx opened, conv.context table store = .ok ctx opened ∧ Serves ctx conv table opened := by
  obtain ⟨nilSymbol?, ready, hosts, nilAlias, -, known⟩ := exists_host conv known
  obtain ⟨ctx, opened, creates, serves, -⟩ := exists_context known nilAlias
  exact ⟨ctx, opened, (HostM.bind_of_ok hosts).trans creates, serves⟩

theorem Convention.serves_of_context {opened : Store}
    (known : table.index < store.symbols.tables.size)
    (opens : conv.context table store = .ok ctx opened) : Serves ctx conv table opened := by
  obtain ⟨ctx', opened', made, serves⟩ := conv.exists_opened known
  rw [made] at opens
  cases opens
  exact serves

section Text

theorem dropWhile_line (inside : '\n' ∉ text) (rest : List Char) :
    (text ++ '\n' :: rest).dropWhile (· != '\n') = '\n' :: rest := by
  have through : ∀ c ∈ text, (c != '\n') = true := by
    intro c member
    exact bne_iff_ne.mpr fun same => inside (same ▸ member)
  rw [List.dropWhile_append_of_pos through]
  rfl

theorem Dialect.scan_shebang (dialect : Dialect) (inside : '\n' ∉ text) (rest : List Char) :
    dialect.scan ('#' :: '!' :: (text ++ '\n' :: rest)) = (.comment, '\n' :: rest) := by
  rw [dialect.scan_hash rfl]
  change (Lexeme.comment, (text ++ '\n' :: rest).dropWhile (· != '\n')) = _
  rw [dropWhile_line inside]

theorem behindBlanks_whitespace (blank : ∀ c ∈ text, isWhitespace c = true) (rest : List Char) :
    behindBlanks false (text ++ rest) = behindBlanks false rest := by
  induction text with
  | nil => rfl
  | cons c text ih =>
    rw [List.cons_append, behindBlanks_blank (blank c (by simp))]
    exact ih fun c member => blank c (by simp [member])

theorem behindBlanks_line (inside : '\n' ∉ text) (rest : List Char) :
    behindBlanks false (';' :: (text ++ '\n' :: rest)) = behindBlanks false rest := by
  change behindBlanks true (text ++ '\n' :: rest) = _
  rw [behindBlanks_comment, dropWhile_line inside]
  rfl

end Text

theorem Serves.parses_of_takesForm {s : ReadState Store} (serves : Serves ctx conv table s.host)
    (ending : s.source.ending = .endOfInput) (takes : ctx.takesForm s text rest = true) :
    ∃ d, Parses conv .form (text ++ rest) (.ok (.form d)) rest := by
  have stands : (s.withText (text ++ rest)).Stands s.host (text ++ rest) := ⟨rfl, rfl, ending⟩
  unfold Context.takesForm at takes
  split at takes
  next v s' reads =>
    rw [Bool.and_eq_true, Bool.not_eq_true', serves.eq_apply, serves.endOfStream_eq, beq_eq_false_iff_ne,
      beq_iff_eq] at takes
    obtain ⟨d, parses, -⟩ := serves.exists_form_of_readForm stands reads takes.1
    exact ⟨d, takes.2 ▸ parses⟩
  next => cases takes

/-- A comment that begins with `#` is an item of the text, perhaps with a newline left behind it. -/
theorem Context.CompleteComment.parses {s : ReadState Store} {comment : List Char}
    (complete : ctx.CompleteComment s rest comment) (serves : Serves ctx conv table s.host)
    (ending : s.source.ending = .endOfInput) (hash : comment.head? = some '#') :
    ∃ inner, behindBlanks false inner = behindBlanks false rest ∧ inner.length ≤ rest.length + 1 ∧
      Parses conv .item (comment ++ rest) (.ok .comment) inner := by
  cases complete with
  | blanks blank =>
    obtain ⟨text, rfl⟩ := List.head?_eq_some_iff.mp hash
    cases blank '#' (by simp)
  | line => cases hash
  | @shebang text inside =>
    refine ⟨'\n' :: rest, behindBlanks_blank rfl rest, by simp, ?_⟩
    have scans := conv.dialect.scan_shebang inside rest
    exact .atom (by simpa using scans) rfl
  | block nests =>
    exact ⟨rest, rfl, by omega, .atom (conv.dialect.scan_block nests rest) rfl⟩
  | @datum text takes =>
    obtain ⟨d, form⟩ := serves.parses_of_takesForm ending takes
    exact ⟨rest, rfl, by omega, .discarded (conv.dialect.scan_hash rfl (text ++ rest)) form⟩

/-- Where an item is expected, the loop passes over a comment and comes back to the same open forms. -/
theorem Serves.comment_leads {stack : Stack Value} {frames : List Unfinished} {inner : List Char}
    (serves : Serves ctx conv table store)
    (holds : stack.Holds ctx table store store.heap.pairs.size frames) (ready : Ready text frames)
    (comment : Parses conv .item text (.ok .comment) inner) {s : ReadState Store}
    (stands : s.Stands store text) :
    ∃ s', ctx.Leads (.ok (.pending stack) s') (ctx.turn stack s) ∧ s'.Stands s'.host inner ∧
      Agrees 0 store.heap.pairs.size store s'.host := by
  obtain ⟨text', same, becomes⟩ := turn_of_ready holds ready
  obtain ⟨s₁, stands₁, turned⟩ := becomes s stands
  obtain ⟨few, answer, store', agrees, matched, reads⟩ := comment.settled store text' serves same
  let bound := max few (3 * s₁.source.remaining.length + 1)
  obtain ⟨s', stands', item⟩ := reads bound (Nat.le_max_left _ _) s₁ stands₁
  obtain rfl := stands'.host
  have leads := (Context.Recursive.leads ctx bound).2.1 stack s₁ (Nat.le_max_right _ _)
  cases matched with
  | comment =>
    rw [bind_of_ok item, ← turned] at leads
    exact ⟨s', leads, stands', agrees⟩

theorem Stack.Holds.ready_hash {stack : Stack Value} {frames : List Unfinished} {hi : Nat}
    (holds : stack.Holds ctx table store hi frames) (unsealed : stack.isSealed = false)
    (text : List Char) : Ready ('#' :: text) frames := by
  cases holds with
  | nil => trivial
  | cons _ frame _ =>
    cases frame with
    | @members bracket _ _ _ _ => exact ⟨'#', text, rfl, by cases bracket <;> decide⟩
    | sealed => cases unsealed
    | _ => trivial

theorem DenotesAll.mapM_datum {lo hi : Nat} {values : List Value} {ds : List Datum}
    (all : DenotesAll table store lo hi values ds) :
    values.mapM (fun form => (store.heap.tree? form).map Tree.datum) = some ds := by
  induction all with
  | nil => rfl
  | cons denotes _ ih =>
    simp only [List.mapM_cons, ih, denotes.tree?, Option.map_some, store.datum_resolve]
    rfl

theorem Obstacle.unplaced_failure (obstacle : Obstacle) (source source' : Source) :
    (obstacle.failure source).unplaced = (obstacle.failure source').unplaced := by
  cases obstacle <;> rfl

theorem Reading.Alike.of_denotes {lo hi lo' hi' : Nat} {values values' : List Value}
    {ds : List Datum} {obstacle : Option Obstacle} {final final' : ReadState Store}
    (left : DenotesAll table final.host lo hi values ds)
    (right : DenotesAll table final'.host lo' hi' values' ds) :
    (⟨values, obstacle.map (·.failure final.source), final⟩ : Reading Store Value).Alike
      ⟨values', obstacle.map (·.failure final'.source), final'⟩ := by
  refine ⟨⟨ds, left.mapM_datum, right.mapM_datum⟩, ?_⟩
  cases obstacle with
  | none => rfl
  | some obstacle => exact congrArg some (obstacle.unplaced_failure final.source final'.source)

section Moment

variable {moment : Moment Store Value} (sound : moment.Sound ctx conv table)

include sound

theorem Moment.Sound.alike_of_behindBlanks
    (same : behindBlanks false text = behindBlanks false rest) :
    (ctx.resume moment.stack (moment.state.withText text)).Alike
      (ctx.resume moment.stack (moment.state.withText rest)) := by
  obtain ⟨serves, ending, frames, holds⟩ := sound
  have stands (text : List Char) : (moment.state.withText text).Stands moment.state.host text :=
    ⟨rfl, rfl, ending⟩
  obtain ⟨ds, obstacle, behind, all⟩ := FinishesAll.total conv frames rest
  obtain ⟨values, final, denotes, reads⟩ :=
    all.resume serves holds (stands rest) .refl (Nat.le_refl _)
  obtain ⟨values', final', denotes', reads'⟩ :=
    (all.of_behindBlanks same).resume serves holds (stands text) .refl (Nat.le_refl _)
  rw [reads, reads']
  exact .of_denotes denotes' denotes

theorem Moment.Sound.alike_of_hash {comment : List Char}
    (complete : ctx.CompleteComment moment.state rest comment) (hash : comment.head? = some '#')
    (unsealed : moment.stack.isSealed = false) :
    (ctx.resume moment.stack (moment.state.withText (comment ++ rest))).Alike
      (ctx.resume moment.stack (moment.state.withText rest)) := by
  obtain ⟨serves, ending, frames, holds⟩ := sound
  have stands (text : List Char) : (moment.state.withText text).Stands moment.state.host text :=
    ⟨rfl, rfl, ending⟩
  obtain ⟨inner, same, shorter, item⟩ := complete.parses serves ending hash
  obtain ⟨others, rfl⟩ := List.head?_eq_some_iff.mp hash
  obtain ⟨s', leads, stands', agrees⟩ := serves.comment_leads holds
    (holds.ready_hash unsealed (others ++ rest)) item (stands _)
  obtain ⟨ds, obstacle, behind, all⟩ := FinishesAll.total conv frames rest
  obtain ⟨values, final, denotes, reads⟩ :=
    all.resume serves holds (stands rest) .refl (Nat.le_refl _)
  -- The datum of a `#;` has left new pairs behind, above all pairs of the open forms.
  have kept := (holds.agrees agrees).widen agrees.size
  have longer : inner.length ≤ ('#' :: others ++ rest).length := by
    simp only [List.length_append, List.length_cons]
    omega
  obtain ⟨values', final', denotes', reads'⟩ := (all.of_behindBlanks same).resume
    (serves.agrees agrees) kept stands' (leads.trans (.turn .refl)) longer
  rw [List.cons_append, reads, reads']
  exact .of_denotes denotes' denotes

theorem Moment.Sound.fails_of_hash (sealed : moment.stack.isSealed = true) (others : List Char) :
    let reading := ctx.resume moment.stack (moment.state.withText ('#' :: others))
    reading.forms = [] ∧
      ∃ e, reading.failure = some (.reading e) ∧ e.kind = .malformedDottedList := by
  obtain ⟨serves, ending, frames, holds⟩ := sound
  have stands : (moment.state.withText ('#' :: others)).Stands moment.state.host ('#' :: others) :=
    ⟨rfl, rfl, ending⟩
  have shape : ∃ bracket before tail outer, frames = .sealed bracket before tail :: outer := by
    generalize moment.stack = stack at holds sealed
    cases holds with
    | nil => cases sealed
    | cons _ frame _ =>
      cases frame with
      | sealed => exact ⟨_, _, _, _, rfl⟩
      | members holds => cases holds <;> cases sealed
      | _ => cases sealed
  obtain ⟨bracket, before, tail, outer, rfl⟩ := shape
  have ends : bracket.afterTail before tail ('#' :: others) =
      (.error (.fault (.afterDottedTail bracket.closer '#')), others) := by
    cases bracket <;> rfl
  obtain ⟨values, final, denotes, reads⟩ :=
    (FinishesAll.fail (.stop (.closeTail ends))).resume serves holds stands .refl (Nat.le_refl _)
  cases denotes
  rw [reads]
  exact ⟨rfl, _, rfl, rfl⟩

end Moment

/-- Whichever forms are open after whatever was read before, a complete comment changes neither the
forms that are read from there on nor the error at their end. Behind a dotted tail this goes for blanks
and line comments, and anything that begins with `#` is an error there. -/
theorem resume_behind_comment (conv : Convention) (table : TableId) (store : Store)
    (known : table.index < store.symbols.tables.size) {opened : Store}
    (opens : conv.context table store = .ok ctx opened) (source : Source)
    (ending : source.ending = .endOfInput) (turns : Nat) (comment rest : List Char) :
    let moment := ctx.moment ⟨opened, source, #[]⟩ turns
    let read := fun text => ctx.resume moment.stack (moment.state.withText text)
    (ctx.CompleteComment moment.state rest comment →
      moment.stack.isSealed = false ∨ comment.head? ≠ some '#' →
        (read (comment ++ rest)).Alike (read rest)) ∧
    (moment.stack.isSealed = true → comment.head? = some '#' →
      (read (comment ++ rest)).forms = [] ∧
        ∃ e, (read (comment ++ rest)).failure = some (.reading e) ∧
          e.kind = .malformedDottedList) := by
  intro moment read
  have serves := conv.serves_of_context known opens
  have sound : moment.Sound ctx conv table := serves.moment_sound ending turns
  constructor
  · intro complete place
    by_cases hash : comment.head? = some '#'
    · exact sound.alike_of_hash complete hash (place.resolve_right (absurd hash))
    · have same : behindBlanks false (comment ++ rest) = behindBlanks false rest := by
        cases complete with
        | blanks blank => exact behindBlanks_whitespace blank rest
        | line inside => simpa using behindBlanks_line inside rest
        | shebang => exact absurd rfl hash
        | block => exact absurd rfl hash
        | datum => exact absurd rfl hash
      exact sound.alike_of_behindBlanks same
  · intro sealed hash
    obtain ⟨others, rfl⟩ := List.head?_eq_some_iff.mp hash
    exact sound.fails_of_hash sealed (others ++ rest)

/-- A list in a datum comment inside a list. -/
theorem resume_behind_datum_comment :
    ∃ ctx opened, Convention.context ⟨false, false, none⟩ .shared .initial = .ok ctx opened ∧
      let moment := ctx.moment ⟨opened, .ofText "(a".toList 1 0 none, #[]⟩ 2
      let read := fun text => ctx.resume moment.stack (moment.state.withText text)
      (read ('#' :: ';' :: "(b)".toList ++ " c)".toList)).Alike (read " c)".toList) := by
  refine ⟨_, _, rfl, ?_⟩
  apply (resume_behind_comment ⟨false, false, none⟩ .shared .initial (by decide) rfl
    (.ofText "(a".toList 1 0 none) rfl 2 ('#' :: ';' :: "(b)".toList) " c)".toList).1
  · exact .datum (by decide +kernel)
  · exact .inl (by decide +kernel)

end SexprReader
