import SexprReader.Proofs.Store.Bodies
import SexprReader.Proofs.Store.Incomplete

namespace SexprReader

open ReadM Store

variable {conv : Convention} {table : TableId} {store : Store} {text more rest : List Char}
  {ds : List Datum} {obstacle : Option Obstacle}

namespace ParsesAll

theorem of_behindBlanks {text' : List Char}
    (same : behindBlanks false text' = behindBlanks false text)
    (all : ParsesAll conv text ds obstacle rest) : ParsesAll conv text' ds obstacle rest := by
  cases all with
  | stop end_ => exact .stop (end_.form_of_behindBlanks same)
  | fail error => exact .fail (error.form_of_behindBlanks same)
  | form first others => exact .form (first.form_of_behindBlanks same) others

theorem behind_comment {inner : List Char} (comment : Parses conv .item text (.ok .comment) inner)
    (all : ParsesAll conv inner ds obstacle rest) : ParsesAll conv text ds obstacle rest := by
  cases all with
  | stop end_ => exact .stop (.skip comment end_)
  | fail error => exact .fail (.skip comment error)
  | form first others => exact .form (.skip comment first) others

end ParsesAll

theorem Body.append {ds' : List Datum} (body : Body conv text ds)
    (all : ParsesAll conv more ds' obstacle rest) :
    ParsesAll conv (text ++ '\n' :: more) (ds ++ ds') obstacle rest := by
  induction body with
  | blank blank => exact all.of_behindBlanks (behindBlanks_newline blank more)
  | comment item _ ih => exact ih.behind_comment (item.extend_newline rfl more)
  | form item _ ih => exact .form (.stop (item.extend_newline rfl more) (by simp)) ih

theorem Parses.length_lt_of_error {task : Task} {outcome : Outcome} {reason : Obstacle}
    (parses : Parses conv task text outcome rest) (error : outcome = .error reason)
    (single : ∀ bracket before, task ≠ .members bracket before) : rest.length < text.length := by
  induction parses with
  | @atom _ _ lexeme _ scans means =>
    apply Dialect.length_lt_of_scan scans
    rintro rfl
    cases means
    cases error
  | quoted scans form _ =>
    exact Nat.lt_of_le_of_lt form.suffix.length_le (Dialect.length_lt_of_scan scans (by simp))
  | discarded scans form _ =>
    exact Nat.lt_of_le_of_lt form.suffix.length_le (Dialect.length_lt_of_scan scans (by simp))
  | list scans members _ =>
    exact Nat.lt_of_le_of_lt members.suffix.length_le (Dialect.length_lt_of_scan scans (by simp))
  | skip comment form _ _ => exact Nat.lt_of_le_of_lt form.suffix.length_le (comment.length_lt rfl)
  | stop _ _ item => exact item error (by simp)
  | _ => exact absurd rfl (single _ _)

theorem ParsesAll.length_lt_of_obstacle {reason : Obstacle}
    (all : ParsesAll conv text ds (some reason) rest) : rest.length < text.length := by
  generalize same : some reason = obstacle at all
  induction all with
  | stop => cases same
  | fail error => exact error.length_lt_of_error rfl (by simp)
  | form first _ ih => exact Nat.lt_trans (ih same) (first.length_lt rfl)

theorem Place.advanceAll_behind_newline (p : Place) (before : List Char) {taken : List Char}
    (some : taken ≠ []) :
    let newline := p.advanceAll (before ++ ['\n'])
    newline.advanceAll taken = (Place.start (newline.line + 1) 0).advanceAll taken := by
  intro newline
  obtain ⟨c, taken, rfl⟩ := List.exists_cons_of_ne_nil some
  have last : newline.last = .some '\n' := by
    simp [newline, Place.advanceAll_append]
  have again : newline.advance c = (Place.start (newline.line + 1) 0).advance c := by
    simp [Place.advance, Place.endsLineBefore, Place.start, last]
  rw [Place.advanceAll_cons, Place.advanceAll_cons, again]

/-- Reading all forms of a source meets its end while a `#;` waits for its datum. -/
def Convention.endsWaiting (conv : Convention) (table : TableId) (store : Store) (source : Source) :
    Bool :=
  let host := Store.host ⟨table, conv.interpretEscapes, .all, true, .raise⟩
  match host.withNilAlias conv.nilAlias store with
  | .ok host store => SexprReader.endsWaiting host ⟨conv.bracketLists, none⟩ store source
  | .error _ _ => false

theorem Dangles.reading_endsWaiting {source : Source} (dangles : Dangles conv source.remaining)
    (ending : source.ending = .endOfInput) (known : table.index < store.symbols.tables.size) :
    conv.endsWaiting table store source = true := by
  obtain ⟨nilSymbol?, s₁, hosts, nilAlias, -, known⟩ := exists_host conv known
  obtain ⟨ctx, s₂, created, serves, -⟩ := exists_context known nilAlias
  have stands : (⟨s₂, source, #[]⟩ : ReadState Store).Stands s₂ source.remaining :=
    ⟨rfl, rfl, ending⟩
  simp only [Convention.endsWaiting, hosts, SexprReader.endsWaiting, created]
  exact dangles.endsWaitingWithin serves stands (Nat.le_refl _)

/-- An obstacle in the second text is the same failure, whether the lines of the first are counted
on or its last line is known from the start. -/
theorem Obstacle.failure_behind_newline {reason : Obstacle} {first second : List Char}
    {line column : Int} {name : Option String} {final final' : Source}
    (shorter : final.remaining.length < second.length)
    (left : final'.remaining = final.remaining)
    (whole : (Source.ofText (first ++ '\n' :: second) line column name).Precedes final')
    (alone : (Source.ofText second (((Place.start line column).advanceAll (first ++ ['\n'])).line + 1)
      0 name).Precedes final) :
    reason.failure final' = reason.failure final := by
  obtain ⟨taken, split, place, -, named⟩ := alone
  obtain ⟨taken', split', place', -, named'⟩ := whole
  rw [Source.remaining_ofText] at split split'
  have some : taken ≠ [] := by
    rintro rfl
    rw [split] at shorter
    simp at shorter
  have counted : taken' = (first ++ ['\n']) ++ taken := by
    rw [left, split] at split'
    have joined : taken' ++ final.remaining = first ++ ['\n'] ++ taken ++ final.remaining := by
      simpa using split'.symm
    exact List.append_cancel_right joined
  have places : final'.place = final.place := by
    rw [place', place, counted]
    simp only [Source.ofText, Option.map_some, Place.advanceAll_append _ (first ++ ['\n'])]
    exact congrArg _ (Place.advanceAll_behind_newline _ first some)
  cases reason with
  | fault fault =>
    simp only [Obstacle.failure, Source.line?, Source.column?, places, named, named']
    rfl
  | value fault => rfl

/-- Reading two texts with a newline between them gives the forms of the first and then those of the
second, and ends as the second does when its lines are counted on from the first. This takes that
the first is read without an error, and that it does not end while a `#;` waits for its datum. -/
theorem reading_append_newline (conv : Convention) (table : TableId) (store : Store)
    (known : table.index < store.symbols.tables.size) (first second : List Char)
    (line column : Int) (name : Option String) :
    let left := conv.reading table store (.ofText first line column name)
    let newline := (Place.start line column).advanceAll (first ++ ['\n'])
    let right := conv.reading table left.final.host (.ofText second (newline.line + 1) 0 name)
    let whole := conv.reading table right.final.host
      (.ofText (first ++ '\n' :: second) line column name)
    let tree? := whole.final.host.heap.tree?
    left.failure = none →
    conv.endsWaiting table store (.ofText first line column name) = false →
      whole.forms.map tree? = (left.forms ++ right.forms).map tree? ∧
        (∀ form ∈ whole.forms, (tree? form).isSome) ∧
        whole.failure = right.failure := by
  intro left newline right whole tree? complete settled
  let source := fun text => Source.ofText text line column name
  obtain ⟨ds, obstacle, rest, all⟩ := ParsesAll.total conv (source first).remaining
  obtain ⟨values, final, reads, agrees, denotes, -⟩ := Convention.reading_of_parsesAll all rfl known
  have reads : left = ⟨values, obstacle.map (·.failure final.source), final⟩ := reads
  rw [reads] at complete
  obtain rfl : obstacle = none := Option.map_eq_none_iff.mp complete
  have body : Body conv first ds := by
    apply all.body.resolve_right
    intro dangles
    have waiting := dangles.reading_endsWaiting rfl known
    rw [settled] at waiting
    cases waiting
  have known₁ := agrees.known known
  obtain ⟨ds', obstacle, rest', all'⟩ :=
    ParsesAll.total conv (Source.ofText second (newline.line + 1) 0 name).remaining
  obtain ⟨values', final', reads', agrees', denotes', left', precedes'⟩ :=
    Convention.reading_of_parsesAll all' rfl known₁
  have reads' : right = ⟨values', obstacle.map (·.failure final'.source), final'⟩ := by
    rw [show right = conv.reading table left.final.host _ from rfl, reads]
    exact reads'
  have known₂ := agrees'.known known₁
  have joined : ParsesAll conv (source (first ++ '\n' :: second)).remaining (ds ++ ds') obstacle rest' :=
    body.append all'
  obtain ⟨values'', final'', reads'', agrees'', denotes'', left'', precedes''⟩ :=
    Convention.reading_of_parsesAll joined rfl known₂
  have reads'' : whole = ⟨values'', obstacle.map (·.failure final''.source), final''⟩ := by
    rw [show whole = conv.reading table right.final.host _ from rfl, reads']
    exact reads''
  -- What the two readings made is still there after the third.
  have kept' := denotes'.agrees (agrees''.narrow (Nat.zero_le _) (Nat.le_refl _))
  have kept := denotes.agrees ((agrees'.trans (agrees''.narrow (Nat.le_refl _) agrees'.size)).narrow
    (Nat.zero_le _) (Nat.le_refl _))
  simp only [tree?, reads, reads', reads'']
  refine ⟨?_, denotes''.isSome_tree?, ?_⟩
  · rw [denotes''.map_tree?, List.map_append, List.map_append, kept.map_tree?, kept'.map_tree?]
  · cases obstacle with
    | none => rfl
    | some reason =>
      have shorter : final'.source.remaining.length < second.length := by
        rw [left']
        exact all'.length_lt_of_obstacle
      exact congrArg some (Obstacle.failure_behind_newline shorter (left''.trans left'.symm)
        precedes'' precedes')

/-- A comment at the end of the first text ends with its line, and the error in the second is found in
the line behind it. -/
theorem reading_append_newline_comment :
    let conv : Convention := ⟨true, false, none⟩
    let read := fun store text line => conv.reading .shared store (.ofText text line 0 none)
    let left := read .initial "a ; b".toList 2
    let newline := (Place.start 2 0).advanceAll ("a ; b".toList ++ ['\n'])
    let right := read left.final.host "(c ]".toList (newline.line + 1)
    let whole := read right.final.host ("a ; b".toList ++ '\n' :: "(c ]".toList) 2
    left.failure = none ∧ whole.failure = right.failure ∧
      whole.failure = some (.reading ⟨.unexpectedCharacter ']', some 3, some 4, none⟩) :=
  ⟨by decide +kernel,
    (reading_append_newline ⟨true, false, none⟩ .shared .initial (by decide) "a ; b".toList
      "(c ]".toList 2 0 none (by decide +kernel) (by decide +kernel)).2.2,
    by decide +kernel⟩

end SexprReader
