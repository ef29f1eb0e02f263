import SexprReader.Proofs.Store.Readings

namespace SexprReader

open Store

variable {conv : Convention} {table : TableId} {store : Store} {text rest : List Char}

def Obstacle.IsOwn : Obstacle → Prop
  | .fault (.custom _ _) => False
  | _ => True

def Obstacle.IsTextual : Obstacle → Prop
  | .fault (.custom _ _) => False
  | .fault _ => True
  | .value reason => ∃ text radix, parseInteger text radix = .error reason

theorem Obstacle.IsTextual.isOwn {obstacle : Obstacle} (textual : obstacle.IsTextual) :
    obstacle.IsOwn := by
  cases obstacle with
  | fault fault =>
    cases fault with
    | custom kind message => exact textual
    | _ => trivial
  | value fault => trivial

theorem Bracket.isTextual_of_effect {bracket : Bracket} {before : List Datum} {outcome : Outcome}
    {obstacle : Obstacle} (effect : bracket.effect before outcome = .stops (.error obstacle))
    (textual : ∀ obstacle, outcome = .error obstacle → obstacle.IsTextual) :
    obstacle.IsTextual := by
  obtain ⟨_, rfl, same⟩ | ⟨-, same⟩ | ⟨d, fault, -, -, same, place⟩ := Bracket.stops_cases effect
  · cases same
    exact textual _ rfl
  · cases same
    trivial
  · cases same
    obtain ⟨rfl, -⟩ | ⟨rfl, -⟩ := place
    · trivial
    · trivial

theorem Parses.isTextual {task : Task} {outcome : Outcome} {obstacle : Obstacle}
    (parses : Parses conv task text outcome rest) (error : outcome = .error obstacle) :
    obstacle.IsTextual := by
  induction parses generalizing obstacle with
  | atom scans means =>
    subst error
    cases Convention.means_of_atom means with
    | unreadable parsed => exact ⟨_, _, parsed⟩
    | invalid => trivial
    | unreadableNumber parsed => exact ⟨_, _, parsed⟩
    | fault reason =>
      cases reason with
      | custom kind message => exact Dialect.not_custom_of_scan scans
      | _ => trivial
  | @quoted _ _ _ _ outcome _ _ ih =>
    rcases outcome with _ | _ | _ | _
    · exact ih error
    all_goals
      cases error
    all_goals trivial
  | @discarded _ _ _ outcome _ _ ih =>
    rcases outcome with _ | _ | _ | _
    · exact ih error
    all_goals cases error
  | list _ _ ih => exact ih error
  | skip _ _ _ ih => exact ih error
  | stop _ _ ih => exact ih error
  | unclosed =>
    cases error
    trivial
  | close => cases error
  | cut _ _ effect ih =>
    subst error
    exact Bracket.isTextual_of_effect effect fun _ => ih
  | more _ _ _ _ _ ih => exact ih error
  | tail _ _ _ _ ends _ _ =>
    subst error
    obtain ⟨-, -, error⟩ | ⟨-, closed⟩ | ⟨c, -, -, error⟩ := Bracket.afterTail_cases ends
    · cases error
      trivial
    · cases closed
    · cases error
      trivial
  | tailCut _ _ _ _ _ stops _ ih =>
    subst error
    exact Bracket.isTextual_of_effect stops fun _ => ih

theorem ParsesAll.isTextual {ds : List Datum} {obstacle : Obstacle}
    (all : ParsesAll conv text ds (some obstacle) rest) : obstacle.IsTextual := by
  generalize same : some obstacle = obstacle? at all
  induction all with
  | stop => cases same
  | fail error =>
    cases same
    exact error.isTextual rfl
  | form _ _ ih => exact ih same

theorem Obstacle.kind_eq_iff {fault : ReadFault} (own : (Obstacle.fault fault).IsOwn) :
    fault.kind = .unexpectedEnd ↔ Outcome.meetsEnd (.error (.fault fault)) = true := by
  cases fault with
  | custom kind message => exact own.elim
  | _ => simp [ReadFault.kind, Outcome.meetsEnd]

theorem Obstacle.of_failure_eq_reading {obstacle : Option Obstacle} {source : Source} {e : ReadError}
    (failed : obstacle.map (·.failure source) = some (.reading e)) :
    obstacle = some (.fault e.fault) ∧
      e = ⟨e.fault, source.line?, source.column?, source.name⟩ := by
  match obstacle, failed with
  | some (.fault _), failed =>
    cases failed
    exact ⟨rfl, rfl⟩

theorem Source.Precedes.same_place {first second first' second' : Source} {more : List Char}
    (before : first.Precedes second) (before' : first'.Precedes second')
    (places : first'.place = first.place) (names : first'.name = first.name)
    (whole : first'.remaining = first.remaining ++ more)
    (left : second'.remaining = second.remaining ++ more) :
    second'.place = second.place ∧ second'.name = second.name := by
  obtain ⟨taken, split, place, -, name⟩ := before
  obtain ⟨taken', split', place', -, name'⟩ := before'
  have same : taken' = taken := by
    rw [whole, split, left, List.append_assoc] at split'
    exact (List.append_cancel_right split').symm
  rw [place', place, name', name, places, names, same]
  exact ⟨rfl, rfl⟩

theorem incomplete_of_unexpectedEnd {source : Source} {e : ReadError}
    (ending : source.ending = .endOfInput) (known : table.index < store.symbols.tables.size)
    (failed : (conv.reading table store source).failure = some (.reading e))
    (kind : e.kind = .unexpectedEnd) :
    ∃ more ds rest, ParsesAll conv (source.remaining ++ more) ds none rest := by
  obtain ⟨ds, obstacle, rest, all⟩ := ParsesAll.total conv source.remaining
  obtain ⟨values, final, reads, -⟩ := Convention.reading_of_parsesAll all ending known
  rw [reads] at failed
  obtain ⟨rfl, -⟩ := Obstacle.of_failure_eq_reading failed
  have late := (Obstacle.kind_eq_iff all.isTextual.isOwn).mp kind
  obtain ⟨inside, same⟩ : ∃ inside, e.fault = .endOfInput inside := by
    cases fault : e.fault with
    | endOfInput inside => exact ⟨inside, rfl⟩
    | _ => simp [fault, Outcome.meetsEnd] at late
  rw [same] at all
  obtain ⟨more, -, ds', rest', completed⟩ := all.completable
  exact ⟨more, ds', rest', completed⟩

/-- The error of a read says exactly whether more text can help. After an unexpected end some text
can follow with which there is no error. Any other error at a complete line stays as it is, with the
forms before it, whatever text follows. -/
theorem reading_unexpectedEnd_iff_incomplete (conv : Convention) (table : TableId) (store : Store)
    (known : table.index < store.symbols.tables.size) (text : List Char) (line column : Int)
    (name : Option String) (e : ReadError) :
    let read := fun store text => conv.reading table store (.ofText text line column name)
    let first := read store text
    first.failure = some (.reading e) →
      (e.kind = .unexpectedEnd → ∃ more, (read store (text ++ more)).failure = none) ∧
      (e.kind ≠ .unexpectedEnd → text.getLast? = some '\n' → ∀ more,
        let second := read first.final.host (text ++ more)
        let tree? := second.final.host.heap.tree?
        second.forms.map tree? = first.forms.map tree? ∧
          (∀ form ∈ second.forms, (tree? form).isSome) ∧
          second.failure = some (.reading e)) := by
  intro read first failed
  let source := fun text => Source.ofText text line column name
  constructor
  · intro kind
    -- What is left open can be closed.
    obtain ⟨more, ds, rest, all⟩ := incomplete_of_unexpectedEnd rfl known failed kind
    change ParsesAll conv (source (text ++ more)).remaining ds none rest at all
    obtain ⟨values, final, reads, -⟩ := Convention.reading_of_parsesAll all rfl known
    exact ⟨more, congrArg Reading.failure reads⟩
  · intro kind complete more second tree?
    obtain ⟨ds, obstacle, rest, all⟩ := ParsesAll.total conv (source text).remaining
    obtain ⟨values, final, reads, agrees, denotes, left, precedes⟩ :=
      Convention.reading_of_parsesAll all rfl known
    have reads : first = ⟨values, obstacle.map (·.failure final.source), final⟩ := reads
    rw [reads] at failed
    obtain ⟨rfl, located⟩ := Obstacle.of_failure_eq_reading failed
    have early : Outcome.meetsEnd (.error (.fault e.fault)) = false := by
      rw [← Bool.not_eq_true, ← Obstacle.kind_eq_iff all.isTextual.isOwn]
      exact kind
    have known' := agrees.known known
    -- The error is before the end, and no text behind a complete line changes what is before it.
    have longer : ParsesAll conv (source (text ++ more)).remaining ds (some (.fault e.fault))
        (rest ++ more) := all.append early complete more
    obtain ⟨values', final', reads', agrees', denotes', left', precedes'⟩ :=
      Convention.reading_of_parsesAll longer rfl known'
    have reads' : second =
        ⟨values', some ((Obstacle.fault e.fault).failure final'.source), final'⟩ := by
      rw [show second = read first.final.host (text ++ more) from rfl, reads]
      exact reads'
    have kept := denotes.agrees (agrees'.narrow (Nat.zero_le _) (Nat.le_refl _))
    obtain ⟨place, called⟩ := precedes.same_place precedes' rfl rfl rfl (by rw [left', left])
    simp only [tree?, reads, reads']
    refine ⟨denotes'.map_tree?.trans kept.map_tree?.symm, denotes'.isSome_tree?, ?_⟩
    rw [located]
    simp only [Obstacle.failure, Source.line?, Source.column?, place, called]

/-- An open list can be closed, and a closer without one cannot be mended. -/
theorem reading_open_list_incomplete :
    let read := fun store text => Convention.reading ⟨false, false, none⟩ .shared store
      (.ofText text 1 0 none)
    (∃ more, (read .initial ("(".toList ++ more)).failure = none) ∧
      ∀ more, (read (read .initial ")\n".toList).final.host (")\n".toList ++ more)).failure =
        some (.reading ⟨.unexpectedCharacter ')', some 1, some 1, none⟩) :=
  ⟨(reading_unexpectedEnd_iff_incomplete ⟨false, false, none⟩ .shared .initial (by decide)
      "(".toList 1 0 none ⟨.endOfInput .list, some 1, some 1, none⟩ (by decide +kernel)).1 rfl,
    fun more => ((reading_unexpectedEnd_iff_incomplete ⟨false, false, none⟩ .shared .initial
      (by decide) ")\n".toList 1 0 none ⟨.unexpectedCharacter ')', some 1, some 1, none⟩
      (by decide +kernel)).2 (by decide) (by decide) more).2.2⟩

end SexprReader
