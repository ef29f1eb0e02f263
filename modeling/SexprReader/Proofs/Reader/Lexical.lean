import SexprReader.Proofs.Reader.Lexing

/-! Characters are taken from a source in a few ways only. What holds of each of them holds of
everything that a turn takes before it acts: it is the same over every host, and leaves the host
alone. -/

namespace SexprReader

open ReadM Lexeme

variable {σ σ' α β : Type}

/-- Two computations over hosts of their own come to the same result, and to the same source, and
neither has called its host. -/
inductive Concurs (s : ReadState σ) (s' : ReadState σ') :
    EStateM.Result Failure (ReadState σ) α → EStateM.Result Failure (ReadState σ') α → Prop
  | ok (a : α) (source : Source) (trace trace' : Array Event) :
      Concurs s s' (.ok a ⟨s.host, source, trace⟩) (.ok a ⟨s'.host, source, trace'⟩)
  | error (e : Failure) (source : Source) (trace trace' : Array Event) :
      Concurs s s' (.error e ⟨s.host, source, trace⟩) (.error e ⟨s'.host, source, trace'⟩)

namespace ReadM

def HostFree (m : ReadM σ α) (m' : ReadM σ' α) : Prop :=
  ∀ s s', s.source = s'.source → Concurs s s' (m s) (m' s')

namespace HostFree

theorem throw (e : Failure) : HostFree (throw e : ReadM σ α) (throw e : ReadM σ' α) := by
  intro ⟨_, source, trace⟩ ⟨_, _, trace'⟩ same
  cases same
  exact .error e source trace trace'

theorem pure (a : α) : HostFree (pure a : ReadM σ α) (pure a : ReadM σ' α) := by
  intro ⟨_, source, trace⟩ ⟨_, _, trace'⟩ same
  cases same
  exact .ok a source trace trace'

theorem bind {m : ReadM σ α} {m' : ReadM σ' α} {f : α → ReadM σ β} {f' : α → ReadM σ' β}
    (first : HostFree m m') (next : ∀ a, HostFree (f a) (f' a)) :
    HostFree (m >>= f) (m' >>= f') := by
  intro s s' same
  have concurs := first s s' same
  generalize result : m s = r at concurs
  generalize result' : m' s' = r' at concurs
  cases concurs with
  | ok a source trace trace' =>
    rw [bind_of_ok result, bind_of_ok result']
    have rest := next a ⟨s.host, source, trace⟩ ⟨s'.host, source, trace'⟩ rfl
    generalize f a ⟨s.host, source, trace⟩ = r at rest
    generalize f' a ⟨s'.host, source, trace'⟩ = r' at rest
    cases rest with
    | ok b source trace trace' => exact .ok b source trace trace'
    | error e source trace trace' => exact .error e source trace trace'
  | error e source trace trace' =>
    rw [bind_of_error result, bind_of_error result']
    exact .error e source trace trace'

theorem report (event : Event) :
    HostFree (report event : ReadM σ Unit) (report event : ReadM σ' Unit) := by
  intro ⟨_, source, _⟩ ⟨_, _, _⟩ same
  cases same
  exact .ok () source _ _

theorem reportHere (event : Option Int → Option Int → Event) :
    HostFree (reportHere event : ReadM σ Unit) (reportHere event : ReadM σ' Unit) := by
  intro ⟨_, source, _⟩ ⟨_, _, _⟩ same
  cases same
  exact .ok () source _ _

theorem peekChar : HostFree (peekChar : ReadM σ (Option Char)) (peekChar : ReadM σ' _) := by
  intro ⟨_, source, trace⟩ ⟨_, _, trace'⟩ same
  cases same
  rw [peekChar_apply, peekChar_apply]
  dsimp only
  split
  · exact .error _ source trace trace'
  · exact .ok _ source.pull trace trace'

theorem nextChar : HostFree (nextChar : ReadM σ (Option Char)) (nextChar : ReadM σ' _) := by
  intro ⟨_, source, trace⟩ ⟨_, _, trace'⟩ same
  cases same
  rw [nextChar_apply, nextChar_apply]
  dsimp only
  split
  · exact .error _ source trace trace'
  · split
    · exact .ok none source trace trace'
    · exact .ok _ _ trace trace'

theorem takeWhile (p : Char → Bool) :
    HostFree (takeWhile p : ReadM σ (List Char)) (takeWhile p : ReadM σ' _) := by
  have consumes : HostFree (consumeWhile p : ReadM σ _) (consumeWhile p : ReadM σ' _) := by
    intro ⟨_, source, trace⟩ ⟨_, _, trace'⟩ same
    cases same
    exact .ok _ _ trace trace'
  exact consumes.bind fun _ => peekChar.bind fun _ => pure _

theorem takeThrough {S : Type} (scan : S → Char → Option S) (start : S) :
    HostFree (takeThrough scan start : ReadM σ (Option (List Char)))
      (takeThrough scan start : ReadM σ' _) := by
  intro ⟨_, source, trace⟩ ⟨_, _, trace'⟩ same
  cases same
  rw [takeThrough_apply, takeThrough_apply]
  dsimp only
  split
  · exact .ok _ _ trace trace'
  · split
    · exact .error _ _ trace trace'
    · exact .ok none _ trace trace'

theorem host_eq {m : ReadM σ α} (free : HostFree m m) (s : ReadState σ) :
    (finalState (m s)).host = s.host := by
  have concurs := free s s rfl
  generalize m s = r at concurs
  cases concurs <;> rfl

end HostFree

end ReadM

theorem Context.skipLine_hostFree :
    HostFree (skipLine : ReadM σ Unit) (skipLine : ReadM σ' Unit) :=
  .bind (.takeWhile _) fun _ => .pure ()

theorem Context.skipBlanks_hostFree :
    HostFree (skipBlanks : ReadM σ (Option Char)) (skipBlanks : ReadM σ' _) := by
  have within (bound : List Char) : HostFree (skipBlanksWithin bound : ReadM σ (Option Char))
      (skipBlanksWithin bound : ReadM σ' _) := by
    induction bound with
    | nil => exact .peekChar
    | cons _ bound ih =>
      refine .bind (.takeWhile _) fun _ => .bind .peekChar fun next => ?_
      split
      · exact .bind (.reportHere _) fun _ => .bind skipLine_hostFree fun _ => ih
      · exact .pure _
  intro s s' same
  have remaining : s.source.remaining = s'.source.remaining := by rw [same]
  change Concurs s s' (skipBlanksWithin s.source.remaining s)
    (skipBlanksWithin s'.source.remaining s')
  rw [remaining]
  exact within _ s s' same

namespace ReadM

/-- Two computations over hosts of their own take characters from a source in the same way, and do
nothing else. -/
inductive Lexical : {α : Type} → ReadM σ α → ReadM σ' α → Prop
  | pure {α : Type} (a : α) : Lexical (pure a) (pure a)
  | bind {α β : Type} {m : ReadM σ α} {m' : ReadM σ' α} {f : α → ReadM σ β} {f' : α → ReadM σ' β}
      (first : Lexical m m') (next : ∀ a, Lexical (f a) (f' a)) : Lexical (m >>= f) (m' >>= f')
  | reportHere (event : Option Int → Option Int → Event) :
      Lexical (reportHere event) (reportHere event)
  | peekChar : Lexical peekChar peekChar
  | nextChar : Lexical nextChar nextChar
  | takeWhile (p : Char → Bool) : Lexical (takeWhile p) (takeWhile p)
  | takeThrough {S : Type} (scan : S → Char → Option S) (start : S) :
      Lexical (takeThrough scan start) (takeThrough scan start)
  | skipBlanks : Lexical Context.skipBlanks Context.skipBlanks

namespace Lexical

theorem ite {condition : Prop} [Decidable condition] {m n : ReadM σ α} {m' n' : ReadM σ' α}
    (yes : Lexical m m') (no : Lexical n n') :
    Lexical (if condition then m else n) (if condition then m' else n') := by
  split
  · exact yes
  · exact no

theorem hostFree {m : ReadM σ α} {m' : ReadM σ' α} (lexical : Lexical m m') : HostFree m m' := by
  induction lexical with
  | pure a => exact .pure a
  | bind _ _ first next => exact .bind first next
  | reportHere event => exact .reportHere event
  | peekChar => exact .peekChar
  | nextChar => exact .nextChar
  | takeWhile p => exact .takeWhile p
  | takeThrough scan start => exact .takeThrough scan start
  | skipBlanks => exact Context.skipBlanks_hostFree

end Lexical

end ReadM

namespace Dialect

variable (dialect : Dialect)

theorem takeCharacter_lexical :
    Lexical (takeCharacter : ReadM σ Lexeme) (takeCharacter : ReadM σ' _) := by
  refine .bind .nextChar fun next => ?_
  cases next with
  | none => exact .pure _
  | some first => exact .bind (.ite (.takeWhile _) (.pure _)) fun _ => .pure _

theorem takeSequence_lexical (c : Char) :
    Lexical (dialect.takeSequence c : ReadM σ Lexeme) (dialect.takeSequence c : ReadM σ' _) := by
  refine .bind .nextChar fun _ => ?_
  cases dialect.hashStarter c with
  | shebang => exact .bind (.bind (.takeWhile _) fun _ => .pure _) fun _ => .pure _
  | blockComment =>
    refine .bind (.takeThrough _ _) fun taken => ?_
    cases taken <;> exact .pure _
  | datumComment => exact .pure _
  | vector => exact .pure _
  | character => exact takeCharacter_lexical
  | constant kind => exact .pure _
  | radix radix => exact .bind (.takeWhile _) fun _ => .pure _
  | unknown => exact .pure _

theorem takeHash_lexical :
    Lexical (dialect.takeHash : ReadM σ Lexeme) (dialect.takeHash : ReadM σ' _) := by
  refine .bind (.takeWhile _) fun _ => .bind .peekChar fun next => ?_
  cases next with
  | none => exact .pure _
  | some c =>
    have sequence : Lexical (dialect.takeSequence c : ReadM σ Lexeme)
        (dialect.takeSequence c : ReadM σ' _) := dialect.takeSequence_lexical c
    dsimp only
    split
    · exact .bind (.reportHere _) fun _ => sequence
    · exact sequence

theorem takeStarted_lexical (c : Char) :
    Lexical (dialect.takeStarted c : ReadM σ Lexeme) (dialect.takeStarted c : ReadM σ' _) := by
  unfold takeStarted
  cases Starter.ofChar dialect.bracketLists c with
  | mark mark => exact .pure _
  | comma => exact .bind .peekChar fun _ => .ite (.bind .nextChar fun _ => .pure _) (.pure _)
  | list bracket => exact .pure _
  | hash => exact dialect.takeHash_lexical
  | string =>
    refine .bind (.takeThrough _ _) fun taken => ?_
    cases taken <;> exact .pure _
  | token => exact .bind (.takeWhile _) fun _ => .pure _
  | nothing => exact .pure _

theorem take_lexical : Lexical (dialect.take : ReadM σ Lexeme) (dialect.take : ReadM σ' _) := by
  refine .bind .skipBlanks fun next => ?_
  cases next with
  | none => exact .pure _
  | some c =>
    exact .bind .nextChar fun _ => .bind (.reportHere _) fun _ => dialect.takeStarted_lexical c

theorem takeTurn_lexical (expected : Expected) :
    Lexical (dialect.takeTurn expected : ReadM σ Found) (dialect.takeTurn expected : ReadM σ' _) := by
  cases expected with
  | part => exact .bind dialect.take_lexical fun _ => .pure _
  | partOrCloser bracket =>
    refine .bind .skipBlanks fun next => ?_
    cases next with
    | none => exact .pure _
    | some c =>
      exact .ite (.bind .nextChar fun _ => .pure _) (.bind dialect.take_lexical fun _ => .pure _)
  | closer bracket =>
    refine .bind .skipBlanks fun next => ?_
    cases next with
    | none => exact .pure _
    | some c => exact .bind .nextChar fun _ => .ite (.pure _) (.pure _)

theorem takeTurn_hostFree (expected : Expected) :
    HostFree (dialect.takeTurn expected : ReadM σ Found) (dialect.takeTurn expected : ReadM σ' _) :=
  (dialect.takeTurn_lexical expected).hostFree

end Dialect

end SexprReader
