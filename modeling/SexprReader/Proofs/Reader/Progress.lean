import SexprReader.Proofs.Reader.Moments
import SexprReader.Proofs.Reader.Spelling

/-! The loop of the reader by itself, without the bound that it is given on its turns. It comes to an end
because every turn but the last one consumes something. Where all characters are consumed, every further
read finds the end of input, and moves nothing. -/

namespace SexprReader

open ReadM

variable {σ V : Type}

namespace Context

/-- The loop comes from open forms to a result in so many turns. At the end of input the result is no
form. -/
inductive Comes (ctx : Context σ V) : (turns : Nat) → Stack V → ReadState σ →
    EStateM.Result Failure (ReadState σ) (Option V) → Prop
  | finished {stack : Stack V} {s s' : ReadState σ} {form : Option V}
      (turned : ctx.turn stack s = .ok (.finished form) s') : Comes ctx 1 stack s (.ok form s')
  | failed {stack : Stack V} {s s' : ReadState σ} {e : Failure}
      (turned : ctx.turn stack s = .error e s') : Comes ctx 1 stack s (.error e s')
  | pending {turns : Nat} {stack stack' : Stack V} {s s' : ReadState σ}
      {result : EStateM.Result Failure (ReadState σ) (Option V)}
      (turned : ctx.turn stack s = .ok (.pending stack') s')
      (next : Comes ctx turns stack' s' result) : Comes ctx (turns + 1) stack s result

def returned (ctx : Context σ V) : EStateM.Result Failure (ReadState σ) (Option V) →
    EStateM.Result Failure (ReadState σ) V
  | .ok form s => .ok (form.getD ctx.host.endOfStream) s
  | .error e s => .error e s

variable {ctx : Context σ V} {stack : Stack V} {s s' : ReadState σ}

theorem exists_comes (ctx : Context σ V) (stack : Stack V) (s : ReadState σ) :
    ∃ turns result, ctx.Comes turns stack s result ∧ turns ≤ s.source.remaining.length + 1 := by
  induction length : s.source.remaining.length using Nat.strongRecOn generalizing stack s with
  | ind n ih =>
    cases turned : ctx.turn stack s with
    | error e s' => exact ⟨1, _, .failed turned, by omega⟩
    | ok progress s' =>
      cases progress with
      | finished form => exact ⟨1, _, .finished turned, by omega⟩
      | pending stack' =>
        have shorter := length_lt_of_turn turned nofun
        obtain ⟨turns, result, comes, bounded⟩ := ih _ (length ▸ shorter) stack' s' rfl
        exact ⟨turns + 1, result, .pending turned comes, by omega⟩

namespace Comes

variable {turns : Nat} {result : EStateM.Result Failure (ReadState σ) (Option V)}

theorem run_eq (comes : ctx.Comes turns stack s result) (readForm : ReadM σ V) {bound : List Char}
    (enough : s.source.remaining.length ≤ bound.length) :
    ctx.run none readForm bound stack s = result := by
  induction comes generalizing bound with
  | finished turned => exact run_of_finished turned
  | failed turned => exact run_of_error turned
  | pending turned _ ih =>
    have shorter := length_lt_of_turn turned nofun
    cases bound with
    | nil =>
      rw [List.length_nil] at enough
      omega
    | cons c bound =>
      rw [run_of_pending turned]
      rw [List.length_cons] at enough
      exact ih (by omega)

theorem readForm_eq (comes : ctx.Comes turns [] s result) : ctx.readForm none s = ctx.returned result := by
  rw [readForm_eq_run]
  have ran := comes.run_eq (throw .stalled) (Nat.le_refl _)
  cases result with
  | ok form s' => exact bind_of_ok ran _
  | error e s' => exact bind_of_error ran _

theorem length_lt {form : V} (comes : ctx.Comes turns stack s (.ok (some form) s')) :
    s'.source.remaining.length < s.source.remaining.length := by
  generalize same : EStateM.Result.ok (some form) s' = result at comes
  induction comes with
  | finished turned =>
    cases same
    exact length_lt_of_turn turned (by simp)
  | failed => cases same
  | pending turned _ ih => exact Nat.lt_trans (ih same) (length_lt_of_turn turned nofun)

end Comes

theorem complete_some_yields (ctx : Context σ V) (stack : Stack V) (form : V) :
    Yields (ctx.complete stack (some form)) (· ≠ .finished none) := by
  induction stack generalizing form with
  | nil => exact .pure (by simp)
  | cons frame outer ih =>
    cases frame with
    | list bracket spine => exact .bind fun _ => .pure (by simp)
    | quoted mark symbol => exact .bind fun _ => .bind fun _ => ih _
    | datumComment => exact .bind fun _ => .pure (by simp)

theorem answer_closer_yields (ctx : Context σ V) (stack : Stack V) :
    Yields (ctx.answer stack .closer) (· ≠ .finished none) := by
  cases stack with
  | nil => exact .pure (by simp)
  | cons frame outer =>
    cases frame with
    | list bracket spine => exact .bind fun form => ctx.complete_some_yields outer form
    | _ => exact .pure (by simp)

theorem perform_yields (ctx : Context σ V) {lexeme : Lexeme} (other : lexeme ≠ .endOfInput) :
    Yields (ctx.perform lexeme) (· ≠ .endOfInput) := by
  cases lexeme with
  | endOfInput => exact absurd rfl other
  | comment => exact .pure (by simp)
  | opening => exact .pure (by simp)
  | constant => exact .pure (by simp)
  | fault reason => exact ctx.fail_yields _ _
  | _ => exact .bind fun _ => .pure (by simp)

end Context

theorem Dialect.scan_of_scanTurn {dialect : Dialect} {expected : Expected} {text rest : List Char}
    {lexeme : Lexeme} (found : dialect.scanTurn expected text = (.part lexeme, rest)) :
    dialect.scan text = (lexeme, rest) := by
  have part (found : (dialect.scan text).map Found.part id = (.part lexeme, rest)) :
      dialect.scan text = (lexeme, rest) := by
    simpa [Prod.ext_iff] using found
  cases expected with
  | part => exact part found
  | partOrCloser bracket =>
    simp only [scanTurn] at found
    split at found
    · cases found
    · split at found
      · cases found
      · exact part found
  | closer bracket =>
    simp only [scanTurn] at found
    split at found
    · cases found
    · split at found <;> cases found

namespace Context

variable {ctx : Context σ V} {stack : Stack V} {s s' : ReadState σ}

theorem remaining_of_turn (turned : ctx.turn stack s = .ok (.finished none) s') :
    s'.source.remaining = [] := by
  rw [turn_eq] at turned
  obtain ⟨found, s₁, took, answered⟩ := exists_of_bind_ok turned
  have scanned := Dialect.scanTurn_of_takeTurn took
  cases found with
  | fault reason => exact absurd rfl (ctx.fail_yields reason (· ≠ _) answered)
  | closer => exact absurd rfl (ctx.answer_closer_yields stack answered)
  | part lexeme =>
    obtain ⟨start, s₂, performed, finished⟩ := exists_of_bind_ok answered
    cases start with
    | whole form => exact absurd rfl (ctx.complete_some_yields _ _ finished)
    | comment => cases finished
    | opening frame => cases finished
    | endOfInput =>
      by_cases ended : lexeme = .endOfInput
      · subst ended
        cases performed
        obtain ⟨_, -, empty⟩ := Dialect.pointsAt_of_scan (Dialect.scan_of_scanTurn scanned)
        have kept := (ctx.complete_advances stack none).length_le finished
        rw [show s₁.source.remaining = [] from empty] at kept
        exact List.eq_nil_of_length_eq_zero (Nat.le_zero.mp kept)
      · exact absurd rfl (ctx.perform_yields ended performed)

theorem Comes.remaining_eq {turns : Nat} (comes : ctx.Comes turns stack s (.ok none s')) :
    s'.source.remaining = [] := by
  generalize same : EStateM.Result.ok none s' = result at comes
  induction comes with
  | finished turned =>
    cases same
    exact remaining_of_turn turned
  | failed => cases same
  | pending _ _ ih => exact ih same

end Context

structure ReadState.Exhausted (s : ReadState σ) : Prop where
  remaining : s.source.remaining = []
  ending : s.source.ending = .endOfInput

/-- Another way to read on from the same source, in a context that there is or in one made for the read. -/
inductive Further (σ V : Type) where
  | readForm (ctx : Context σ V)
  | readOne (host : Host σ V) (bracketLists : Bool)

namespace Further

def run : Further σ V → ReadM σ V
  | readForm ctx => ctx.readForm none
  | readOne host bracketLists => SexprReader.readOne host ⟨bracketLists, none⟩ .source

def endOfStream : Further σ V → V
  | readForm ctx => ctx.host.endOfStream
  | readOne host _ => host.endOfStream

def Normal : Further σ V → Prop
  | readForm _ => True
  | readOne host _ => ∀ name h, ∃ v h', host.internSymbol name h = .ok v h'

end Further

theorem Source.Precedes.place_eq {earlier later : Source} (before : earlier.Precedes later)
    (empty : earlier.remaining = []) : later.place = earlier.place := by
  obtain ⟨taken, split, place, -⟩ := before
  rw [empty] at split
  obtain ⟨rfl, -⟩ := List.append_eq_nil_iff.mp split.symm
  rw [place]
  cases earlier.place <;> rfl

theorem Context.exists_create {host : Host σ V}
    (normal : ∀ name h, ∃ v h', host.internSymbol name h = .ok v h') (bracketLists : Bool) (h : σ) :
    ∃ ctx opened, Context.create host bracketLists h = .ok ctx opened ∧ ctx.host = host := by
  obtain ⟨dot, h₁, made₁⟩ := normal "." h
  obtain ⟨quote, h₂, made₂⟩ := normal QuoteMark.quote.symbolName h₁
  obtain ⟨quasi, h₃, made₃⟩ := normal QuoteMark.quasiquote.symbolName h₂
  obtain ⟨unquote, h₄, made₄⟩ := normal QuoteMark.unquote.symbolName h₃
  obtain ⟨splicing, h₅, made₅⟩ := normal QuoteMark.unquoteSplicing.symbolName h₄
  unfold Context.create
  rw [HostM.bind_of_ok made₁, HostM.bind_of_ok made₂, HostM.bind_of_ok made₃, HostM.bind_of_ok made₄,
    HostM.bind_of_ok made₅]
  exact ⟨_, _, rfl, rfl⟩

namespace ReadState.Exhausted

variable {s : ReadState σ} (exhausted : s.Exhausted)

include exhausted

theorem readForm (ctx : Context σ V) :
    ∃ s', ctx.readForm none s = .ok ctx.host.endOfStream s' ∧ s'.Exhausted ∧
      s'.source.place = s.source.place := by
  have taken := ctx.dialect.takeTurn_becomes .part s.host []
  have ended : (ctx.turn []).Becomes s.host [] (pure (.finished none)) s.host [] := by
    rw [Context.turn_eq]
    exact taken.pure_bind (.refl _ _ _)
  obtain ⟨s', stands, turned⟩ := ended s ⟨rfl, exhausted.remaining, exhausted.ending⟩
  have comes : ctx.Comes 1 [] s (.ok none s') := .finished turned
  have moves := (ctx.turn_nearsighted []).advances s
  rw [turned] at moves
  exact ⟨s', comes.readForm_eq, ⟨stands.remaining, stands.ending⟩, moves.place_eq exhausted.remaining⟩

theorem further {read : Further σ V} (normal : read.Normal) :
    ∃ s', read.run s = .ok read.endOfStream s' ∧ s'.Exhausted ∧ s'.source.place = s.source.place := by
  cases read with
  | readForm ctx => exact exhausted.readForm ctx
  | readOne host bracketLists =>
    obtain ⟨ctx, opened, creates, rfl⟩ := Context.exists_create normal bracketLists s.host
    have exhausted' : ({ s with host := opened } : ReadState σ).Exhausted :=
      ⟨exhausted.remaining, exhausted.ending⟩
    obtain ⟨s', read, rest⟩ := exhausted'.readForm ctx
    exact ⟨s', (readOne_of_create creates).trans read, rest⟩

theorem all_further {reads : List (Further σ V)} (normal : ∀ read ∈ reads, read.Normal) :
    ∃ s', reads.mapM Further.run s = .ok (reads.map Further.endOfStream) s' ∧ s'.Exhausted ∧
      s'.source.place = s.source.place := by
  induction reads generalizing s with
  | nil => exact ⟨s, rfl, exhausted, rfl⟩
  | cons read reads ih =>
    obtain ⟨s₁, first, exhausted₁, place₁⟩ := exhausted.further (normal read (List.mem_cons_self ..))
    obtain ⟨s₂, others, exhausted₂, place₂⟩ :=
      ih exhausted₁ fun read member => normal read (List.mem_cons_of_mem _ member)
    refine ⟨s₂, ?_, exhausted₂, place₂.trans place₁⟩
    rw [List.mapM_cons, bind_of_ok first, bind_of_ok others]
    rfl

end ReadState.Exhausted

namespace Context

/-- What one read does to a source that simply ends, in so many turns and with this result of the loop. -/
structure ReadsOnward (ctx : Context σ V) (s : ReadState σ) (turns : Nat)
    (result : EStateM.Result Failure (ReadState σ) (Option V)) : Prop where
  comes : ctx.Comes turns [] s result
  bounded : turns ≤ s.source.remaining.length + 1
  returns : ctx.readForm none s = ctx.returned result
  consumes (form : V) (s' : ReadState σ) (formed : result = .ok (some form) s') :
    s'.source.remaining.length < s.source.remaining.length
  consumed (s' : ReadState σ) (ended : result = .ok none s') : s'.source.remaining = []
  stays (s' : ReadState σ) (ended : result = .ok none s') (reads : List (Further σ V))
    (normal : ∀ read ∈ reads, read.Normal) :
    ∃ final, reads.mapM Further.run s' = .ok (reads.map Further.endOfStream) final ∧
      final.source.line? = s'.source.line? ∧ final.source.column? = s'.source.column?

theorem exists_readsOnward (ctx : Context σ V) {s : ReadState σ}
    (ending : s.source.ending = .endOfInput) : ∃ turns result, ctx.ReadsOnward s turns result := by
  obtain ⟨turns, result, comes, bounded⟩ := ctx.exists_comes [] s
  have read := comes.readForm_eq
  refine ⟨turns, result, comes, bounded, read, ?_, ?_, ?_⟩
  · rintro form s' rfl
    exact comes.length_lt
  · rintro s' rfl
    exact comes.remaining_eq
  · rintro s' rfl reads normal
    have moves := ctx.readForm_nearsighted.advances s
    rw [read] at moves
    obtain ⟨-, -, -, ending', -⟩ := moves
    have exhausted : s'.Exhausted := ⟨comes.remaining_eq, ending'.trans ending⟩
    obtain ⟨final, ran, -, place⟩ := exhausted.all_further normal
    refine ⟨final, ran, ?_, ?_⟩
    · rw [Source.line?, place, Source.line?]
    · rw [Source.column?, place, Source.column?]

/-- Reads form after form, until one of them is the mark of the end of input. -/
inductive ReadsOut (ctx : Context σ V) : ReadState σ → Reading σ V → Prop
  | ends {s s' : ReadState σ} {form : V} (read : ctx.readForm none s = .ok form s')
      (last : ctx.host.eq form ctx.host.endOfStream = true) : ReadsOut ctx s ⟨[], none, s'⟩
  | fails {s s' : ReadState σ} {e : Failure} (read : ctx.readForm none s = .error e s') :
      ReadsOut ctx s ⟨[], some e, s'⟩
  | yields {s s' : ReadState σ} {form : V} {reading : Reading σ V}
      (read : ctx.readForm none s = .ok form s')
      (more : ctx.host.eq form ctx.host.endOfStream = false) (others : ReadsOut ctx s' reading) :
      ReadsOut ctx s ⟨form :: reading.forms, reading.failure, reading.final⟩

section ReadsOut

variable {ctx : Context σ V}
  (identity : ctx.host.eq ctx.host.endOfStream ctx.host.endOfStream = true)

include identity

theorem length_lt_of_readForm {s s' : ReadState σ} {form : V} (ending : s.source.ending = .endOfInput)
    (read : ctx.readForm none s = .ok form s') (more : ctx.host.eq form ctx.host.endOfStream = false) :
    s'.source.remaining.length < s.source.remaining.length ∧ s'.source.ending = .endOfInput := by
  have moves := ctx.readForm_nearsighted.advances s
  rw [read] at moves
  obtain ⟨-, -, -, ending', -⟩ := moves
  refine ⟨?_, ending'.trans ending⟩
  obtain ⟨turns, result, onward⟩ := ctx.exists_readsOnward ending
  have returned := onward.returns.symm.trans read
  cases result with
  | error e s' => cases returned
  | ok form? s' =>
    cases returned
    cases form? with
    | some form => exact onward.consumes form _ rfl
    | none =>
      rw [Option.getD_none, identity] at more
      cases more

/-- The bound on the forms cuts no reading short: each form but the mark has taken a character. -/
theorem readsOut_within {bound : List Char} (done : List V) {s : ReadState σ}
    (ending : s.source.ending = .endOfInput) (enough : s.source.remaining.length ≤ bound.length) :
    ∃ reading, ctx.ReadsOut s reading ∧ reading.forms.length ≤ s.source.remaining.length ∧
      ctx.readFormsWithin none bound done s =
        ⟨done.reverse ++ reading.forms, reading.failure, reading.final⟩ := by
  induction length : s.source.remaining.length using Nat.strongRecOn generalizing bound done s with
  | ind n ih =>
    unfold readFormsWithin
    cases read : ctx.readForm none s with
    | error e s' => exact ⟨_, .fails read, Nat.zero_le _, by simp⟩
    | ok form s' =>
      cases last : ctx.host.eq form ctx.host.endOfStream with
      | true => exact ⟨_, .ends read last, Nat.zero_le _, by simp [last]⟩
      | false =>
        obtain ⟨shorter, ending'⟩ := length_lt_of_readForm identity ending read last
        cases bound with
        | nil =>
          rw [List.length_nil] at enough
          omega
        | cons c bound =>
          rw [List.length_cons] at enough
          have enough' : s'.source.remaining.length ≤ bound.length := by omega
          obtain ⟨reading, out, few, reads⟩ := ih _ (length ▸ shorter) (form :: done) ending' enough' rfl
          refine ⟨_, .yields read last out, ?_, ?_⟩
          · rw [List.length_cons]
            omega
          · simpa [last] using reads

theorem readsOut_readForms {s : ReadState σ} (ending : s.source.ending = .endOfInput) :
    ctx.ReadsOut s (ctx.readForms none s) ∧
      (ctx.readForms none s).forms.length ≤ s.source.remaining.length := by
  obtain ⟨reading, out, few, reads⟩ := readsOut_within identity [] ending (Nat.le_refl _)
  have same : ctx.readForms none s = reading := reads
  exact same ▸ ⟨out, few⟩

end ReadsOut

end Context

end SexprReader
