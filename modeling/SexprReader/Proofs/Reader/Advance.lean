import Mathlib.Data.List.Basic
import SexprReader.Reader.Recursive

namespace SexprReader

/-- The later source is the earlier one after some characters were consumed. -/
def Source.Precedes (earlier later : Source) : Prop :=
  ∃ taken, earlier.remaining = taken ++ later.remaining ∧
    later.place = earlier.place.map (·.advanceAll taken) ∧
    later.ending = earlier.ending ∧ later.name = earlier.name

namespace Source.Precedes

theorem refl (s : Source) : s.Precedes s :=
  ⟨[], rfl, by cases s.place <;> rfl, rfl, rfl⟩

theorem trans {first second third : Source} (before : first.Precedes second)
    (behind : second.Precedes third) : first.Precedes third := by
  obtain ⟨taken, split, place, ending, name⟩ := before
  obtain ⟨taken', split', place', ending', name'⟩ := behind
  refine ⟨taken ++ taken', ?_, ?_, ending'.trans ending, name'.trans name⟩
  · rw [split, split', List.append_assoc]
  · rw [place', place]
    cases first.place <;> simp [Place.advanceAll_append]

theorem pull (s : Source) : s.Precedes s.pull := by
  refine ⟨[], (Source.remaining_pull s).symm, ?_, ?_, ?_⟩
  · rw [Source.place_pull]
    cases s.place <;> rfl
  · unfold Source.pull
    split <;> rfl
  · unfold Source.pull
    split <;> rfl

theorem consume {s : Source} {taken rest : List Char} (split : s.remaining = taken ++ rest) :
    s.Precedes (s.consume taken rest) :=
  ⟨taken, split, rfl, rfl, rfl⟩

theorem length_le {earlier later : Source} (before : earlier.Precedes later) :
    later.remaining.length ≤ earlier.remaining.length := by
  obtain ⟨taken, split, -⟩ := before
  rw [split, List.length_append]
  omega

end Source.Precedes

theorem HostM.bind_of_ok {σ α β : Type} {m : HostM σ α} {f : α → HostM σ β} {s s' : σ} {a : α}
    (ok : m s = .ok a s') : (m >>= f) s = f a s' := by
  simp [bind, EStateM.bind, ok]

theorem HostM.bind_of_error {σ α β : Type} {m : HostM σ α} {s s' : σ} {e : Failure}
    (error : m s = .error e s') (f : α → HostM σ β) : (m >>= f) s = .error e s' := by
  simp [bind, EStateM.bind, error]

namespace ReadM

variable {σ V α β : Type}

def finalState : EStateM.Result Failure (ReadState σ) α → ReadState σ
  | .ok _ s => s
  | .error _ s => s

def outcome : EStateM.Result Failure (ReadState σ) α → Except Failure α
  | .ok a _ => .ok a
  | .error e _ => .error e

def Advances (m : ReadM σ α) : Prop :=
  ∀ s : ReadState σ, s.source.Precedes (finalState (m s)).source

theorem hosted_apply (call : HostM σ α) (s : ReadState σ) :
    hosted call s = match call s.host with
      | .ok a host => .ok a { s with host := host }
      | .error e host => .error e { s with host := host } := rfl

theorem peekChar_apply (s : ReadState σ) :
    peekChar s = if s.source.atUndecodable then .error .undecodable s
      else .ok s.source.remaining.head? { s with source := s.source.pull } := rfl

theorem nextChar_apply (s : ReadState σ) :
    nextChar s = if s.source.atUndecodable then .error .undecodable s
      else match s.source.remaining with
        | [] => .ok none s
        | c :: rest => .ok (some c) { s with source := s.source.consume [c] rest } := rfl

theorem takeThrough_apply {S : Type} (scan : S → Char → Option S) (start : S) (s : ReadState σ) :
    takeThrough scan start s = match splitThrough scan start [] s.source.remaining with
      | some (taken, rest) => .ok (some taken) { s with source := s.source.consume taken rest }
      | none =>
        if (s.source.consume s.source.remaining []).atUndecodable then
          .error .undecodable { s with source := s.source.consume s.source.remaining [] }
        else .ok none { s with source := s.source.consume s.source.remaining [] } := rfl

theorem bind_of_ok {m : ReadM σ α} {s s' : ReadState σ} {a : α} (ok : m s = .ok a s')
    (f : α → ReadM σ β) : (m >>= f) s = f a s' := by
  change EStateM.bind m f s = _
  simp only [EStateM.bind, ok]

theorem bind_of_error {m : ReadM σ α} {s s' : ReadState σ} {e : Failure} (error : m s = .error e s')
    (f : α → ReadM σ β) : (m >>= f) s = .error e s' := by
  change EStateM.bind m f s = _
  simp only [EStateM.bind, error]

theorem bind_congr_of_ok {m : ReadM σ α} {f g : α → ReadM σ β} {s : ReadState σ}
    (same : ∀ a s', m s = .ok a s' → f a s' = g a s') : (m >>= f) s = (m >>= g) s := by
  cases result : m s with
  | ok a s' => rw [bind_of_ok result, bind_of_ok result, same a s' result]
  | error e s' => rw [bind_of_error result, bind_of_error result]

theorem bind_congr_first {m m' : ReadM σ α} {s : ReadState σ} (same : m s = m' s)
    (f : α → ReadM σ β) : (m >>= f) s = (m' >>= f) s := by
  cases result : m s with
  | ok a s' => rw [bind_of_ok result, bind_of_ok (same.symm.trans result)]
  | error e s' => rw [bind_of_error result, bind_of_error (same.symm.trans result)]

theorem exists_of_bind_ok {m : ReadM σ α} {f : α → ReadM σ β} {s s'' : ReadState σ} {b : β}
    (ok : (m >>= f) s = .ok b s'') : ∃ a s', m s = .ok a s' ∧ f a s' = .ok b s'' := by
  cases result : m s with
  | ok a s' => exact ⟨a, s', rfl, (bind_of_ok result f).symm.trans ok⟩
  | error e s' =>
    rw [bind_of_error result] at ok
    cases ok

def Yields (m : ReadM σ α) (P : α → Prop) : Prop := ∀ ⦃s a s'⦄, m s = .ok a s' → P a

namespace Yields

variable {P : α → Prop}

theorem pure {a : α} (holds : P a) : Yields (pure a : ReadM σ α) P := by
  intro s b s' ok
  cases ok
  exact holds

theorem throw (e : Failure) : Yields (throw e : ReadM σ α) P := by
  intro s a s' ok
  cases ok

theorem bind {m : ReadM σ β} {f : β → ReadM σ α} (next : ∀ b, Yields (f b) P) :
    Yields (m >>= f) P := by
  intro s a s' ok
  obtain ⟨b, s₁, -, rest⟩ := exists_of_bind_ok ok
  exact next b rest

theorem ite {condition : Prop} [Decidable condition] {m m' : ReadM σ α} (yes : Yields m P)
    (no : Yields m' P) : Yields (if condition then m else m') P := by
  split
  · exact yes
  · exact no

end Yields

namespace Advances

theorem pure (a : α) : Advances (pure a : ReadM σ α) := fun s => .refl s.source

theorem throw (e : Failure) : Advances (throw e : ReadM σ α) := fun s => .refl s.source

theorem get : Advances (get : ReadM σ (ReadState σ)) := fun s => .refl s.source

theorem bind {m : ReadM σ α} {f : α → ReadM σ β} (first : Advances m)
    (next : ∀ a, Advances (f a)) : Advances (m >>= f) := by
  intro s
  have moved := first s
  cases result : m s with
  | ok a s' =>
    rw [bind_of_ok result]
    rw [result] at moved
    exact moved.trans (next a s')
  | error e s' =>
    rw [bind_of_error result]
    rwa [result] at moved

theorem ite {condition : Prop} [Decidable condition] {m m' : ReadM σ α} (yes : Advances m)
    (no : Advances m') : Advances (if condition then m else m') := by
  split
  · exact yes
  · exact no

theorem hosted (call : HostM σ α) : Advances (hosted call) := by
  intro s
  rw [hosted_apply]
  split <;> exact .refl s.source

theorem report (event : Event) : Advances (report event : ReadM σ Unit) :=
  fun s => .refl s.source

theorem reportHere (event : Option Int → Option Int → Event) :
    Advances (reportHere event : ReadM σ Unit) :=
  bind get fun _ => report _

theorem peekChar : Advances (peekChar : ReadM σ (Option Char)) := by
  intro s
  rw [peekChar_apply]
  split
  · exact .refl s.source
  · exact .pull s.source

theorem nextChar : Advances (nextChar : ReadM σ (Option Char)) := by
  intro s
  rw [nextChar_apply]
  split
  · exact .refl s.source
  · split
    · exact .refl s.source
    next c rest remaining => exact .consume remaining

theorem takeWhile (p : Char → Bool) : Advances (takeWhile p : ReadM σ (List Char)) := by
  refine bind (fun s => ?_) fun taken => bind peekChar fun _ => pure taken
  exact .consume List.takeWhile_append_dropWhile.symm

theorem takeThrough {S : Type} (scan : S → Char → Option S) (start : S) :
    Advances (takeThrough scan start : ReadM σ (Option (List Char))) := by
  intro s
  rw [takeThrough_apply]
  split
  next taken rest splits => exact .consume (splitThrough_append splits).symm
  next =>
    have exhausted : s.source.Precedes (s.source.consume s.source.remaining []) :=
      .consume (List.append_nil _).symm
    split <;> exact exhausted

end Advances

theorem head?_of_peekChar {s s' : ReadState σ} {next : Option Char}
    (peeked : peekChar s = .ok next s') : s'.source.remaining.head? = next := by
  rw [peekChar_apply] at peeked
  split at peeked
  · cases peeked
  · cases peeked
    simp

theorem length_lt_of_nextChar {s s' : ReadState σ} {c : Char} {next : Option Char}
    (there : s.source.remaining.head? = some c) (consumed : nextChar s = .ok next s') :
    s'.source.remaining.length < s.source.remaining.length := by
  rw [nextChar_apply] at consumed
  split at consumed
  · cases consumed
  · split at consumed
    next empty => simp [empty] at there
    next rest remaining =>
      cases consumed
      simp [remaining]

theorem Advances.length_le {m : ReadM σ α} (advances : Advances m) {s s' : ReadState σ} {a : α}
    (ok : m s = .ok a s') : s'.source.remaining.length ≤ s.source.remaining.length := by
  have moved := advances s
  rw [ok] at moved
  exact moved.length_le

end ReadM

namespace Context

open ReadM

variable {σ V α : Type}

theorem fail_bind {β : Type} (ctx : Context σ V) (fault : ReadFault) (f : α → ReadM σ β) :
    ctx.fail fault >>= f = ctx.fail fault := by
  unfold fail
  simp only [bind_assoc]
  rfl

theorem fail_apply (ctx : Context σ V) (raises : ctx.host.signalError = SignalPolicy.raise.signal)
    (fault : ReadFault) (s : ReadState σ) :
    ∃ trace, (ctx.fail fault : ReadM σ α) s =
      .error (.reading ⟨fault, s.source.line?, s.source.column?, s.source.name⟩) { s with trace } := by
  simp only [fail, raises]
  exact ⟨_, rfl⟩

theorem fail_advances (ctx : Context σ V) (fault : ReadFault) :
    Advances (ctx.fail fault : ReadM σ α) :=
  .bind .get fun _ => .bind (.report _) fun _ => .bind (.hosted _) fun _ => .throw _

theorem fail_yields (ctx : Context σ V) (fault : ReadFault) (P : α → Prop) :
    Yields (ctx.fail fault : ReadM σ α) P :=
  .bind fun _ => .bind fun _ => .bind fun _ => .throw _

theorem skipLine_advances : Advances (skipLine : ReadM σ Unit) :=
  .bind (.takeWhile _) fun _ => .pure ()

theorem skipBlanksWithin_advances (bound : List Char) :
    Advances (skipBlanksWithin bound : ReadM σ (Option Char)) := by
  induction bound with
  | nil => exact .peekChar
  | cons _ bound ih =>
    refine .bind (.takeWhile _) fun _ => .bind .peekChar fun next => ?_
    split
    · exact .bind (.reportHere _) fun _ => .bind skipLine_advances fun _ => ih
    · exact .pure _

theorem skipBlanks_advances : Advances (skipBlanks : ReadM σ (Option Char)) :=
  .bind .get fun s => skipBlanksWithin_advances s.source.remaining

theorem head?_of_skipBlanksWithin {bound : List Char} {s s' : ReadState σ} {next : Option Char}
    (skipped : skipBlanksWithin bound s = .ok next s') :
    s'.source.remaining.head? = next := by
  induction bound generalizing s with
  | nil => exact head?_of_peekChar skipped
  | cons _ bound ih =>
    obtain ⟨_, s₁, -, rest⟩ := exists_of_bind_ok skipped
    obtain ⟨peeked, s₂, looked, rest⟩ := exists_of_bind_ok rest
    split at rest
    · obtain ⟨_, s₃, -, rest⟩ := exists_of_bind_ok rest
      obtain ⟨_, s₄, -, rest⟩ := exists_of_bind_ok rest
      exact ih rest
    · cases rest
      exact head?_of_peekChar looked

theorem head?_of_skipBlanks {s s' : ReadState σ} {next : Option Char}
    (skipped : skipBlanks s = .ok next s') : s'.source.remaining.head? = next := by
  obtain ⟨_, _, got, rest⟩ := exists_of_bind_ok skipped
  cases got
  exact head?_of_skipBlanksWithin rest

theorem skipBlockComment_advances (ctx : Context σ V) : Advances ctx.skipBlockComment := by
  refine .bind (.takeThrough _ _) fun taken => ?_
  split
  · exact .pure ()
  · exact ctx.fail_advances _

theorem makeToken_advances (ctx : Context σ V) (token : String) :
    Advances (ctx.makeToken token) := by
  refine .bind (.hosted _) fun _ => .ite ?_ (.pure _)
  refine .bind (.hosted _) fun _ => ?_
  split <;> exact .pure _

theorem readToken_advances (ctx : Context σ V) (lead : Char) : Advances (ctx.readToken lead) :=
  .bind (.takeWhile _) fun _ => ctx.makeToken_advances _

theorem readRadixNumber_advances (ctx : Context σ V) (radix : Nat) :
    Advances (ctx.readRadixNumber radix) :=
  .bind (.takeWhile _) fun _ => .bind (.hosted _) fun _ => .ite (ctx.fail_advances _) (.pure _)

theorem readString_advances (ctx : Context σ V) : Advances ctx.readString := by
  refine .bind (.takeThrough _ _) fun taken => ?_
  split
  · exact .bind (.hosted _) fun _ => .hosted _
  · exact ctx.fail_advances _

theorem makeNamed_advances (ctx : Context σ V) (first : Char) (others : List Char) :
    Advances (ctx.makeNamed first others) := by
  unfold makeNamed
  split
  · exact .hosted _
  · exact .hosted _
  · exact ctx.fail_advances _

theorem readCharacter_advances (ctx : Context σ V) : Advances ctx.readCharacter := by
  refine .bind .nextChar fun next => ?_
  split
  · exact ctx.fail_advances _
  · exact .bind (.ite (.takeWhile _) (.pure _)) fun _ => ctx.makeNamed_advances _ _

theorem readSequence_advances (ctx : Context σ V) (readForm : ReadM σ V) (c : Char) :
    Advances (ctx.readSequence none readForm c) := by
  refine .bind .nextChar fun _ => ?_
  split
  · exact .bind skipLine_advances fun _ => .pure _
  · exact .bind ctx.skipBlockComment_advances fun _ => .pure _
  · exact .pure _
  · exact .pure _
  · exact .bind ctx.readCharacter_advances fun _ => .pure _
  · exact .pure _
  · exact .bind (ctx.readRadixNumber_advances _) fun _ => .pure _
  · exact ctx.fail_advances _

theorem readHash_advances (ctx : Context σ V) (readForm : ReadM σ V) :
    Advances (ctx.readHash none readForm) := by
  refine .bind (.takeWhile _) fun _ => .bind .peekChar fun next => ?_
  split
  · exact ctx.fail_advances _
  next c =>
    have sequence := ctx.readSequence_advances readForm c
    dsimp only
    split
    · exact .bind (.reportHere _) fun _ => sequence
    · exact sequence

theorem readStarted_advances (ctx : Context σ V) (readForm : ReadM σ V) (c : Char) :
    Advances (ctx.readStarted none readForm c) := by
  unfold readStarted
  split
  · exact .pure _
  · exact .bind .peekChar fun _ => .ite (.bind .nextChar fun _ => .pure _) (.pure _)
  · exact .pure _
  · exact ctx.readHash_advances readForm
  · exact .bind ctx.readString_advances fun _ => .pure _
  · exact .bind (ctx.readToken_advances c) fun _ => .pure _
  · exact ctx.fail_advances _

theorem length_lt_of_readDatum {ctx : Context σ V} {readForm : ReadM σ V} {s s' : ReadState σ}
    {start : FormStart V} (read : ctx.readDatum none readForm s = .ok start s')
    (begins : start ≠ .endOfInput) :
    s'.source.remaining.length < s.source.remaining.length := by
  obtain ⟨next, s₁, skipped, rest⟩ := exists_of_bind_ok read
  have blanks := skipBlanks_advances.length_le skipped
  split at rest
  · cases rest
    exact absurd rfl begins
  next c =>
    obtain ⟨_, s₂, consumed, rest⟩ := exists_of_bind_ok rest
    have first := length_lt_of_nextChar (head?_of_skipBlanks skipped) consumed
    obtain ⟨_, s₃, reported, rest⟩ := exists_of_bind_ok rest
    have others := (Advances.reportHere _).length_le reported
    have last := (ctx.readStarted_advances readForm c).length_le rest
    omega

theorem readDatum_advances (ctx : Context σ V) (readForm : ReadM σ V) :
    Advances (ctx.readDatum none readForm) := by
  refine .bind skipBlanks_advances fun next => ?_
  split
  · exact .pure _
  · exact .bind .nextChar fun _ => .bind (.reportHere _) fun _ => ctx.readStarted_advances readForm _

end Context

end SexprReader
