import SexprReader.Proofs.Reader.Descent
import SexprReader.Reader.Reading

namespace SexprReader

open ReadM

variable {σ V : Type}

/-- The same state with another text in place of the one that remains. -/
def ReadState.withText (s : ReadState σ) (text : List Char) : ReadState σ :=
  { s with source := s.source.consume [] text }

/-- A reader between two turns. -/
structure Moment (σ V : Type) where
  stack : Stack V
  state : ReadState σ
  returned : Option V

namespace Context

def finishPart (ctx : Context σ V) (stack : Stack V) : FormStart V → ReadM σ (Progress V)
  | .whole form => ctx.complete stack (some form)
  | .endOfInput => ctx.complete stack none
  | .comment => pure (.pending stack)
  | .opening frame => pure (.pending (frame :: stack))

theorem readPart_eq (ctx : Context σ V) (hook : Option (Hook σ V)) (readForm : ReadM σ V)
    (stack : Stack V) :
    ctx.readPart hook readForm stack = ctx.readDatum hook readForm >>= ctx.finishPart stack := rfl

def next (ctx : Context σ V) (moment : Moment σ V) : Moment σ V :=
  match ctx.turn moment.stack moment.state with
  | .ok (.pending stack) s => ⟨stack, s, none⟩
  | .ok (.finished form) s => ⟨[], s, some (form.getD ctx.host.endOfStream)⟩
  | .error _ s => ⟨[], s, none⟩

/-- Form after form is read from a state on, and this is the reader after so many turns. -/
def moment (ctx : Context σ V) (start : ReadState σ) : (turns : Nat) → Moment σ V
  | 0 => ⟨[], start, none⟩
  | turns + 1 => ctx.next (ctx.moment start turns)

/-- What a reading comes to whose first form came to a result. At most one more form is read for each
character of `bound`. -/
def readBehind (ctx : Context σ V) (bound : List Char) :
    EStateM.Result Failure (ReadState σ) (Option V) → Reading σ V
  | .error failure final => ⟨[], some failure, final⟩
  | .ok form next =>
    let form := form.getD ctx.host.endOfStream
    if ctx.host.eq form ctx.host.endOfStream then ⟨[], none, next⟩
    else match bound with
      | [] => ⟨[], some .stalled, next⟩
      | _ :: bound => ctx.readFormsWithin none bound [form] next

/-- Reads on where some forms are open: the outermost of them, and then the forms behind it. -/
def resume (ctx : Context σ V) (stack : Stack V) (s : ReadState σ) : Reading σ V :=
  ctx.readBehind s.source.remaining (ctx.run none (throw .stalled) s.source.remaining stack s)

theorem run_eq (ctx : Context σ V) (readForm readForm' : ReadM σ V) (bound : List Char)
    (stack : Stack V) : ctx.run none readForm bound stack = ctx.run none readForm' bound stack := by
  induction bound generalizing stack with
  | nil =>
    unfold run
    rfl
  | cons _ bound ih =>
    unfold run
    simp only [step_eq_turn, ih]

theorem readForm_eq_run (ctx : Context σ V) (s : ReadState σ) :
    ctx.readForm none s = (ctx.run none (throw .stalled) s.source.remaining [] >>=
      fun form => pure (form.getD ctx.host.endOfStream)) s := by
  rw [ctx.run_eq _ (ctx.readNested none)]
  rfl

section

variable {ctx : Context σ V} {stack : Stack V} {s final : ReadState σ}

theorem resume_of_leads {form : Option V}
    (leads : Leads ctx (.ok (.finished form) final) (ctx.turn stack s)) :
    ctx.resume stack s = ctx.readBehind s.source.remaining (.ok form final) := by
  have leads : Leads ctx ((pure form >>= fun form => pure (.finished form) : ReadM σ _) final)
      (ctx.turn stack s) := leads
  rw [resume, run_of_leads _ leads (Nat.le_refl _)]
  rfl

theorem resume_of_leads_error {e : Failure}
    (leads : Leads ctx (.error e final) (ctx.turn stack s)) :
    ctx.resume stack s = ⟨[], some e, final⟩ := by
  have leads : Leads ctx ((throw e >>= fun form => pure (.finished form) : ReadM σ _) final)
      (ctx.turn stack s) := leads
  rw [resume, run_of_leads _ leads (Nat.le_refl _)]
  rfl

end

section

variable (ctx : Context σ V) (hook : Option (Hook σ V)) (done : List V) (s : ReadState σ)

/-- What the result of a read means for a reading: it ends, or goes on behind another form. -/
def follow (next : V → ReadState σ → Reading σ V) :
    EStateM.Result Failure (ReadState σ) V → Reading σ V
  | .error failure final => ⟨done.reverse, some failure, final⟩
  | .ok form s =>
    if ctx.host.eq form ctx.host.endOfStream then ⟨done.reverse, none, s⟩ else next form s

theorem readFormsWithin_nil : ctx.readFormsWithin hook [] done s =
    ctx.follow done (fun _ s => ⟨done.reverse, some .stalled, s⟩) (ctx.readForm hook s) := by
  unfold readFormsWithin
  cases ctx.readForm hook s <;> rfl

theorem readFormsWithin_cons (c : Char) (bound : List Char) :
    ctx.readFormsWithin hook (c :: bound) done s =
      ctx.follow done (fun form s => ctx.readFormsWithin hook bound (form :: done) s)
        (ctx.readForm hook s) := by
  conv => lhs; unfold readFormsWithin
  cases ctx.readForm hook s <;> rfl

end

/-- The state after so many forms were read one by one. An error ends the read of a form, and the next
form is read behind it. -/
def afterReads (ctx : Context σ V) (start : ReadState σ) : (reads : Nat) → ReadState σ
  | 0 => start
  | reads + 1 => finalState (ctx.readForm none (ctx.afterReads start reads))

theorem afterReads_succ (ctx : Context σ V) (start : ReadState σ) (reads : Nat) :
    ctx.afterReads start (reads + 1) =
      ctx.afterReads (finalState (ctx.readForm none start)) reads := by
  induction reads with
  | zero => rfl
  | succ reads ih => rw [afterReads, ih, afterReads]

theorem run_of_finished {ctx : Context σ V} {readForm : ReadM σ V} {bound : List Char}
    {stack : Stack V} {s s' : ReadState σ} {form : Option V}
    (turned : ctx.turn stack s = .ok (.finished form) s') :
    ctx.run none readForm bound stack s = .ok form s' := by
  unfold run
  rw [step_eq_turn, bind_of_ok turned]
  rfl

theorem run_of_error {ctx : Context σ V} {readForm : ReadM σ V} {bound : List Char}
    {stack : Stack V} {s s' : ReadState σ} {e : Failure} (turned : ctx.turn stack s = .error e s') :
    ctx.run none readForm bound stack s = .error e s' := by
  unfold run
  rw [step_eq_turn, bind_of_error turned]

theorem run_of_pending {ctx : Context σ V} {readForm : ReadM σ V} {c : Char} {bound : List Char}
    {stack stack' : Stack V} {s s' : ReadState σ}
    (turned : ctx.turn stack s = .ok (.pending stack') s') :
    ctx.run none readForm (c :: bound) stack s = ctx.run none readForm bound stack' s' := by
  conv => lhs; unfold run
  rw [step_eq_turn, bind_of_ok turned]

theorem run_enough {ctx : Context σ V} {readForm : ReadM σ V} {bound bound' : List Char}
    {stack : Stack V} {s : ReadState σ} (enough : s.source.remaining.length ≤ bound.length)
    (enough' : s.source.remaining.length ≤ bound'.length) :
    ctx.run none readForm bound stack s = ctx.run none readForm bound' stack s := by
  induction bound generalizing bound' stack s with
  | nil =>
    cases turned : ctx.turn stack s with
    | error e s' => rw [run_of_error turned, run_of_error turned]
    | ok progress s' =>
      cases progress with
      | finished form => rw [run_of_finished turned, run_of_finished turned]
      | pending stack' =>
        have shorter := length_lt_of_turn turned nofun
        simp only [List.length_nil] at enough
        omega
  | cons c bound ih =>
    cases turned : ctx.turn stack s with
    | error e s' => rw [run_of_error turned, run_of_error turned]
    | ok progress s' =>
      cases progress with
      | finished form => rw [run_of_finished turned, run_of_finished turned]
      | pending stack' =>
        have shorter := length_lt_of_turn turned nofun
        cases bound' with
        | nil =>
          simp only [List.length_nil] at enough'
          omega
        | cons c' bound' =>
          rw [List.length_cons] at enough enough'
          rw [run_of_pending turned, run_of_pending turned]
          exact ih (by omega) (by omega)

/-- Behind so many turns the reader comes to a moment where no form is open, and where the read of a
form has come to the given result. -/
def Arrives (ctx : Context σ V) (start : ReadState σ) (turns : Nat)
    (result : EStateM.Result Failure (ReadState σ) (Option V)) : Prop :=
  ∃ later, turns < later ∧ (ctx.moment start later).stack = [] ∧
    (ctx.moment start later).state = finalState result ∧
    ∀ form final, result = .ok form final →
      (ctx.moment start later).returned = some (form.getD ctx.host.endOfStream)

section

variable {ctx : Context σ V} {start : ReadState σ} {stack : Stack V} {s : ReadState σ} {turns : Nat}
  (waits : (ctx.moment start turns).stack = stack) (reached : (ctx.moment start turns).state = s)

include waits reached

theorem run_arrives_next (readForm : ReadM σ V) (bound : List Char)
    (ends : ∀ stack' s', ctx.turn stack s ≠ .ok (.pending stack') s') :
    ctx.Arrives start turns (ctx.run none readForm bound stack s) := by
  refine ⟨turns + 1, Nat.lt_succ_self _, ?_⟩
  cases turned : ctx.turn stack s with
  | error e s' =>
    rw [run_of_error turned]
    simp [moment, next, waits, reached, turned, finalState]
  | ok progress s' =>
    cases progress with
    | finished form =>
      rw [run_of_finished turned]
      simp [moment, next, waits, reached, turned, finalState]
    | pending stack' => exact absurd turned (ends stack' s')

theorem run_arrives (readForm : ReadM σ V) {bound : List Char}
    (enough : s.source.remaining.length ≤ bound.length) :
    ctx.Arrives start turns (ctx.run none readForm bound stack s) := by
  induction bound generalizing stack s turns with
  | nil =>
    apply run_arrives_next waits reached
    intro stack' s' turned
    have shorter := length_lt_of_turn turned nofun
    simp only [List.length_nil] at enough
    omega
  | cons c bound ih =>
    by_cases ends : ∀ stack' s', ctx.turn stack s ≠ .ok (.pending stack') s'
    · exact run_arrives_next waits reached readForm _ ends
    · simp only [ne_eq, not_forall, not_not] at ends
      obtain ⟨stack', s', turned⟩ := ends
      have shorter := length_lt_of_turn turned nofun
      have goes : ctx.moment start (turns + 1) = ⟨stack', s', none⟩ := by
        simp [moment, next, waits, reached, turned]
      rw [List.length_cons] at enough
      obtain ⟨later, behind, arrives⟩ := ih (congrArg Moment.stack goes) (congrArg Moment.state goes)
        (Nat.le_of_lt_succ (Nat.lt_of_lt_of_le shorter enough))
      rw [run_of_pending turned]
      exact ⟨later, Nat.lt_of_succ_lt behind, arrives⟩

end

theorem exists_moment_of_reads (ctx : Context σ V) (start : ReadState σ) (reads : Nat) :
    ∃ turns, (ctx.moment start turns).stack = [] ∧
      (ctx.moment start turns).state = ctx.afterReads start reads ∧
      ∀ earlier < reads, ∀ form s, ctx.readForm none (ctx.afterReads start earlier) = .ok form s →
        ∃ turn ≤ turns, (ctx.moment start turn).returned = some form ∧
          (ctx.moment start turn).state = s := by
  induction reads with
  | zero => exact ⟨0, rfl, rfl, nofun⟩
  | succ reads ih =>
    obtain ⟨turns, waits, reached, returns⟩ := ih
    obtain ⟨later, behind, waits', reached', returned⟩ :=
      run_arrives waits reached (throw .stalled) (Nat.le_refl _)
    refine ⟨later, waits', ?_, ?_⟩
    · rw [reached', afterReads, readForm_eq_run]
      cases ran : ctx.run none (throw .stalled) (ctx.afterReads start reads).source.remaining []
        (ctx.afterReads start reads) with
      | ok form s =>
        rw [bind_of_ok ran]
        rfl
      | error e s =>
        rw [bind_of_error ran]
        rfl
    · intro earlier less form s read
      obtain before | rfl := Nat.lt_or_eq_of_le (Nat.le_of_lt_succ less)
      · obtain ⟨turn, le, found⟩ := returns earlier before form s read
        exact ⟨turn, by omega, found⟩
      · rw [readForm_eq_run] at read
        obtain ⟨form, s, ran, rest⟩ := exists_of_bind_ok read
        cases rest
        rw [ran] at reached'
        exact ⟨later, Nat.le_refl _, returned form s ran, reached'⟩

end Context

theorem readOne_of_create {host : Host σ V} {options : Options σ V} {ctx : Context σ V} {opened : σ}
    {s : ReadState σ} (creates : Context.create host options.bracketLists s.host = .ok ctx opened) :
    readOne host options .source s = ctx.readForm options.hook { s with host := opened } := by
  have created : hosted (Context.create host options.bracketLists) s =
      .ok ctx { s with host := opened } := by
    rw [hosted_apply, creates]
  exact bind_of_ok created _

end SexprReader
