import SexprReader.Proofs.Reader.Lookahead

namespace SexprReader

open ReadM

variable {σ V : Type}

/-- A reading of all forms between two turns. -/
structure Position (σ V : Type) where
  done : List V
  /-- One character for each form that may still be read behind this one. -/
  forms : List Char
  /-- One character for each turn that may still be taken for this form, but for the next one. -/
  turns : List Char
  stack : Stack V
  state : ReadState σ

def Position.start (s : ReadState σ) : Position σ V :=
  ⟨[], s.source.remaining, s.source.remaining, [], s⟩

namespace Context

variable (ctx : Context σ V)

def proceed (p : Position σ V) :
    EStateM.Result Failure (ReadState σ) (Progress V) → Reading σ V ⊕ Position σ V
  | .error failure final => .inl ⟨p.done.reverse, some failure, final⟩
  | .ok (.pending stack) s =>
    match p.turns with
    | [] => .inl ⟨p.done.reverse, some .stalled, s⟩
    | _ :: turns => .inr ⟨p.done, p.forms, turns, stack, s⟩
  | .ok (.finished form) s =>
    let form := form.getD ctx.host.endOfStream
    if ctx.host.eq form ctx.host.endOfStream then .inl ⟨p.done.reverse, none, s⟩
    else match p.forms with
      | [] => .inl ⟨p.done.reverse, some .stalled, s⟩
      | _ :: forms => .inr ⟨form :: p.done, forms, s.source.remaining, [], s⟩

def turnWith (hook : Option (Hook σ V)) (stack : Stack V) : ReadM σ (Progress V) :=
  ctx.step hook (ctx.readNested hook) stack

theorem turnWith_none : ctx.turnWith none = ctx.turn := by
  funext stack
  exact ctx.step_eq_turn _ stack

def readOn (hook : Option (Hook σ V)) (p : Position σ V) : Reading σ V :=
  match ctx.run hook (ctx.readNested hook) p.turns p.stack p.state with
  | .error failure final => ⟨p.done.reverse, some failure, final⟩
  | .ok form next =>
    let form := form.getD ctx.host.endOfStream
    if ctx.host.eq form ctx.host.endOfStream then ⟨p.done.reverse, none, next⟩
    else match p.forms with
      | [] => ⟨p.done.reverse, some .stalled, next⟩
      | _ :: forms => ctx.readFormsWithin hook forms (form :: p.done) next

theorem readFormsWithin_eq_readOn (hook : Option (Hook σ V)) (forms : List Char) (done : List V)
    (s : ReadState σ) :
    ctx.readFormsWithin hook forms done s =
      ctx.readOn hook ⟨done, forms, s.source.remaining, [], s⟩ := by
  have reads : ctx.readForm hook s =
      (ctx.run hook (ctx.readNested hook) s.source.remaining [] >>= fun form =>
        pure (form.getD ctx.host.endOfStream)) s := rfl
  unfold readFormsWithin readOn
  rw [reads]
  dsimp only
  cases ran : ctx.run hook (ctx.readNested hook) s.source.remaining [] s with
  | ok form s' =>
    rw [bind_of_ok ran]
    rfl
  | error e s' =>
    rw [bind_of_error ran]

theorem readForms_eq_readOn (hook : Option (Hook σ V)) (s : ReadState σ) :
    ctx.readForms hook s = ctx.readOn hook (.start s) :=
  ctx.readFormsWithin_eq_readOn hook _ [] s

theorem readAll_eq_readOn {host : Host σ V} {bracketLists : Bool} {state opened : σ}
    (creates : Context.create host bracketLists state = .ok ctx opened) (hook : Option (Hook σ V))
    (source : Source) :
    readAll host ⟨bracketLists, hook⟩ state source = ctx.readOn hook (.start ⟨opened, source, #[]⟩) :=
  (readAll_of_create creates hook source).trans (ctx.readForms_eq_readOn hook _)

theorem readOn_eq (hook : Option (Hook σ V)) (p : Position σ V) :
    ctx.readOn hook p =
      (ctx.proceed p (ctx.turnWith hook p.stack p.state)).elim id (ctx.readOn hook) := by
  obtain ⟨done, forms, turns, stack, s⟩ := p
  conv => lhs; unfold readOn
  unfold run
  dsimp only
  rw [← turnWith]
  cases turned : ctx.turnWith hook stack s with
  | error e s' =>
    rw [bind_of_error turned]
    rfl
  | ok progress s' =>
    rw [bind_of_ok turned]
    cases progress with
    | pending stack' => cases turns <;> rfl
    | finished form =>
      simp only [proceed]
      change (if _ then _ else _) = _
      split
      · rfl
      · cases forms with
        | nil => rfl
        | cons _ forms => exact ctx.readFormsWithin_eq_readOn hook forms _ s'

theorem readOn_forms (hook : Option (Hook σ V)) (p : Position σ V) :
    p.done.reverse <+: (ctx.readOn hook p).forms := by
  -- The induction is on the forms that may still be read, with any forms done before them.
  have reads (forms : List Char) : ∀ (done : List V) (s : ReadState σ),
      done.reverse <+: (ctx.readFormsWithin hook forms done s).forms := by
    induction forms with
    | nil =>
      intro done s
      unfold readFormsWithin
      split
      · exact List.prefix_rfl
      · split <;> exact List.prefix_rfl
    | cons _ forms ih =>
      intro done s
      unfold readFormsWithin
      split
      · exact List.prefix_rfl
      · split
        · exact List.prefix_rfl
        · refine List.IsPrefix.trans ?_ (ih _ _)
          rw [List.reverse_cons]
          exact List.prefix_append _ _
  obtain ⟨done, forms, turns, stack, s⟩ := p
  unfold readOn
  dsimp only
  split
  · exact List.prefix_rfl
  · split
    · exact List.prefix_rfl
    · split
      · exact List.prefix_rfl
      · refine List.IsPrefix.trans ?_ (reads _ _ _)
        rw [List.reverse_cons]
        exact List.prefix_append _ _

/-- Without a hook the reading comes to the second position from the first. -/
inductive Passes (start : Position σ V) : Position σ V → Prop
  | refl : Passes start start
  | turn {p p' : Position σ V} (passes : Passes start p)
      (leads : ctx.proceed p (ctx.turn p.stack p.state) = .inr p') : Passes start p'

/-- Every position on the way is reached by a hook's reader too, if no turn makes a difference. -/
theorem Passes.readOn_eq {ctx : Context σ V} {start p : Position σ V} (passes : ctx.Passes start p)
    {hook : Option (Hook σ V)}
    (same : ∀ p p', ctx.Passes start p → ctx.proceed p (ctx.turn p.stack p.state) = .inr p' →
      ctx.turnWith hook p.stack p.state = ctx.turn p.stack p.state) :
    ctx.readOn hook start = ctx.readOn hook p := by
  induction passes with
  | refl => rfl
  | turn passes leads ih =>
    rw [ih, Context.readOn_eq, same _ _ passes leads, leads]
    rfl

/-- A turn leads on to the next turn of a form, or to the first turn of the form behind it. -/
theorem proceed_eq_inr {ctx : Context σ V} {p p' : Position σ V}
    {result : EStateM.Result Failure (ReadState σ) (Progress V)}
    (leads : ctx.proceed p result = .inr p') :
    (∃ stack s c turns, result = .ok (.pending stack) s ∧ p.turns = c :: turns ∧
      p' = ⟨p.done, p.forms, turns, stack, s⟩) ∨
    (∃ form s c forms, result = .ok (.finished form) s ∧ p.forms = c :: forms ∧
      p' = ⟨form.getD ctx.host.endOfStream :: p.done, forms, s.source.remaining, [], s⟩) := by
  obtain ⟨done, forms, turns, stack, s⟩ := p
  match result with
  | .error e s' => cases leads
  | .ok (.pending stack') s' =>
    cases turns with
    | nil => cases leads
    | cons c turns =>
      cases leads
      exact .inl ⟨stack', s', c, turns, rfl, rfl, rfl⟩
  | .ok (.finished form) s' =>
    simp only [proceed] at leads
    split at leads
    · cases leads
    · cases forms with
      | nil => cases leads
      | cons c forms =>
        cases leads
        exact .inr ⟨form, s', c, forms, rfl, rfl, rfl⟩

/-- A position keeps the state in which the turn before it ended, and so does a reading that ends. -/
theorem state_of_proceed {ctx : Context σ V} {p p' : Position σ V}
    {result : EStateM.Result Failure (ReadState σ) (Progress V)}
    (leads : ctx.proceed p result = .inr p') : ∃ progress, result = .ok progress p'.state := by
  obtain ⟨stack, s, c, turns, rfl, -, rfl⟩ | ⟨form, s, c, forms, rfl, -, rfl⟩ := proceed_eq_inr leads
  · exact ⟨_, rfl⟩
  · exact ⟨_, rfl⟩

theorem proceed_eq_inl {ctx : Context σ V} {p : Position σ V} {reading : Reading σ V}
    {result : EStateM.Result Failure (ReadState σ) (Progress V)}
    (ends : ctx.proceed p result = .inl reading) :
    (∃ failure s, result = .error failure s ∧ reading = ⟨p.done.reverse, some failure, s⟩) ∨
    ∃ progress s, result = .ok progress s ∧
      (reading = ⟨p.done.reverse, none, s⟩ ∨ reading = ⟨p.done.reverse, some .stalled, s⟩) := by
  obtain ⟨done, forms, turns, stack, s⟩ := p
  match result with
  | .error failure s' =>
    cases ends
    exact .inl ⟨failure, s', rfl, rfl⟩
  | .ok (.pending stack') s' =>
    cases turns with
    | nil =>
      cases ends
      exact .inr ⟨_, s', rfl, .inr rfl⟩
    | cons _ turns => cases ends
  | .ok (.finished form) s' =>
    simp only [proceed] at ends
    split at ends
    · cases ends
      exact .inr ⟨_, s', rfl, .inl rfl⟩
    · cases forms with
      | nil =>
        cases ends
        exact .inr ⟨_, s', rfl, .inr rfl⟩
      | cons _ forms => cases ends

theorem final_of_proceed {ctx : Context σ V} {p : Position σ V} {reading : Reading σ V}
    {result : EStateM.Result Failure (ReadState σ) (Progress V)}
    (ends : ctx.proceed p result = .inl reading) : reading.final = finalState result := by
  obtain ⟨failure, s, rfl, rfl⟩ | ⟨progress, s, rfl, rfl | rfl⟩ := proceed_eq_inl ends
  · rfl
  · rfl
  · rfl

theorem error_of_proceed {ctx : Context σ V} {p : Position σ V} {reading : Reading σ V}
    {result : EStateM.Result Failure (ReadState σ) (Progress V)} {failure : Failure}
    (ends : ctx.proceed p result = .inl reading) (failed : reading.failure = some failure)
    (other : failure ≠ .stalled) : ∃ s, result = .error failure s := by
  obtain ⟨failure', s, rfl, rfl⟩ | ⟨progress, s, rfl, rfl | rfl⟩ := proceed_eq_inl ends
  · exact ⟨s, congrArg (EStateM.Result.error · s) (Option.some.inj failed)⟩
  · cases failed
  · exact absurd (Option.some.inj failed).symm other

theorem Passes.precedes {ctx : Context σ V} {start p : Position σ V} (passes : ctx.Passes start p) :
    start.state.source.Precedes p.state.source := by
  induction passes with
  | refl => exact .refl _
  | @turn p p' passes leads ih =>
    have moves := (ctx.turn_nearsighted p.stack).advances p.state
    obtain ⟨progress, turned⟩ := state_of_proceed leads
    rw [turned] at moves
    exact ih.trans moves

theorem Passes.trans {ctx : Context σ V} {start p p' : Position σ V} (first : ctx.Passes start p)
    (second : ctx.Passes p p') : ctx.Passes start p' := by
  induction second with
  | refl => exact first
  | turn _ leads ih => exact .turn ih leads

theorem Passes.eq_or_next {ctx : Context σ V} {start p : Position σ V} (passes : ctx.Passes start p) :
    p = start ∨ ∃ next, ctx.proceed start (ctx.turn start.stack start.state) = .inr next ∧
      ctx.Passes next p := by
  induction passes with
  | refl => exact .inl rfl
  | turn _ leads ih =>
    rcases ih with rfl | ⟨next, first, onward⟩
    · exact .inr ⟨_, leads, .refl⟩
    · exact .inr ⟨next, first, .turn onward leads⟩

theorem proceed_decreases {ctx : Context σ V} {p p' : Position σ V}
    {result : EStateM.Result Failure (ReadState σ) (Progress V)}
    (leads : ctx.proceed p result = .inr p') :
    Prod.Lex (· < ·) (· < ·) (p'.forms.length, p'.turns.length) (p.forms.length, p.turns.length) := by
  obtain ⟨stack, s, c, turns, -, left, rfl⟩ | ⟨form, s, c, forms, -, left, rfl⟩ := proceed_eq_inr leads
  · rw [left]
    exact .right _ (Nat.lt_succ_self _)
  · rw [left]
    exact .left _ _ (Nat.lt_succ_self _)

theorem exists_last (ctx : Context σ V) (p : Position σ V) :
    ∃ last, ctx.Passes p last ∧
      ctx.proceed last (ctx.turn last.stack last.state) = .inl (ctx.readOn none p) := by
  have reads := ctx.readOn_eq none p
  rw [turnWith_none] at reads
  cases leads : ctx.proceed p (ctx.turn p.stack p.state) with
  | inl reading =>
    rw [leads] at reads
    exact ⟨p, .refl, leads.trans (congrArg Sum.inl reads.symm)⟩
  | inr p' =>
    obtain ⟨last, passes, ends⟩ := exists_last ctx p'
    rw [leads] at reads
    exact ⟨last, .trans (.turn .refl leads) passes, ends.trans (congrArg Sum.inl reads.symm)⟩
termination_by (p.forms.length, p.turns.length)
decreasing_by exact proceed_decreases leads

theorem Passes.readOn_of_ends {ctx : Context σ V} {start p : Position σ V} {reading : Reading σ V}
    (passes : ctx.Passes start p) (ends : ctx.proceed p (ctx.turn p.stack p.state) = .inl reading) :
    ctx.readOn none start = reading := by
  have same : ctx.turnWith none = ctx.turn := ctx.turnWith_none
  rw [passes.readOn_eq fun _ _ _ _ => by rw [same], Context.readOn_eq, same, ends]
  rfl

end Context

/-! Two readings of the same source, each over a host of its own, come to positions beside each other
if their turns keep in step. -/

variable {σ' : Type} {P : σ → σ' → Prop}

structure Position.Beside (P : σ → σ' → Prop) (p : Position σ V) (p' : Position σ' V) : Prop where
  done : p.done = p'.done
  forms : p.forms = p'.forms
  turns : p.turns = p'.turns
  stack : p.stack = p'.stack
  source : p.state.source = p'.state.source
  hosts : P p.state.host p'.state.host

structure Reading.Beside (P : σ → σ' → Prop) (reading : Reading σ V) (reading' : Reading σ' V) :
    Prop where
  forms : reading.forms = reading'.forms
  failure : reading.failure = reading'.failure
  source : reading.final.source = reading'.final.source
  hosts : P reading.final.host reading'.final.host

namespace Context

variable {ctx : Context σ V} {ctx' : Context σ' V} {p start : Position σ V} {p' start' : Position σ' V}
  (alike : ctx.Alike ctx')

abbrev TurnsInStep (P : σ → σ' → Prop) (ctx : Context σ V) (ctx' : Context σ' V) : Prop :=
  ∀ stack, Simulates (fun _ => False) P (ctx.turn stack) (ctx'.turn stack)
    (fun progress progress' h h' => progress = progress' ∧ P h h') P

include alike

theorem proceed_beside (beside : p.Beside P p') (turns : TurnsInStep P ctx ctx') :
    Sum.LiftRel (Reading.Beside P) (Position.Beside P) (ctx.proceed p (ctx.turn p.stack p.state))
      (ctx'.proceed p' (ctx'.turn p'.stack p'.state)) := by
  have in_step := turns p.stack p.state p'.state beside.source beside.hosts
  obtain ⟨done, forms, turns, stack, s⟩ := p
  obtain ⟨done', forms', turns', stack', s'⟩ := p'
  obtain ⟨rfl, rfl, rfl, rfl, -, -⟩ := beside
  generalize ctx.turn stack s = result at in_step
  generalize ctx'.turn stack s' = result' at in_step
  cases in_step with
  | excused excused => exact excused.elim
  | error holds => exact .inl ⟨rfl, rfl, holds.1, holds.2⟩
  | @ok progress _ t t' holds =>
    obtain ⟨source, rfl, hosts⟩ := holds
    cases progress with
    | pending stack =>
      cases turns with
      | nil => exact .inl ⟨rfl, rfl, source, hosts⟩
      | cons _ turns => exact .inr ⟨rfl, rfl, rfl, rfl, source, hosts⟩
    | finished form =>
      simp only [proceed, alike.eq, alike.endOfStream]
      split
      · exact .inl ⟨rfl, rfl, source, hosts⟩
      · cases forms with
        | nil => exact .inl ⟨rfl, rfl, source, hosts⟩
        | cons _ forms => exact .inr ⟨rfl, rfl, by rw [source], rfl, source, hosts⟩

theorem Passes.beside (passes : ctx.Passes start p) (begins : start.Beside P start')
    (turns : TurnsInStep P ctx ctx') : ∃ p', ctx'.Passes start' p' ∧ p.Beside P p' := by
  induction passes with
  | refl => exact ⟨start', .refl, begins⟩
  | turn passes leads ih =>
    obtain ⟨q, passes', beside⟩ := ih
    have next := proceed_beside alike beside turns
    rw [leads] at next
    generalize same : ctx'.proceed q (ctx'.turn q.stack q.state) = after at next
    cases next with
    | inr beside' => exact ⟨_, .turn passes' same, beside'⟩

theorem readOn_beside (begins : start.Beside P start') (turns : TurnsInStep P ctx ctx') :
    (ctx.readOn none start).Beside P (ctx'.readOn none start') := by
  obtain ⟨last, passes, ends⟩ := ctx.exists_last start
  obtain ⟨last', passes', beside⟩ := passes.beside alike begins turns
  have next := proceed_beside alike beside turns
  rw [ends] at next
  generalize same : ctx'.proceed last' (ctx'.turn last'.stack last'.state) = after at next
  cases next with
  | inl beside => rwa [passes'.readOn_of_ends same]

end Context

end SexprReader
