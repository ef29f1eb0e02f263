import SexprReader.Proofs.Host.Asking

namespace SexprReader

open ReadM

variable {σ σ' V α β : Type}

/-- How a read ends in which the host was told of the error: with what the host raises, or else with the
error itself. -/
def Host.Answers (host : Host σ V) (e : ReadError) (failure : Option Failure) (final : σ) : Prop :=
  ∃ state, (host.signalError e state = .ok () final ∧ failure = some (.reading e)) ∨
    ∃ raised, host.signalError e state = .error raised final ∧ failure = some raised

theorem Context.fail_recorded {host : Host σ V} {ctx : Context (Recorded σ V) V}
    (records : ctx.host = host.recorded) (fault : ReadFault) (s : ReadState (Recorded σ V)) :
    let e : ReadError := ⟨fault, s.source.line?, s.source.column?, s.source.name⟩
    ∃ failure state, (ctx.fail fault : ReadM (Recorded σ V) α) s =
      .error failure ⟨⟨state, s.host.calls.push ⟨.signalError e, none⟩⟩, s.source,
        s.trace.push (.failed e)⟩ ∧ host.Answers e (some failure) state := by
  intro e
  obtain ⟨⟨state, calls⟩, source, trace⟩ := s
  change ∃ failure state', (hosted (ctx.host.signalError e) >>= fun _ => throw (.reading e) :
    ReadM (Recorded σ V) α) ⟨⟨state, calls⟩, source, trace.push (.failed e)⟩ = _ ∧ _
  rw [records]
  cases signalled : host.signalError e state with
  | ok u state' =>
    have recorded : host.recorded.signalError e ⟨state, calls⟩ =
        .ok u ⟨state', calls.push ⟨.signalError e, none⟩⟩ := Recorded.record_of_ok (h := ⟨state, calls⟩) signalled
    rw [bind_of_ok (ReadM.hosted_of_ok recorded)]
    exact ⟨_, _, rfl, state, .inl ⟨signalled, rfl⟩⟩
  | error failure state' =>
    have recorded : host.recorded.signalError e ⟨state, calls⟩ =
        .error failure ⟨state', calls.push ⟨.signalError e, none⟩⟩ := Recorded.record_of_error (h := ⟨state, calls⟩) signalled
    rw [bind_of_error (ReadM.hosted_of_error recorded)]
    exact ⟨_, _, rfl, state, .inr ⟨failure, signalled, rfl⟩⟩

/-- Work that makes a call of a host with a record comes to what the host comes to, and puts the call
behind the others. -/
theorem Host.work_cases {host : Host σ V} {call : Call V} {result : α → Option V}
    {work : HostM (Recorded σ V) α} (makes : host.recorded.call call = result <$> work) (state : σ)
    (calls : Array (CallRecord V)) :
    (∃ a state', work ⟨state, calls⟩ = .ok a ⟨state', calls.push ⟨call, result a⟩⟩ ∧
      host.call call state = .ok (result a) state') ∨
    ∃ e state', work ⟨state, calls⟩ = .error e ⟨state', calls.push ⟨call, none⟩⟩ ∧
      host.call call state = .error e state' := by
  have made := congrFun makes ⟨state, calls⟩
  rw [host.call_recorded] at made
  cases ran : host.call call state with
  | ok r state' =>
    rw [Recorded.record_of_ok ran] at made
    cases worked : work ⟨state, calls⟩ with
    | ok b h =>
      rw [HostM.map_of_ok worked] at made
      cases made
      exact .inl ⟨b, state', rfl, rfl⟩
    | error e h =>
      rw [HostM.map_of_error worked] at made
      cases made
  | error e state' =>
    rw [Recorded.record_of_error ran] at made
    cases worked : work ⟨state, calls⟩ with
    | ok b h =>
      rw [HostM.map_of_ok worked] at made
      cases made
    | error e h =>
      rw [HostM.map_of_error worked] at made
      cases made
      exact .inr ⟨e, state', rfl, rfl⟩

theorem ReadM.log_of_hosted {host : Host σ V} {call : Call V} {result : α → Option V}
    {work : HostM (Recorded σ V) α} (makes : host.recorded.call call = result <$> work)
    (s : ReadState (Recorded σ V)) :
    ∃ answer, (finalState (hosted work s)).log = s.log ++ [⟨call, answer⟩] := by
  obtain ⟨⟨state, calls⟩, source, trace⟩ := s
  obtain ⟨a, state', worked, -⟩ | ⟨e, state', worked, -⟩ := Host.work_cases makes state calls
  · rw [hosted_of_ok worked]
    exact ⟨result a, Array.toList_push⟩
  · rw [hosted_of_error worked]
    exact ⟨none, Array.toList_push⟩

def CallRecord.IsAnswered (host : Host σ V) (failure : Option Failure) (record : CallRecord V) : Prop :=
  (∃ s s', host.call record.call s = .ok record.result s') ∨
    ∃ e s s', failure = some e ∧ host.call record.call s = .error e s'

namespace ReadM

theorem HostFree.log_eq {m : ReadM (Recorded σ V) α} (free : HostFree m m)
    (s : ReadState (Recorded σ V)) : (finalState (m s)).log = s.log := by
  rw [ReadState.log, free.host_eq s, ReadState.log]

def failure? : EStateM.Result Failure (ReadState σ) α → Option Failure
  | .ok _ _ => none
  | .error e _ => some e

/-- The calls of the computation are recorded behind those made before. They are among the given calls,
and each of them was answered. -/
def Logs (host : Host σ V) (asked : Call V → Prop) (m : ReadM (Recorded σ V) α) : Prop :=
  ∀ s, ∃ added, (finalState (m s)).log = s.log ++ added ∧
    ∀ record ∈ added, asked record.call ∧ record.IsAnswered host (failure? (m s))

namespace Logs

variable {host : Host σ V} {asked : Call V → Prop}

theorem hostFree {m : ReadM (Recorded σ V) α} (free : HostFree m m) : Logs host asked m := by
  intro s
  exact ⟨[], (free.log_eq s).trans (List.append_nil _).symm,
    fun _ member => (List.not_mem_nil member).elim⟩

theorem bind {m : ReadM (Recorded σ V) α} {f : α → ReadM (Recorded σ V) β}
    (first : Logs host asked m) (next : ∀ a, Logs host asked (f a)) :
    Logs host asked (m >>= f) := by
  intro s
  obtain ⟨added, log, holds⟩ := first s
  cases result : m s with
  | ok a s' =>
    rw [result] at log holds
    obtain ⟨added', log', holds'⟩ := next a s'
    rw [bind_of_ok result]
    refine ⟨added ++ added', ?_, fun record member => ?_⟩
    · rw [log', ← List.append_assoc, ← log]
      rfl
    · obtain before | behind := List.mem_append.mp member
      · obtain ⟨asks, returned | ⟨e, _, _, none_failed, _⟩⟩ := holds record before
        · exact ⟨asks, .inl returned⟩
        · cases none_failed
      · exact holds' record behind
  | error e s' =>
    rw [result] at log holds
    rw [bind_of_error result]
    exact ⟨added, log, holds⟩

theorem hosted {call : Call V} {result : α → Option V} {work : HostM (Recorded σ V) α}
    (makes : host.recorded.call call = result <$> work) (asks : asked call) :
    Logs host asked (hosted work) := by
  intro ⟨⟨state, calls⟩, source, trace⟩
  obtain ⟨a, state', worked, ran⟩ | ⟨e, state', worked, ran⟩ := Host.work_cases makes state calls
  · rw [ReadM.hosted_of_ok worked]
    refine ⟨_, Array.toList_push, fun record member => ?_⟩
    obtain rfl := List.mem_singleton.mp member
    exact ⟨asks, .inl ⟨state, state', ran⟩⟩
  · rw [ReadM.hosted_of_error worked]
    refine ⟨_, Array.toList_push, fun record member => ?_⟩
    obtain rfl := List.mem_singleton.mp member
    exact ⟨asks, .inr ⟨e, state, state', rfl, ran⟩⟩

theorem fail {ctx : Context (Recorded σ V) V} (records : ctx.host = host.recorded)
    {fault : ReadFault} (asks : ∀ e : ReadError, e.fault = fault → asked (.signalError e)) :
    Logs host asked (ctx.fail fault : ReadM (Recorded σ V) α) := by
  intro s
  let e : ReadError := ⟨fault, s.source.line?, s.source.column?, s.source.name⟩
  have makes : host.recorded.call (.signalError e) =
      (fun _ => none) <$> ctx.host.signalError e := by
    rw [records]
    rfl
  have signals : Logs host asked
      (ReadM.report (.failed e) >>= fun _ => ReadM.hosted (ctx.host.signalError e) >>= fun _ =>
        throw (.reading e) : ReadM (Recorded σ V) α) :=
    .bind (.hostFree (.report _)) fun _ => .bind (.hosted makes (asks e rfl)) fun _ =>
      .hostFree (.throw _)
  exact signals s

theorem of_asks {ctx : Context (Recorded σ V) V} {ctx' : Context σ' V}
    {m : ReadM (Recorded σ V) α} {m' : ReadM σ' α} (records : ctx.host = host.recorded)
    (asks : Asks asked ctx ctx' m m') : Logs host asked m := by
  induction asks with
  | done a => exact .hostFree (.pure a)
  | fail asks => exact .fail records asks
  | report event _ ih => exact .bind (.hostFree (.report event)) fun _ => ih
  | call call result _ asks _ makes _ next ih =>
    rw [records] at makes
    exact .bind (.hosted makes asks) ih

end Logs

end ReadM

theorem Context.turn_logs {host : Host σ V} {ctx : Context (Recorded σ V) V}
    (records : ctx.host = host.recorded) (stack : Stack V) (s : ReadState (Recorded σ V)) :
    ∃ added, (finalState (ctx.turn stack s)).log = s.log ++ added ∧ ∀ record ∈ added,
      (∃ found s', ctx.dialect.takeTurn stack.expected s = .ok found s' ∧
        MayCall ctx.host.nil stack found record.call) ∧
      record.IsAnswered host (failure? (ctx.turn stack s)) := by
  have free : HostFree (ctx.dialect.takeTurn stack.expected : ReadM (Recorded σ V) Found)
      (ctx.dialect.takeTurn stack.expected : ReadM (Recorded σ V) Found) :=
    ctx.dialect.takeTurn_hostFree _
  have same := free.log_eq s
  rw [turn_eq]
  cases took : ctx.dialect.takeTurn stack.expected s with
  | ok found s' =>
    rw [took] at same
    obtain ⟨added, log, holds⟩ := Logs.of_asks records (answer_asks (.refl ctx) stack found) s'
    rw [bind_of_ok took]
    exact ⟨added, log.trans (congrArg (· ++ added) same), fun record member =>
      ⟨⟨found, s', rfl, (holds record member).1⟩, (holds record member).2⟩⟩
  | error e s' =>
    rw [took] at same
    rw [bind_of_error took]
    exact ⟨[], same.trans (List.append_nil _).symm,
      fun _ member => (List.not_mem_nil member).elim⟩

theorem Host.eq_record {host : Host σ V} {call : Call V} {result : β → Option V}
    {work : HostM (Recorded σ V) β} {work' : HostM σ β} (injective : result.Injective)
    (makes : host.recorded.call call = result <$> work) (makes' : host.call call = result <$> work') :
    work = Recorded.record call result work' := by
  funext ⟨state, calls⟩
  obtain ⟨a, state', worked, ran⟩ | ⟨e, state', worked, ran⟩ := Host.work_cases makes state calls
  · rw [makes'] at ran
    cases plain : work' state with
    | ok b s =>
      rw [HostM.map_of_ok plain] at ran
      obtain ⟨same, rfl⟩ := EStateM.Result.ok.inj ran
      obtain rfl := injective same
      exact worked.trans (Recorded.record_of_ok (h := ⟨state, calls⟩) plain).symm
    | error e s =>
      rw [HostM.map_of_error plain] at ran
      cases ran
  · rw [makes'] at ran
    cases plain : work' state with
    | ok b s =>
      rw [HostM.map_of_ok plain] at ran
      cases ran
    | error e s =>
      rw [HostM.map_of_error plain] at ran
      cases ran
      exact worked.trans (Recorded.record_of_error (h := ⟨state, calls⟩) plain).symm

abbrev Recorded.Over (h : Recorded σ V) (s : σ) : Prop := h.state = s

theorem Context.create_recorded {host : Host σ V} {bracketLists : Bool} {state opened : σ}
    {ctx : Context σ V} (creates : Context.create host bracketLists state = .ok ctx opened) :
    ∃ ctx' calls, Context.create host.recorded bracketLists ⟨state, #[]⟩ = .ok ctx' ⟨opened, calls⟩ ∧
      ctx'.host = host.recorded ∧ ctx'.Alike ctx ∧
      ∀ record ∈ calls.toList, ∃ name, record.call = .internSymbol name := by
  have interns {name : String} {v : V} {s s' : σ} (calls : Array (CallRecord V))
      (interned : host.internSymbol name s = .ok v s') :
      host.recorded.internSymbol name ⟨s, calls⟩ =
        .ok v ⟨s', calls.push ⟨.internSymbol name, some v⟩⟩ :=
    Recorded.record_of_ok (h := ⟨s, calls⟩) interned
  obtain ⟨dot, s₁, made₁, creates⟩ := HostM.exists_of_bind_ok creates
  obtain ⟨quote, s₂, made₂, creates⟩ := HostM.exists_of_bind_ok creates
  obtain ⟨quasiquote, s₃, made₃, creates⟩ := HostM.exists_of_bind_ok creates
  obtain ⟨unquote, s₄, made₄, creates⟩ := HostM.exists_of_bind_ok creates
  obtain ⟨splicing, s₅, made₅, creates⟩ := HostM.exists_of_bind_ok creates
  cases creates
  unfold Context.create
  rw [HostM.bind_of_ok (interns _ made₁), HostM.bind_of_ok (interns _ made₂),
    HostM.bind_of_ok (interns _ made₃), HostM.bind_of_ok (interns _ made₄),
    HostM.bind_of_ok (interns _ made₅)]
  refine ⟨_, _, rfl, rfl, ⟨rfl, rfl, rfl, rfl, rfl, rfl, rfl, rfl, rfl⟩, fun record member => ?_⟩
  simp only [Array.toList_push, List.append_assoc, List.mem_append, List.mem_singleton,
    List.not_mem_nil, false_or] at member
  obtain rfl | rfl | rfl | rfl | rfl := member <;> exact ⟨_, rfl⟩

theorem Context.create_logs (host : Host σ V) (bracketLists : Bool) :
    Logs host (fun call => ∃ name, call = .internSymbol name)
      (hosted (Context.create host.recorded bracketLists)) := by
  have interns (name : String) : Logs host (fun call => ∃ name, call = .internSymbol name)
      (hosted (host.recorded.internSymbol name)) :=
    have makes : host.recorded.call (.internSymbol name) =
        some <$> host.recorded.internSymbol name := rfl
    .hosted makes ⟨name, rfl⟩
  unfold Context.create
  simp only [hosted_bind]
  refine .bind (interns _) fun _ => .bind (interns _) fun _ => .bind (interns _) fun _ => ?_
  refine .bind (interns _) fun _ => .bind (interns _) fun _ => .hostFree ?_
  exact .pure _

theorem ReadM.Asks.simulates {asked : Call V → Prop} {host : Host σ V} {ctx : Context (Recorded σ V) V}
    {ctx' : Context σ V} (records : ctx.host = host.recorded) (plain : ctx'.host = host)
    {m : ReadM (Recorded σ V) α} {m' : ReadM σ α} (asks : Asks asked ctx ctx' m m') :
    Simulates (fun _ => False) Recorded.Over m m' (fun a a' h s => a = a' ∧ h.Over s)
      Recorded.Over := by
  have works {β : Type} (call : Call V) (result : β → Option V) (work : HostM σ β)
      {Q : β → β → Recorded σ V → σ → Prop} (holds : ∀ b h s, h.Over s → Q b b h s) :
      Simulates (fun _ => False) Recorded.Over (hosted (Recorded.record call result work)) (hosted work)
        Q Recorded.Over := by
    refine .hosted fun h s same => ?_
    subst same
    cases ran : work h.state with
    | ok b s' =>
      rw [Recorded.record_of_ok ran]
      exact .ok (holds b _ _ rfl)
    | error e s' =>
      rw [Recorded.record_of_error ran]
      exact .error rfl
  induction asks with
  | done a => exact .pure fun _ _ same => ⟨rfl, same⟩
  | fail _ =>
    refine Context.fail_simulates _ fun e => ?_
    rw [records, plain]
    exact works (.signalError e) (fun _ => none) _ fun _ _ _ same => same
  | report event _ ih =>
    exact .bind (.hostFree (.report event) (fun _ _ _ same => same) fun _ _ same => same) fun _ _ => ih
  | @call _ call result work work' _ _ injective _ _ makes makes' next ih =>
    -- Both hosts make the same call, so their answers agree and decide alike how to go on.
    rw [records] at makes
    rw [plain] at makes'
    rw [Host.eq_record injective makes makes']
    have first := works call result work' (Q := fun b b' h s => b = b' ∧ h.Over s)
      fun _ _ _ same => ⟨rfl, same⟩
    refine first.bind fun b b' => ?_
    rintro s s' source ⟨rfl, same⟩
    exact ih b s s' source same

theorem Context.turn_simulates {host : Host σ V} {ctx : Context (Recorded σ V) V} {ctx' : Context σ V}
    (records : ctx.host = host.recorded) (plain : ctx'.host = host) (alike : ctx.Alike ctx')
    (stack : Stack V) :
    Simulates (fun _ => False) Recorded.Over (ctx.turn stack) (ctx'.turn stack)
      (fun progress progress' h s => progress = progress' ∧ h.Over s) Recorded.Over := by
  have takes : Simulates (fun _ => False) Recorded.Over
      (ctx.dialect.takeTurn stack.expected : ReadM (Recorded σ V) Found)
      (ctx.dialect.takeTurn stack.expected : ReadM σ Found)
      (fun found found' h s => found = found' ∧ h.Over s) Recorded.Over :=
    .hostFree (ctx.dialect.takeTurn_hostFree _) (fun _ _ _ same => ⟨rfl, same⟩) fun _ _ same => same
  rw [turn_eq, turn_eq, ← alike.dialect_eq]
  refine takes.bind fun found found' => ?_
  rintro s s' source ⟨rfl, same⟩
  exact (answer_asks alike stack found).simulates records plain s s' source same

end SexprReader
