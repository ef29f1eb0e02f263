import SexprReader.Host.Handle
import SexprReader.Proofs.Host.Recording
import SexprReader.Proofs.Reader.Positions

/-! Hosts that fail. A host that fails on one of its operations is called in the same way as the host
itself up to the first call of that operation, and never again. A host that is told of an error is not
called again either, whatever it does about it. -/

namespace SexprReader

open ReadM

variable {σ V α β : Type}

/-- What a host raises that fails on the operation. -/
def Operation.failure (op : Operation) : Failure := .host ("host " ++ op.name) none

def CallLog.Spares (log : CallLog V) (op : Operation) : Prop :=
  ∀ record ∈ log, record.call.operation ≠ op

theorem CallLog.Spares.nil {op : Operation} : CallLog.Spares ([] : CallLog V) op :=
  List.forall_mem_nil _

theorem CallLog.Spares.append {log log' : CallLog V} {op : Operation} (spares : log.Spares op)
    (spares' : log'.Spares op) : CallLog.Spares (log ++ log') op :=
  List.forall_mem_append.mpr ⟨spares, spares'⟩

/-- Every call of the host which fails on an operation is the same call of the host, unless it is of
that operation. -/
theorem Host.call_failingOn (host : Host σ V) (op : Operation) (call : Call V) :
    (host.failingOn op).call call = brokenOr op call.operation (host.call call) := by
  have mapped {β : Type} (f : β → Option V) (operation : Operation) (work : HostM σ β) :
      f <$> brokenOr op operation work = brokenOr op operation (f <$> work) := by
    unfold brokenOr
    split <;> rfl
  cases call <;> exact mapped _ _ _

/-- Two results come of the same computation, on a host and on the same host with an operation that
fails, behind the calls of the log. Either the operation was not called and the results are the same, or
the first call of it has ended the other computation. -/
inductive BreaksAt (op : Operation) (log : CallLog V) :
    EStateM.Result Failure (ReadState (Recorded σ V)) α →
    EStateM.Result Failure (ReadState (Recorded σ V)) α → Prop
  | spared {result : EStateM.Result Failure (ReadState (Recorded σ V)) α} {added : CallLog V}
      (grows : (finalState result).log = log ++ added) (spares : added.Spares op) :
      BreaksAt op log result result
  | broken {result : EStateM.Result Failure (ReadState (Recorded σ V)) α} {before after : CallLog V}
      {record : CallRecord V} {s : ReadState (Recorded σ V)}
      (grows : (finalState result).log = log ++ (before ++ record :: after))
      (spares : before.Spares op) (hits : record.call.operation = op)
      (ends : s.log = log ++ (before ++ [⟨record.call, none⟩])) :
      BreaksAt op log result (.error op.failure s)

namespace BreaksAt

variable {op : Operation} {log : CallLog V}
  {result result' : EStateM.Result Failure (ReadState (Recorded σ V)) α}

theorem grows (breaks : BreaksAt op log result result') : log <+: (finalState result).log := by
  cases breaks with
  | spared grows => exact ⟨_, grows.symm⟩
  | broken grows => exact ⟨_, grows.symm⟩

theorem behind {log' added : CallLog V} (between : log' = log ++ added) (spares : added.Spares op)
    (breaks : BreaksAt op log' result result') : BreaksAt op log result result' := by
  subst between
  cases breaks with
  | spared grows spares' =>
    rw [List.append_assoc] at grows
    exact .spared grows (spares.append spares')
  | broken grows spares' hits ends =>
    rw [List.append_assoc, ← List.append_assoc added] at grows ends
    exact .broken grows (spares.append spares') hits ends

end BreaksAt

namespace ReadM

def Breaks (op : Operation) (m m' : ReadM (Recorded σ V) α) : Prop :=
  ∀ s, BreaksAt op s.log (m s) (m' s)

namespace Breaks

variable {op : Operation} {host : Host σ V}

theorem same {m : ReadM (Recorded σ V) α} (free : HostFree m m) : Breaks op m m :=
  fun s => .spared ((free.log_eq s).trans (List.append_nil _).symm) .nil

theorem bind {m m' : ReadM (Recorded σ V) α} {f f' : α → ReadM (Recorded σ V) β}
    (first : Breaks op m m') (next : ∀ a, Breaks op (f a) (f' a)) :
    Breaks op (m >>= f) (m' >>= f') := by
  intro s
  have breaks := first s
  change BreaksAt op s.log (EStateM.bind m f s) (EStateM.bind m' f' s)
  unfold EStateM.bind
  generalize m s = result at breaks
  generalize m' s = result' at breaks
  cases breaks with
  | spared grows spares =>
    cases result with
    | ok a t => exact .behind grows spares (next a t)
    | error e t => exact .spared grows spares
  | broken grows spares hits ends =>
    cases result with
    | ok a t =>
      obtain ⟨more, log⟩ := (next a t).grows
      rw [show t.log = _ from grows, List.append_assoc, List.append_assoc, List.cons_append] at log
      exact .broken log.symm spares hits ends
    | error e t => exact .broken grows spares hits ends

theorem hosted {call : Call V} {result : α → Option V} {work work' : HostM (Recorded σ V) α}
    (injective : result.Injective) (makes : host.recorded.call call = result <$> work)
    (makes' : (host.failingOn op).recorded.call call = result <$> work') :
    Breaks op (hosted work) (hosted work') := by
  intro s
  obtain ⟨answer, log⟩ := log_of_hosted makes s
  by_cases hits : call.operation = op
  · obtain ⟨⟨state, calls⟩, source, trace⟩ := s
    have ends : ReadM.hosted work' ⟨⟨state, calls⟩, source, trace⟩ =
        .error op.failure ⟨⟨state, calls.push ⟨call, none⟩⟩, source, trace⟩ := by
      have ran := Host.work_cases makes' state calls
      rw [host.call_failingOn, Host.brokenOr, if_pos hits] at ran
      obtain ⟨_, _, _, returned⟩ | ⟨e, state', worked, raised⟩ := ran
      · cases returned
      · cases raised
        rw [hosted_of_error worked, Operation.failure, hits]
    have first : _ = (_ : CallLog V) ++ ([] ++ (⟨call, answer⟩ : CallRecord V) :: []) := log
    rw [ends]
    exact .broken first .nil hits Array.toList_push
  · have unbroken : (host.failingOn op).call call = host.call call := by
      rw [host.call_failingOn, Host.brokenOr, if_neg hits]
    have same : work = work' := by
      apply HostM.map_injective injective
      rw [← makes, ← makes', host.call_recorded, Host.call_recorded, unbroken]
    rw [← same]
    exact .spared log (List.forall_mem_singleton.mpr hits)

theorem fail {ctx ctx' : Context (Recorded σ V) V} (records : ctx.host = host.recorded)
    (breaks : ctx'.host = (host.failingOn op).recorded) (fault : ReadFault) :
    Breaks op (ctx.fail fault : ReadM (Recorded σ V) α) (ctx'.fail fault) := by
  intro s
  let e : ReadError := ⟨fault, s.source.line?, s.source.column?, s.source.name⟩
  have makes : host.recorded.call (.signalError e) =
      (fun _ => none) <$> ctx.host.signalError e := by
    rw [records]
    rfl
  have makes' : (host.failingOn op).recorded.call (.signalError e) =
      (fun _ => none) <$> ctx'.host.signalError e := by
    rw [breaks]
    rfl
  have signals : Breaks op
      (report (.failed e) >>= fun _ => ReadM.hosted (ctx.host.signalError e) >>= fun _ =>
        throw (.reading e) : ReadM (Recorded σ V) α)
      (report (.failed e) >>= fun _ => ReadM.hosted (ctx'.host.signalError e) >>= fun _ =>
        throw (.reading e)) :=
    .bind (.same (.report _)) fun _ => .bind (.hosted (fun _ _ _ => rfl) makes makes') fun _ =>
      .same (.throw _)
  exact signals s

theorem of_asks {asked : Call V → Prop} {ctx ctx' : Context (Recorded σ V) V}
    (records : ctx.host = host.recorded) (breaks : ctx'.host = (host.failingOn op).recorded)
    {m m' : ReadM (Recorded σ V) α} (asks : Asks asked ctx ctx' m m') : Breaks op m m' := by
  induction asks with
  | done a => exact .same (.pure a)
  | fail _ => exact .fail records breaks _
  | report event _ ih => exact .bind (.same (.report event)) fun _ => ih
  | call call result injective _ _ makes makes' _ ih =>
    rw [records] at makes
    rw [breaks] at makes'
    exact .bind (.hosted injective makes makes') ih

end Breaks

end ReadM

namespace Context

variable {op : Operation} {host : Host σ V} {ctx ctx' : Context (Recorded σ V) V}
  (records : ctx.host = host.recorded) (breaks : ctx'.host = (host.failingOn op).recorded)
  (alike : ctx.Alike ctx')

section

include records breaks alike

theorem turn_breaks (stack : Stack V) : Breaks op (ctx.turn stack) (ctx'.turn stack) := by
  rw [turn_eq, turn_eq, ← alike.dialect_eq]
  exact .bind (.same (ctx.dialect.takeTurn_hostFree _)) fun found =>
    .of_asks records breaks (answer_asks alike stack found)

theorem run_breaks (bound : List Char) (stack : Stack V) :
    Breaks op (ctx.run none (throw .stalled) bound stack)
      (ctx'.run none (throw .stalled) bound stack) := by
  induction bound generalizing stack with
  | nil =>
    unfold run
    rw [step_eq_turn, step_eq_turn]
    apply Breaks.bind (turn_breaks records breaks alike stack)
    intro progress
    cases progress with
    | finished form => exact .same (.pure form)
    | pending stack => exact .same (.throw _)
  | cons _ bound ih =>
    unfold run
    rw [step_eq_turn, step_eq_turn]
    apply Breaks.bind (turn_breaks records breaks alike stack)
    intro progress
    cases progress with
    | finished form => exact .same (.pure form)
    | pending stack => exact ih stack

theorem readForm_breaks : Breaks op (ctx.readForm none) (ctx'.readForm none) := by
  intro s
  rw [readForm_eq_run, readForm_eq_run, ← alike.endOfStream]
  exact Breaks.bind (run_breaks records breaks alike _ []) (fun _ => .same (.pure _)) s

theorem readFormsWithin_grows (bound : List Char) (done : List V) (s : ReadState (Recorded σ V)) :
    let log := (finalState (ctx.readForm none s)).log
    let reading := ctx.readFormsWithin none bound done s
    log <+: reading.final.log ∧ ∃ forms, reading.forms = done.reverse ++ forms ∧
      ∀ i form, forms[i]? = some form → ∃ t, ctx.readForm none (ctx.afterReads s i) = .ok form t ∧
        log <+: t.log := by
  induction bound generalizing done s with
  | nil =>
    rw [readFormsWithin_nil]
    cases ctx.readForm none s with
    | error e t => exact ⟨List.prefix_rfl, [], (List.append_nil _).symm, nofun⟩
    | ok form t =>
      dsimp only [follow]
      split <;> exact ⟨List.prefix_rfl, [], (List.append_nil _).symm, nofun⟩
  | cons c bound ih =>
    rw [readFormsWithin_cons]
    cases read : ctx.readForm none s with
    | error e t => exact ⟨List.prefix_rfl, [], (List.append_nil _).symm, nofun⟩
    | ok form t =>
      dsimp only [follow]
      split
      · exact ⟨List.prefix_rfl, [], (List.append_nil _).symm, nofun⟩
      · obtain ⟨grows, forms, same, completes⟩ := ih (form :: done) t
        have behind := (readForm_breaks records breaks alike t).grows
        refine ⟨behind.trans grows, form :: forms, ?_, fun i form' found => ?_⟩
        · rw [same, List.reverse_cons, List.append_assoc, List.singleton_append]
        · cases i with
          | zero =>
            cases found
            exact ⟨t, read, List.prefix_rfl⟩
          | succ i =>
            obtain ⟨t', read', later⟩ := completes i form' found
            rw [afterReads_succ, read]
            exact ⟨t', read', behind.trans later⟩

end

/-- The forms are read one by one, and just as many of them are complete with the given calls. -/
def CompletesWithin (ctx : Context (Recorded σ V) V) (start : ReadState (Recorded σ V))
    (forms : List V) (complete : Nat) (calls : CallLog V) : Prop :=
  ∀ i form, forms[i]? = some form → ∃ t, ctx.readForm none (ctx.afterReads start i) = .ok form t ∧
    (i < complete ↔ t.log <+: calls)

theorem CompletesWithin.none {start : ReadState (Recorded σ V)} {forms : List V}
    {calls log : CallLog V} (fewer : calls.length < log.length)
    (later : ∀ i form, forms[i]? = some form → ∃ t,
      ctx.readForm none (ctx.afterReads start i) = .ok form t ∧ log <+: t.log) :
    ctx.CompletesWithin start forms 0 calls := by
  intro i form found
  obtain ⟨t, read, more⟩ := later i form found
  refine ⟨t, read, iff_of_false (Nat.not_lt_zero i) fun earlier => ?_⟩
  have longer := (more.trans earlier).length_le
  omega

/-- Two readings behind the forms that are done are the same reading of two hosts, one of which fails on
an operation. Either no call of it was made, or the second reading ends with the first one, and its
forms are those of the first reading that were complete before. -/
inductive ReadingBreaks (ctx : Context (Recorded σ V) V) (op : Operation)
    (start : ReadState (Recorded σ V)) (done : List V) :
    Reading (Recorded σ V) V → Reading (Recorded σ V) V → Prop
  | spared {reading : Reading (Recorded σ V) V} {added : CallLog V}
      (grows : reading.final.log = start.log ++ added) (spares : added.Spares op) :
      ReadingBreaks ctx op start done reading reading
  | broken {normal broken : Reading (Recorded σ V) V} {before after : CallLog V}
      {record : CallRecord V} {forms behind : List V}
      (grows : normal.final.log = start.log ++ (before ++ record :: after))
      (spares : before.Spares op) (hits : record.call.operation = op)
      (ends : broken.final.log = start.log ++ (before ++ [⟨record.call, none⟩]))
      (fails : broken.failure = some op.failure)
      (all : normal.forms = done.reverse ++ (forms ++ behind))
      (complete : broken.forms = done.reverse ++ forms)
      (completes : ctx.CompletesWithin start (forms ++ behind) forms.length (start.log ++ before)) :
      ReadingBreaks ctx op start done normal broken

theorem ReadingBreaks.behind {s t : ReadState (Recorded σ V)} {form : V} {done : List V}
    {added : CallLog V} {normal broken : Reading (Recorded σ V) V}
    (read : ctx.readForm none s = .ok form t) (between : t.log = s.log ++ added)
    (spares : added.Spares op) (breaks : ctx.ReadingBreaks op t (form :: done) normal broken) :
    ctx.ReadingBreaks op s done normal broken := by
  cases breaks with
  | spared grows spares' =>
    rw [between, List.append_assoc] at grows
    exact .spared grows (spares.append spares')
  | broken grows spares' hits ends fails all complete completes =>
    rw [between, List.append_assoc, ← List.append_assoc added] at grows ends
    rw [List.reverse_cons, List.append_assoc, List.singleton_append] at all complete
    refine .broken grows (spares.append spares') hits ends fails all complete
      fun i form' found => ?_
    cases i with
    | zero =>
      cases found
      refine ⟨t, read, iff_of_true (Nat.zero_lt_succ _) ?_⟩
      rw [← List.append_assoc, ← between]
      exact List.prefix_append _ _
    | succ i =>
      obtain ⟨t', read', before⟩ := completes i form' found
      rw [between, List.append_assoc] at before
      rw [afterReads_succ, read]
      exact ⟨t', read', Nat.succ_lt_succ_iff.trans before⟩

include records breaks alike in
theorem readFormsWithin_breaks_first (bound : List Char) (done : List V)
    {s : ReadState (Recorded σ V)} {before after : CallLog V} {record : CallRecord V}
    {broken : Reading (Recorded σ V) V}
    (grows : (finalState (ctx.readForm none s)).log = s.log ++ (before ++ record :: after))
    (spares : before.Spares op) (hits : record.call.operation = op)
    (ends : broken.final.log = s.log ++ (before ++ [⟨record.call, none⟩]))
    (fails : broken.failure = some op.failure) (complete : broken.forms = done.reverse) :
    ctx.ReadingBreaks op s done (ctx.readFormsWithin none bound done s) broken := by
  obtain ⟨⟨more, log⟩, forms, all, completes⟩ :=
    readFormsWithin_grows records breaks alike bound done s
  rw [grows, List.append_assoc, List.append_assoc, List.cons_append] at log
  have none_complete : broken.forms = done.reverse ++ [] := complete.trans (List.append_nil _).symm
  refine .broken log.symm spares hits ends fails all none_complete (.none ?_ completes)
  rw [grows]
  simp

include records breaks alike in
theorem readFormsWithin_breaks (bound : List Char) (done : List V) (s : ReadState (Recorded σ V)) :
    ctx.ReadingBreaks op s done (ctx.readFormsWithin none bound done s)
      (ctx'.readFormsWithin none bound done s) := by
  induction bound generalizing done s with
  | nil =>
    have reads := readForm_breaks records breaks alike s
    rw [ctx'.readFormsWithin_nil]
    generalize read : ctx.readForm none s = result at reads
    generalize ctx'.readForm none s = result' at reads
    cases reads with
    | spared grows spares =>
      rw [ctx.readFormsWithin_nil, read]
      cases result with
      | error e t => exact .spared grows spares
      | ok form t =>
        dsimp only [follow]
        rw [← alike.eq, ← alike.endOfStream]
        split <;> exact .spared grows spares
    | broken grows spares hits ends =>
      rw [← read] at grows
      exact readFormsWithin_breaks_first records breaks alike [] done grows spares hits ends rfl rfl
  | cons c bound ih =>
    have reads := readForm_breaks records breaks alike s
    rw [ctx'.readFormsWithin_cons]
    generalize read : ctx.readForm none s = result at reads
    generalize ctx'.readForm none s = result' at reads
    cases reads with
    | spared grows spares =>
      rw [ctx.readFormsWithin_cons, read]
      cases result with
      | error e t => exact .spared grows spares
      | ok form t =>
        dsimp only [follow]
        rw [← alike.eq, ← alike.endOfStream]
        split
        · exact .spared grows spares
        · exact .behind read grows spares (ih (form :: done) t)
    | broken grows spares hits ends =>
      rw [← read] at grows
      exact readFormsWithin_breaks_first records breaks alike _ done grows spares hits ends rfl rfl

end Context

theorem Context.create_breaks (host : Host σ V) (op : Operation) (bracketLists : Bool) :
    Breaks op (hosted (names <$> create host.recorded bracketLists))
      (hosted (names <$> create (host.failingOn op).recorded bracketLists)) := by
  have interns (name : String) : Breaks op (hosted (host.recorded.internSymbol name))
      (hosted ((host.failingOn op).recorded.internSymbol name)) :=
    have makes : host.recorded.call (.internSymbol name) =
        some <$> host.recorded.internSymbol name := rfl
    .hosted (fun _ _ => Option.some.inj) makes rfl
  unfold create
  simp only [map_bind, map_pure, hosted_bind]
  refine .bind (interns _) fun _ => .bind (interns _) fun _ => .bind (interns _) fun _ => ?_
  refine .bind (interns _) fun _ => .bind (interns _) fun _ => .same ?_
  exact .pure _

theorem readAll_eq_names (host : Host σ V) (bracketLists : Bool) (state : σ) (source : Source) :
    readAll host ⟨bracketLists, none⟩ state source =
      match hosted (Context.names <$> Context.create host bracketLists) ⟨state, source, #[]⟩ with
      | .error e s => ⟨[], some e, s⟩
      | .ok names s => (names.context host).readForms none s := by
  unfold readAll
  cases created : Context.create host bracketLists state with
  | error e opened => rw [hosted_of_error (HostM.map_of_error created _)]
  | ok ctx opened =>
    rw [hosted_of_ok (HostM.map_of_ok created _)]
    obtain ⟨rfl, -⟩ := Context.of_create created
    rfl

theorem Context.names_of_create {host : Host σ V} {bracketLists : Bool} {state opened : σ}
    {ctx : Context σ V} (created : Context.create host bracketLists state = .ok ctx opened)
    (source : Source) :
    hosted (Context.names <$> Context.create host bracketLists) ⟨state, source, #[]⟩ =
        .ok ctx.names ⟨opened, source, #[]⟩ ∧ ctx = ctx.names.context host := by
  refine ⟨hosted_of_ok (HostM.map_of_ok created _), ?_⟩
  rw [← (Context.of_create created).1]
  rfl

theorem Names.alike_failingOn (names : Names V) (host : Host σ V) (op : Operation) :
    (names.context host.recorded).Alike (names.context (host.failingOn op).recorded) :=
  ⟨rfl, rfl, rfl, rfl, rfl, rfl, rfl, rfl, rfl⟩

/-- The second reading is the first one up to its first call of the operation. That call ends it. -/
structure Reading.EndsAtFirst (op : Operation) (normal broken : Reading (Recorded σ V) V)
    (before : CallLog V) (record : CallRecord V) : Prop where
  calls : before ++ [record] <+: normal.final.log
  spares : before.Spares op
  hits : record.call.operation = op
  last : broken.final.log = before ++ [⟨record.call, none⟩]
  fails : broken.failure = some op.failure
  forms : broken.forms <+: normal.forms

theorem Context.ReadingBreaks.endsAtFirst {ctx : Context (Recorded σ V) V}
    {start : ReadState (Recorded σ V)} {op : Operation} {normal broken : Reading (Recorded σ V) V}
    (breaks : ctx.ReadingBreaks op start [] normal broken) (spared : start.log.Spares op) :
    normal.final.log.Spares op ∧ broken = normal ∨
      ∃ before record, normal.EndsAtFirst op broken before record ∧
        ctx.CompletesWithin start normal.forms broken.forms.length before := by
  cases breaks with
  | spared grows spares => exact .inl ⟨grows ▸ spared.append spares, rfl⟩
  | @broken _ before after record forms behind grows spares hits ends fails all complete completes =>
    rw [← List.append_assoc] at grows ends
    rw [List.reverse_nil, List.nil_append] at all complete
    rw [← all, ← complete] at completes
    refine .inr ⟨start.log ++ before, record, ⟨⟨after, ?_⟩, spared.append spares, hits, ends, fails, ?_⟩,
      completes⟩
    · rw [grows, List.append_assoc, List.singleton_append]
    · rw [all, complete]
      exact List.prefix_append forms behind

theorem Context.readForms_behind {ctx ctx' : Context (Recorded σ V) V} {host : Host σ V} {op : Operation}
    (records : ctx.host = host.recorded) (breaks : ctx'.host = (host.failingOn op).recorded)
    (alike : ctx.Alike ctx') {start : ReadState (Recorded σ V)} {before : CallLog V}
    {record : CallRecord V} (called : before ++ [record] <+: start.log) :
    before ++ [record] <+: (ctx.readForms none start).final.log ∧
      ctx.CompletesWithin start (ctx.readForms none start).forms 0 before := by
  obtain ⟨later, forms, all, completes⟩ :=
    readFormsWithin_grows records breaks alike start.source.remaining [] start
  have grown := called.trans (readForm_breaks records breaks alike start).grows
  refine ⟨grown.trans later, ?_⟩
  rw [show (ctx.readForms none start).forms = forms from all]
  refine .none ?_ completes
  have longer := grown.length_le
  rw [List.length_append, List.length_singleton] at longer
  omega

/-- Either the operation is never called and its failure makes no difference, or the first call of it
ends the reading, with the forms that were complete before. -/
theorem readAll_breaks (host : Host σ V) (op : Operation) (bracketLists : Bool) (state : σ)
    (source : Source) :
    let read (host : Host σ V) := readAll host.recorded ⟨bracketLists, none⟩ ⟨state, #[]⟩ source
    let normal := read host
    let broken := read (host.failingOn op)
    normal.final.log.Spares op ∧ broken = normal ∨
      ∃ before record, normal.EndsAtFirst op broken before record ∧
        ∀ ctx opened, Context.create host.recorded bracketLists ⟨state, #[]⟩ = .ok ctx opened →
          ctx.CompletesWithin ⟨opened, source, #[]⟩ normal.forms broken.forms.length before := by
  intro read normal broken
  let start : ReadState (Recorded σ V) := ⟨⟨state, #[]⟩, source, #[]⟩
  have creates := Context.create_breaks host op bracketLists start
  have normal_eq : normal = _ := readAll_eq_names host.recorded bracketLists _ source
  have broken_eq : broken = _ := readAll_eq_names (host.failingOn op).recorded bracketLists _ source
  clear_value normal broken
  have creation (ctx : Context (Recorded σ V) V) (opened : Recorded σ V)
      (created : Context.create host.recorded bracketLists ⟨state, #[]⟩ = .ok ctx opened) :
      hosted (Context.names <$> Context.create host.recorded bracketLists) start =
        .ok ctx.names ⟨opened, source, #[]⟩ ∧ ctx = ctx.names.context host.recorded :=
    Context.names_of_create created source
  generalize hosted (Context.names <$> Context.create host.recorded bracketLists) start = result
    at creates normal_eq creation
  generalize hosted (Context.names <$> Context.create (host.failingOn op).recorded bracketLists)
    start = result' at creates broken_eq
  -- The call that breaks is made while the reader gets its own symbols, or later, while it reads.
  cases creates with
  | @spared added grows spares =>
    cases result with
    | error e s =>
      obtain rfl : s.log = added := grows
      exact .inl ⟨normal_eq ▸ spares, broken_eq.trans normal_eq.symm⟩
    | ok names s =>
      obtain rfl : s.log = added := grows
      have breaks : (names.context host.recorded).ReadingBreaks op s [] normal broken := by
        rw [normal_eq, broken_eq]
        exact Context.readFormsWithin_breaks rfl rfl (names.alike_failingOn host op) s.source.remaining [] s
      refine (breaks.endsAtFirst spares).imp_right fun ⟨before, record, ends, completes⟩ =>
        ⟨before, record, ends, fun ctx opened created => ?_⟩
      obtain ⟨same, context⟩ := creation ctx opened created
      cases same
      exact context ▸ completes
  | @broken before after record s grows spares hits ends =>
    subst broken_eq normal_eq
    cases result with
    | error e t =>
      refine .inr ⟨before, record, ⟨⟨after, ?_⟩, spares, hits, ends, rfl, List.nil_prefix⟩, ?_⟩
      · rw [List.append_assoc]
        exact grows.symm
      · intro ctx opened created
        cases (creation ctx opened created).1
    | ok names t =>
      have begins : t.log = before ++ record :: after := grows
      have called : before ++ [record] <+: t.log := ⟨after, by rw [begins, List.append_assoc]; rfl⟩
      obtain ⟨calls, completes⟩ :=
        Context.readForms_behind rfl rfl (names.alike_failingOn host op) called
      refine .inr ⟨before, record, ⟨calls, spares, hits, ends, rfl, List.nil_prefix⟩, ?_⟩
      intro ctx opened created
      obtain ⟨same, context⟩ := creation ctx opened created
      cases same
      exact context ▸ completes

theorem Call.eq_signalError {call : Call V} (tells : call.operation = .signalError) :
    ∃ e, call = .signalError e := by
  cases call with
  | signalError e => exact ⟨e, rfl⟩
  | _ => cases tells

theorem Host.not_answers_none (host : Host σ V) (e : ReadError) (final : σ) :
    ¬host.Answers e none final := by
  rintro ⟨_, ⟨-, ended⟩ | ⟨_, -, ended⟩⟩
  · cases ended
  · cases ended

namespace ReadM

def TellsLast (host : Host σ V) (m : ReadM (Recorded σ V) α) : Prop :=
  ∀ s, ∃ added, (finalState (m s)).log = s.log ++ added ∧
    ∀ i record e, added[i]? = some record → record.call = .signalError e →
      i + 1 = added.length ∧ host.Answers e (failure? (m s)) (finalState (m s)).host.state

namespace TellsLast

variable {host : Host σ V}

theorem of_logs {asked : Call V → Prop} {m : ReadM (Recorded σ V) α} (logs : Logs host asked m)
    (silent : ∀ call, asked call → call.operation ≠ .signalError) : TellsLast host m := by
  intro s
  obtain ⟨added, log, holds⟩ := logs s
  refine ⟨added, log, fun i record e found call => ?_⟩
  have asks := (holds record (List.mem_of_getElem? found)).1
  rw [call] at asks
  exact absurd rfl (silent _ asks)

theorem hostFree {m : ReadM (Recorded σ V) α} (free : HostFree m m) : TellsLast host m :=
  have logs : Logs host (fun _ => False) m := .hostFree free
  .of_logs logs fun _ never => never.elim

theorem bind {m : ReadM (Recorded σ V) α} {f : α → ReadM (Recorded σ V) β}
    (first : TellsLast host m) (next : ∀ a, TellsLast host (f a)) : TellsLast host (m >>= f) := by
  intro s
  obtain ⟨added, log, tells⟩ := first s
  cases result : m s with
  | error e t =>
    rw [result] at log tells
    rw [bind_of_error result]
    exact ⟨added, log, tells⟩
  | ok a t =>
    rw [result] at log tells
    obtain ⟨added', log', tells'⟩ := next a t
    rw [bind_of_ok result]
    refine ⟨added ++ added', ?_, fun i record e found call => ?_⟩
    · rw [log', ← List.append_assoc, ← log]
      rfl
    · by_cases inside : i < added.length
      · rw [List.getElem?_append_left inside] at found
        exact absurd (tells i record e found call).2 (host.not_answers_none e _)
      · rw [List.getElem?_append_right (Nat.le_of_not_lt inside)] at found
        obtain ⟨last, answers⟩ := tells' _ record e found call
        refine ⟨?_, answers⟩
        rw [List.length_append]
        omega

theorem fail {ctx : Context (Recorded σ V) V} (records : ctx.host = host.recorded)
    (fault : ReadFault) : TellsLast host (ctx.fail fault : ReadM (Recorded σ V) α) := by
  intro s
  obtain ⟨failure, state, fails, answers⟩ := Context.fail_recorded (α := α) records fault s
  rw [fails]
  refine ⟨_, Array.toList_push, fun i record e found call => ?_⟩
  cases i with
  | zero =>
    cases found
    cases call
    exact ⟨rfl, answers⟩
  | succ i => cases found

theorem of_asks {asked : Call V → Prop} {ctx ctx' : Context (Recorded σ V) V}
    (records : ctx.host = host.recorded) {m m' : ReadM (Recorded σ V) α}
    (asks : Asks asked ctx ctx' m m') : TellsLast host m := by
  induction asks with
  | done a => exact .hostFree (.pure a)
  | fail _ => exact .fail records _
  | report event _ ih => exact .bind (.hostFree (.report event)) fun _ => ih
  | call call result _ _ silent makes _ _ ih =>
    rw [records] at makes
    have logs : Logs host (· = call) (hosted _) := .hosted makes rfl
    exact .bind (.of_logs logs fun _ same => same ▸ silent) ih

end TellsLast

end ReadM

namespace Context

variable {host : Host σ V} {ctx : Context (Recorded σ V) V} (records : ctx.host = host.recorded)

include records

theorem turn_tellsLast (stack : Stack V) : TellsLast host (ctx.turn stack) := by
  rw [turn_eq]
  exact .bind (.hostFree (ctx.dialect.takeTurn_hostFree _)) fun found =>
    .of_asks records (answer_asks (.refl ctx) stack found)

theorem Passes.spares {start p : Position (Recorded σ V) V} (passes : ctx.Passes start p)
    (spares : start.state.log.Spares .signalError) : p.state.log.Spares .signalError := by
  induction passes with
  | refl => exact spares
  | @turn p p' _ leads ih =>
    obtain ⟨added, log, tells⟩ := turn_tellsLast records p.stack p.state
    obtain ⟨progress, turned⟩ := state_of_proceed leads
    rw [turned] at log tells
    rw [show p'.state.log = _ from log]
    refine ih.append fun record member told => ?_
    obtain ⟨e, call⟩ := Call.eq_signalError told
    obtain ⟨i, found⟩ := List.mem_iff_getElem?.mp member
    exact host.not_answers_none e _ (tells i record e found call).2

theorem readForms_tells {s : ReadState (Recorded σ V)} (spares : s.log.Spares .signalError) :
    let reading := ctx.readForms none s
    ∀ i record e, reading.final.log[i]? = some record → record.call = .signalError e →
      i + 1 = reading.final.log.length ∧
        host.Answers e reading.failure reading.final.host.state := by
  intro reading i record e found call
  obtain ⟨p, passes, ends⟩ := ctx.exists_last (.start s)
  rw [← readForms_eq_readOn] at ends
  obtain ⟨added, log, tells⟩ := turn_tellsLast records p.stack p.state
  have before := passes.spares records spares
  have final : reading.final = _ := final_of_proceed ends
  rw [final, log] at found
  by_cases inside : i < p.state.log.length
  · rw [List.getElem?_append_left inside] at found
    refine absurd ?_ (before record (List.mem_of_getElem? found))
    rw [call]
    rfl
  · rw [List.getElem?_append_right (Nat.le_of_not_lt inside)] at found
    obtain ⟨last, answers⟩ := tells _ record e found call
    have failure : reading.failure = failure? (ctx.turn p.stack p.state) := by
      obtain ⟨failure, t, turned, same⟩ | ⟨progress, t, turned, -⟩ := proceed_eq_inl ends
      · rw [turned, show reading = _ from same]
        rfl
      · rw [turned] at answers
        exact absurd answers (host.not_answers_none e _)
    rw [failure, final]
    refine ⟨?_, answers⟩
    rw [log, List.length_append]
    omega

end Context

/-- A host that fails ends the reading at once. If the host is made to fail on an operation, nothing
changes for a text that never asks for it. Otherwise the host is called in the same way up to the first
call of the operation, and never again: what it raises there ends the reading, with just those forms
that were complete before. And as soon as a host is told of an error, whatever it does about it, it is
not called again, and the reading ends with what it raises, or else with the error. -/
theorem host_failures_end_reading (host : Host σ V) (op : Operation) (bracketLists : Bool) (state : σ)
    (source : Source) :
    let read (host : Host σ V) := readAll host.recorded ⟨bracketLists, none⟩ ⟨state, #[]⟩ source
    let normal := read host
    let broken := read (host.failingOn op)
    (normal.final.log.Spares op ∧ broken = normal ∨
      ∃ before record, normal.EndsAtFirst op broken before record ∧
        ∀ ctx opened, Context.create host.recorded bracketLists ⟨state, #[]⟩ = .ok ctx opened →
          ctx.CompletesWithin ⟨opened, source, #[]⟩ normal.forms broken.forms.length before) ∧
    ∀ i record e, normal.final.log[i]? = some record → record.call = .signalError e →
      i + 1 = normal.final.log.length ∧ host.Answers e normal.failure normal.final.host.state := by
  intro read normal broken
  refine ⟨readAll_breaks host op bracketLists state source, ?_⟩
  have interned (s : ReadState (Recorded σ V))
      (final : finalState (hosted (Context.create host.recorded bracketLists)
        ⟨⟨state, #[]⟩, source, #[]⟩) = s) : s.log.Spares .signalError := by
    obtain ⟨added, log, interns⟩ := Context.create_logs host bracketLists ⟨⟨state, #[]⟩, source, #[]⟩
    rw [final] at log
    rw [log]
    intro record member told
    obtain ⟨name, call⟩ := (interns record member).1
    rw [call] at told
    cases told
  have reads : normal = readAll host.recorded ⟨bracketLists, none⟩ ⟨state, #[]⟩ source := rfl
  unfold readAll at reads
  cases created : Context.create host.recorded bracketLists ⟨state, #[]⟩ with
  | error failure opened =>
    rw [created] at reads
    have spares := interned _ (congrArg finalState (hosted_of_error created))
    intro i record e found call
    rw [reads] at found
    refine absurd ?_ (spares record (List.mem_of_getElem? found))
    rw [call]
    rfl
  | ok ctx opened =>
    rw [created] at reads
    rw [reads]
    exact Context.readForms_tells (Context.of_create created).1
      (interned _ (congrArg finalState (hosted_of_ok created)))

/-- In `b (a` the list is never closed. Its first pair is the only one, and the error is the last call of
a host that ignores it. -/
theorem host_failures_end_reading_unclosed :
    let host := Handles.host ⟨.all, true, .ignore⟩
    let read (host : Host Handles Handle) :=
      readAll host.recorded ⟨true, none⟩ ⟨Handles.initial, #[]⟩ (.plain "b (a".toList)
    (∃ before record, (read host).EndsAtFirst .makePair (read (host.failingOn .makePair)) before record) ∧
      ∃ e : ReadError, e.fault = .endOfInput .list ∧
        host.Answers e (read host).failure (read host).final.host.state := by
  intro host read
  obtain ⟨breaks, tells⟩ :=
    host_failures_end_reading host .makePair true Handles.initial (.plain "b (a".toList)
  have made : ⟨.makePair (.symbol 6) .nil, some (.pair 0)⟩ ∈ (read host).final.log := by
    decide +kernel
  have told : (read host).final.log[10]? =
      some ⟨.signalError ⟨.endOfInput .list, none, none, none⟩, none⟩ := by
    decide +kernel
  obtain ⟨spared, -⟩ | ⟨before, record, ends, -⟩ := breaks
  · exact absurd rfl (spared _ made)
  · exact ⟨⟨before, record, ends⟩, _, rfl, (tells 10 _ _ told rfl).2⟩

end SexprReader
