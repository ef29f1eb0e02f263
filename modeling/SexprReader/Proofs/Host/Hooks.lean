import SexprReader.Proofs.Host.Recording
import SexprReader.Proofs.Reader.Positions
import SexprReader.Proofs.Reader.Spelling
import SexprReader.Reader.Hook
import SexprReader.Store

namespace SexprReader

open ReadM Lexeme

variable {σ V α : Type}

def Found.unknown? : Found → Option Char
  | .part (.fault (.unsupportedHash c)) => some c
  | _ => none

/-- The host was told of the error. -/
def CallLog.Signals (log : CallLog V) (e : ReadError) : Prop :=
  ∃ record ∈ log, record.call = .signalError e

def Call.IsKnown (call : Call V) : Prop :=
  ∀ e, call = .signalError e → e.kind ≠ .unsupportedHashSequence

namespace Context

variable (ctx : Context σ V)

def finishHook (stack : Stack V) : Option V → ReadM σ (Progress V)
  | some form => ctx.complete stack (some form)
  | none => pure (.pending stack)

/-- What reading all forms comes to if the hook is called for `#c` in the given state, in a turn that
began at the given position. -/
def readBehindHook (hook : Hook σ V) (p : Position σ V) (c : Char) (s : ReadState σ) : Reading σ V :=
  (ctx.proceed p ((hook.answer ctx (ctx.readNested (some hook)) c >>=
    ctx.finishHook p.stack) s)).elim id (ctx.readOn (some hook))

def Meets (p : Position σ V) (c : Char) (s : ReadState σ) : Prop :=
  ctx.dialect.takeTurn p.stack.expected p.state = .ok (.part (.fault (.unsupportedHash c))) s

theorem answerWith_of_known {found : Found} (known : found.unknown? = none)
    (hook : Option (Hook σ V)) (readForm : ReadM σ V) (stack : Stack V) :
    ctx.answerWith hook readForm stack found = ctx.answer stack found := by
  cases found with
  | part lexeme =>
    cases lexeme with
    | fault reason =>
      cases reason with
      | unsupportedHash c => cases known
      | _ => rfl
    | _ => rfl
  | _ => rfl

theorem answerWith_unknown (hook : Hook σ V) (readForm : ReadM σ V) (stack : Stack V) (c : Char) :
    ctx.answerWith (some hook) readForm stack (.part (.fault (.unsupportedHash c))) =
      hook.answer ctx readForm c >>= ctx.finishHook stack := by
  simp only [answerWith, performWith, readUnknownHash, bind_assoc]
  congr 1
  funext value
  cases value <;> rfl

theorem answer_unknown (stack : Stack V) (c : Char) :
    ctx.answer stack (.part (.fault (.unsupportedHash c))) = ctx.fail (.unsupportedHash c) :=
  ctx.fail_bind _ _

variable {ctx : Context σ V} {p : Position σ V}

theorem unknown?_eq_none_of_not_meets (known : ∀ c s, ¬ctx.Meets p c s) {found : Found} {s : ReadState σ}
    (took : ctx.dialect.takeTurn p.stack.expected p.state = .ok found s) : found.unknown? = none := by
  unfold Found.unknown?
  split
  · exact absurd took (known _ _)
  · rfl

theorem turnWith_of_not_meets (known : ∀ c s, ¬ctx.Meets p c s) (hook : Option (Hook σ V)) :
    ctx.turnWith hook p.stack p.state = ctx.turn p.stack p.state := by
  rw [turnWith, step_eq, turn_eq]
  refine bind_congr_of_ok fun found s took => ?_
  rw [ctx.answerWith_of_known (unknown?_eq_none_of_not_meets known took)]

theorem readOn_of_meets {c : Char} {s : ReadState σ} (meets : ctx.Meets p c s) (hook : Hook σ V) :
    ctx.readOn (some hook) p = ctx.readBehindHook hook p c s := by
  rw [readOn_eq, turnWith, step_eq, bind_of_ok meets, answerWith_unknown, readBehindHook]

theorem turn_of_meets {c : Char} {s : ReadState σ} (meets : ctx.Meets p c s) :
    ctx.turn p.stack p.state = ctx.fail (.unsupportedHash c) s := by
  rw [turn_eq, bind_of_ok meets, answer_unknown]

theorem not_meets_of_leads {p' : Position σ V}
    (leads : ctx.proceed p (ctx.turn p.stack p.state) = .inr p') (c : Char) (s : ReadState σ) :
    ¬ctx.Meets p c s := by
  intro meets
  obtain ⟨progress, turned⟩ := state_of_proceed leads
  rw [turn_of_meets meets] at turned
  obtain ⟨_, _, -, rest⟩ := exists_of_bind_ok turned
  obtain ⟨_, _, -, rest⟩ := exists_of_bind_ok rest
  obtain ⟨_, _, -, rest⟩ := exists_of_bind_ok rest
  cases rest

theorem Passes.readOn_hook {start : Position σ V} (passes : ctx.Passes start p)
    (hook : Option (Hook σ V)) : ctx.readOn hook start = ctx.readOn hook p :=
  passes.readOn_eq fun _ _ _ leads => turnWith_of_not_meets (not_meets_of_leads leads) hook

end Context

theorem Found.EndsIn.isOwn {found : Found} {taken : List Char} (spelt : found.EndsIn taken)
    (known : found.unknown? = none) {fault : ReadFault}
    (same : found = .part (.fault fault) ∨ found = .fault fault) : fault.IsOwn := by
  obtain rfl | rfl := same
  · cases fault with
    | unsupportedHash c => cases known
    | _ => exact spelt
  · exact spelt

theorem ReadFault.IsOwn.kind_ne {fault : ReadFault} (own : fault.IsOwn) :
    fault.kind ≠ .unsupportedHashSequence := by
  cases fault <;> simp_all [IsOwn, kind]

theorem CallLog.Signals.kind_ne {log : CallLog V} {e : ReadError} (told : log.Signals e)
    (known : ∀ record ∈ log, record.call.IsKnown) : e.kind ≠ .unsupportedHashSequence := by
  obtain ⟨record, member, call⟩ := told
  exact known record member e call

/-- Behind calls that tell of known sequences alone, an unknown one is told of by the last call. -/
theorem CallLog.Signals.eq_last {log : CallLog V} {e last : ReadError} {result : Option V}
    (told : CallLog.Signals (log ++ [⟨.signalError last, result⟩]) e)
    (known : ∀ record ∈ log, record.call.IsKnown) (unknown : e.kind = .unsupportedHashSequence) :
    e = last := by
  obtain ⟨record, member, call⟩ := told
  obtain before | now := List.mem_append.mp member
  · exact absurd unknown (known record before e call)
  · rw [List.mem_singleton.mp now] at call
    exact (Call.signalError.inj call).symm

theorem MayCall.isKnown {nil : V} {stack : Stack V} {found : Found} {call : Call V}
    (may : MayCall nil stack found call)
    (own : ∀ fault, found = .part (.fault fault) ∨ found = .fault fault → fault.IsOwn) :
    call.IsKnown := by
  intro e same
  cases may with
  | ordinary ordinary =>
    subst same
    exact ordinary.elim
  | interns => cases same
  | own own =>
    cases same
    exact own.kind_ne
  | reported found =>
    cases same
    exact (own _ found).kind_ne
  | setRest => cases same
  | listToVector => cases same

namespace Context

variable {host : Host σ V} {ctx : Context (Recorded σ V) V} (records : ctx.host = host.recorded)
  {p start : Position (Recorded σ V) V}

include records

theorem turn_isKnown (known : ∀ c s, ¬ctx.Meets p c s) :
    ∃ added, (finalState (ctx.turn p.stack p.state)).log = p.state.log ++ added ∧
      ∀ record ∈ added, record.call.IsKnown := by
  obtain ⟨added, log, holds⟩ := turn_logs records p.stack p.state
  refine ⟨added, log, fun record member => ?_⟩
  obtain ⟨⟨found, s, took, may⟩, -⟩ := holds record member
  obtain ⟨-, taken, -, spelt⟩ := Dialect.isSpelt_of_takeTurn took
  exact may.isKnown fun fault => spelt.isOwn (unknown?_eq_none_of_not_meets known took)

theorem Passes.isKnown (passes : ctx.Passes start p)
    (known : ∀ record ∈ start.state.log, record.call.IsKnown) :
    ∀ record ∈ p.state.log, record.call.IsKnown := by
  induction passes with
  | refl => exact known
  | @turn p p' passes leads ih =>
    obtain ⟨added, log, holds⟩ := turn_isKnown records (not_meets_of_leads leads)
    obtain ⟨progress, turned⟩ := state_of_proceed leads
    rw [turned] at log
    intro record member
    rw [show p'.state.log = _ from log] at member
    exact (List.mem_append.mp member).elim (ih record) (holds record)

/-- Either a hook makes no difference, or there is a first unknown sequence for which it is called. -/
theorem readForms_hook {s₀ : ReadState (Recorded σ V)} (known : ∀ record ∈ s₀.log, record.call.IsKnown) :
    ((∀ record ∈ (ctx.readForms none s₀).final.log, record.call.IsKnown) ∧
      ∀ hook, ctx.readForms hook s₀ = ctx.readForms none s₀) ∨
    ∃ p c s, ctx.Passes (.start s₀) p ∧ ctx.Meets p c s ∧ (∀ record ∈ s.log, record.call.IsKnown) ∧
      ctx.proceed p (ctx.fail (.unsupportedHash c) s) = .inl (ctx.readForms none s₀) ∧
      ∀ hook, ctx.readForms (some hook) s₀ = ctx.readBehindHook hook p c s := by
  obtain ⟨p, passes, ends⟩ := ctx.exists_last (.start s₀)
  have before := passes.isKnown records known
  rw [← readForms_eq_readOn] at ends
  -- A turn that leads on meets no unknown sequence, so at most the last one does.
  by_cases meets : ∃ c s, ctx.Meets p c s
  · obtain ⟨c, s, meets⟩ := meets
    rw [turn_of_meets meets] at ends
    refine .inr ⟨p, c, s, passes, meets, ?_, ends, fun hook => ?_⟩
    · have same : s.log = p.state.log := by
        rw [ReadState.log, ReadState.log, (Dialect.isSpelt_of_takeTurn meets).1]
      rwa [same]
    · rw [readForms_eq_readOn, passes.readOn_hook, readOn_of_meets meets]
  · simp only [not_exists] at meets
    refine .inl ⟨?_, fun hook => ?_⟩
    · obtain ⟨added, log, holds⟩ := turn_isKnown records meets
      rw [final_of_proceed ends, log]
      exact fun record member => (List.mem_append.mp member).elim (before record) (holds record)
    · rw [readForms_eq_readOn, passes.readOn_hook, readOn_eq, turnWith_of_not_meets meets, ends]
      rfl

end Context

theorem Context.create_isKnown (host : Host σ V) (bracketLists : Bool) :
    Logs host Call.IsKnown (hosted (Context.create host.recorded bracketLists)) := by
  intro s
  obtain ⟨added, log, holds⟩ := Context.create_logs host bracketLists s
  refine ⟨added, log, fun record member => ⟨fun e same => ?_, (holds record member).2⟩⟩
  obtain ⟨name, call⟩ := (holds record member).1
  rw [call] at same
  cases same

/-- A reading that ends with an error of the reader has told the host of it, and done nothing else. -/
theorem Context.ends_of_fail {host : Host σ V} {ctx : Context (Recorded σ V) V}
    (records : ctx.host = host.recorded) {p : Position (Recorded σ V) V} {fault : ReadFault}
    {s : ReadState (Recorded σ V)} {reading : Reading (Recorded σ V) V}
    (ends : ctx.proceed p (ctx.fail fault s) = .inl reading) :
    let e : ReadError := ⟨fault, s.source.line?, s.source.column?, s.source.name⟩
    reading.forms = p.done.reverse ∧ reading.final.source = s.source ∧
      reading.final.host.calls = s.host.calls.push ⟨.signalError e, none⟩ ∧
      reading.final.trace = s.trace.push (.failed e) := by
  obtain ⟨failure, state, fails, -⟩ := Context.fail_recorded records fault s
  rw [fails] at ends
  cases ends
  exact ⟨rfl, rfl, rfl, rfl⟩

theorem Context.Meets.split {ctx : Context σ V} {p : Position σ V} {c : Char} {s : ReadState σ}
    (meets : ctx.Meets p c s) {source : Source} (precedes : source.Precedes p.state.source) :
    source.Precedes s.source ∧ ∃ before marks, marks.all isExactness ∧
      source.remaining = before ++ '#' :: marks ++ c :: s.source.remaining := by
  have lexical : Lexical (ctx.dialect.takeTurn p.stack.expected : ReadM σ Found)
      (ctx.dialect.takeTurn p.stack.expected : ReadM σ Found) := ctx.dialect.takeTurn_lexical _
  have moves := lexical.nearsighted.advances p.state
  rw [meets] at moves
  obtain ⟨-, taken, split, marks, exact_marks, before, ends⟩ := Dialect.isSpelt_of_takeTurn meets
  have moved := precedes.trans moves
  obtain ⟨earlier, split', -⟩ := precedes
  refine ⟨moved, earlier ++ before, marks, exact_marks, ?_⟩
  rw [split', split, ← ends]
  simp

/-- A hook extends the reader and changes nothing else. If the host is told of no sequence that the
reader does not know, then a reading with a hook is the reading without one, whatever the hook does. If
it is told of such a sequence `#c`, then the first call of a hook is for this `c`, in the state in which
the reading without a hook has just consumed it: it has completed the same forms and called the host in
the same way, but for the last call, which tells of the error. -/
theorem hooks_conservative (host : Host σ V) (bracketLists : Bool) (state : σ) (source : Source) :
    let read (hook : Option (Hook (Recorded σ V) V)) : Reading (Recorded σ V) V :=
      readAll host.recorded ⟨bracketLists, hook⟩ ⟨state, #[]⟩ source
    let plain := read none
    ((∀ e, plain.final.log.Signals e → e.kind ≠ .unsupportedHashSequence) →
      ∀ hook, read (some hook) = plain) ∧
    ∀ e, plain.final.log.Signals e → e.kind = .unsupportedHashSequence →
      ∃ c ctx opened p s, e.fault = .unsupportedHash c ∧
        Context.create host.recorded bracketLists ⟨state, #[]⟩ = .ok ctx opened ∧
        (source.Precedes s.source ∧ ∃ before marks, marks.all isExactness ∧
          source.remaining = before ++ '#' :: marks ++ c :: s.source.remaining) ∧
        plain.forms = p.done.reverse ∧ plain.final.source = s.source ∧
        plain.final.host.calls = s.host.calls.push ⟨.signalError e, none⟩ ∧
        plain.final.trace = s.trace.push (.failed e) ∧
        ∀ hook, read (some hook) = ctx.readBehindHook hook p c s ∧
          plain.forms <+: (read (some hook)).forms := by
  intro read plain
  let begins : ReadState (Recorded σ V) := ⟨⟨state, #[]⟩, source, #[]⟩
  have interned (s : ReadState (Recorded σ V))
      (final : finalState (hosted (Context.create host.recorded bracketLists) begins) = s) :
      ∀ record ∈ s.log, record.call.IsKnown := by
    obtain ⟨added, log, known⟩ := Context.create_isKnown host bracketLists begins
    rw [final] at log
    rw [log]
    exact fun record member => (known record member).1
  cases created : Context.create host.recorded bracketLists ⟨state, #[]⟩ with
  | error failure opened =>
    let s₀ : ReadState (Recorded σ V) := ⟨opened, source, #[]⟩
    have known := interned s₀ (congrArg finalState (hosted_of_error created))
    have reads (hook : Option (Hook (Recorded σ V) V)) : read hook = ⟨[], some failure, s₀⟩ := by
      simp only [read, readAll, created, s₀]
    refine ⟨fun _ hook => (reads hook).trans (reads none).symm, fun e told unknown => ?_⟩
    rw [show plain = _ from reads none] at told
    exact absurd unknown (told.kind_ne known)
  | ok ctx opened =>
    let s₀ : ReadState (Recorded σ V) := ⟨opened, source, #[]⟩
    have known := interned s₀ (congrArg finalState (hosted_of_ok created))
    have records : ctx.host = host.recorded := (Context.of_create created).1
    have reads (hook : Option (Hook (Recorded σ V) V)) : read hook = ctx.readForms hook s₀ :=
      readAll_of_create created hook source
    obtain ⟨known, same⟩ | ⟨p, c, s, passes, meets, known, ends, hooked⟩ :=
      Context.readForms_hook records known
    · refine ⟨fun _ hook => by rw [reads, same, ← reads], fun e told unknown => ?_⟩
      rw [show plain = _ from reads none] at told
      exact absurd unknown (told.kind_ne known)
    · rw [← reads none] at ends
      obtain ⟨forms, final, calls, trace⟩ := Context.ends_of_fail records ends
      let e₀ : ReadError := ⟨.unsupportedHash c, s.source.line?, s.source.column?, s.source.name⟩
      have log : plain.final.log = s.log ++ [⟨.signalError e₀, none⟩] := by
        rw [ReadState.log, show plain.final.host.calls = _ from calls]
        exact Array.toList_push
      have told : plain.final.log.Signals e₀ :=
        ⟨_, by rw [log]; exact List.mem_append_right _ List.mem_cons_self, rfl⟩
      refine ⟨fun none_unknown => absurd rfl (none_unknown e₀ told), fun e told unknown => ?_⟩
      obtain rfl : e = e₀ := (log ▸ told : CallLog.Signals (s.log ++ _) e).eq_last known unknown
      refine ⟨c, ctx, opened, p, s, rfl, rfl, meets.split passes.precedes, forms, final, calls, trace,
        fun hook => ⟨?_, ?_⟩⟩
      · rw [reads, hooked]
      · rw [show plain.forms = _ from forms, reads, Context.readForms_eq_readOn, passes.readOn_hook]
        exact ctx.readOn_forms (some hook) p

/-- Behind two forms comes `#e@`, which no hook can have been called before. -/
theorem hooks_conservative_unknown_sequence :
    let host := Store.host .standard
    let source : Source := .ofText "a #(b) #e@c d".toList 1 0 none
    let read (hook : Option (Hook (Recorded Store Value) Value)) : Reading (Recorded Store Value) Value :=
      readAll host.recorded ⟨true, hook⟩ ⟨.initial, #[]⟩ source
    let e : ReadError := ⟨.unsupportedHash '@', some 1, some 10, none⟩
    (read none).failure = some (.reading e) ∧ (read none).forms = [.symbol ⟨5, "a"⟩, .vector 0] ∧
      (read (some .character)).failure = none ∧
      (read (some .character)).forms =
        [.symbol ⟨5, "a"⟩, .vector 0, .character ⟨0, 64⟩, .symbol ⟨7, "c"⟩, .symbol ⟨8, "d"⟩] ∧
      ∃ (ctx : Context (Recorded Store Value) Value) (p : Position (Recorded Store Value) Value)
        (s : ReadState (Recorded Store Value)), s.source.remaining = "c d".toList ∧
        ∀ hook, read (some hook) = ctx.readBehindHook hook p '@' s ∧
          (read none).forms <+: (read (some hook)).forms := by
  intro host source read e
  have last : (read none).final.log.getLast? = some ⟨.signalError e, none⟩ := by decide +kernel
  have told : (read none).final.log.Signals e := ⟨_, List.mem_of_getLast? last, rfl⟩
  obtain ⟨c, ctx, opened, p, s, unknown, -, -, -, reached, -, -, hooked⟩ :=
    (hooks_conservative host true .initial source).2 e told rfl
  cases unknown
  have left : (read none).final.source.remaining = "c d".toList := by decide +kernel
  rw [reached] at left
  exact ⟨by decide +kernel, by decide +kernel, by decide +kernel, by decide +kernel, ctx, p, s, left,
    hooked⟩

end SexprReader
