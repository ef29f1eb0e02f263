import SexprReader.Proofs.Host.CallLog
import SexprReader.Proofs.Host.Simulation

/-! What a reader asks of its host. Behind the characters it has taken, a turn is nothing but calls of
the host, reports, and perhaps an error at the end, and which calls these are is decided by the answers
alone. So whatever holds of single calls holds of turns. -/

namespace SexprReader

open ReadM

variable {σ σ' V α β : Type}

theorem HostM.map_of_ok {m : HostM σ α} {s s' : σ} {a : α} (ok : m s = .ok a s') (f : α → β) :
    (f <$> m) s = .ok (f a) s' := by
  change EStateM.map f m s = _
  simp only [EStateM.map, ok]

theorem HostM.map_of_error {m : HostM σ α} {s s' : σ} {e : Failure} (error : m s = .error e s')
    (f : α → β) : (f <$> m) s = .error e s' := by
  change EStateM.map f m s = _
  simp only [EStateM.map, error]

theorem HostM.map_injective {f : α → β} (injective : f.Injective) {m m' : HostM σ α}
    (same : f <$> m = f <$> m') : m = m' := by
  funext s
  have same := congrFun same s
  cases result : m s with
  | ok a t =>
    rw [map_of_ok result] at same
    cases result' : m' s with
    | ok a' t' =>
      rw [map_of_ok result'] at same
      obtain ⟨values, rfl⟩ := EStateM.Result.ok.inj same
      rw [injective values]
    | error e t' =>
      rw [map_of_error result'] at same
      cases same
  | error e t =>
    rw [map_of_error result] at same
    cases result' : m' s with
    | ok a' t' =>
      rw [map_of_ok result'] at same
      cases same
    | error e' t' =>
      rw [map_of_error result'] at same
      cases same
      rfl

theorem Recorded.record_of_ok {work : HostM σ α} {h : Recorded σ V} {s : σ} {a : α}
    (ok : work h.state = .ok a s) {call : Call V} {result : α → Option V} :
    record call result work h = .ok a ⟨s, h.calls.push ⟨call, result a⟩⟩ := by
  simp only [record, ok]

theorem Recorded.record_of_error {work : HostM σ α} {h : Recorded σ V} {s : σ} {e : Failure}
    (error : work h.state = .error e s) {call : Call V} {result : α → Option V} :
    record call result work h = .error e ⟨s, h.calls.push ⟨call, none⟩⟩ := by
  simp only [record, error]

theorem ReadM.hosted_of_ok {work : HostM σ α} {h h' : σ} {source : Source} {trace : Array Event}
    {a : α} (ok : work h = .ok a h') :
    hosted work ⟨h, source, trace⟩ = .ok a ⟨h', source, trace⟩ := by
  simp only [hosted, ok]

theorem ReadM.hosted_of_error {work : HostM σ α} {h h' : σ} {source : Source} {trace : Array Event}
    {e : Failure} (error : work h = .error e h') :
    hosted work ⟨h, source, trace⟩ = .error e ⟨h', source, trace⟩ := by
  simp only [hosted, error]

theorem ReadM.hosted_bind (m : HostM σ α) (f : α → HostM σ β) :
    hosted (m >>= f) = hosted m >>= fun a => hosted (f a) := by
  funext ⟨host, source, trace⟩
  cases result : m host with
  | ok a host' =>
    rw [bind_of_ok (hosted_of_ok result), hosted_apply, hosted_apply]
    rw [HostM.bind_of_ok result]
  | error e host' =>
    rw [bind_of_error (hosted_of_error result)]
    exact hosted_of_error (HostM.bind_of_error result f)

/-- Makes a call. One that is made for its effect alone has no result. -/
def Host.call (host : Host σ V) : Call V → HostM σ (Option V)
  | .makePair first rest => some <$> host.makePair first rest
  | .setRest pair rest => (fun _ => none) <$> host.setRest pair rest
  | .makeString s => some <$> host.makeString s
  | .postProcessString v => some <$> host.postProcessString v
  | .internSymbol name => some <$> host.internSymbol name
  | .parseNumber text radix => some <$> host.parseNumber text radix
  | .listToVector list => some <$> host.listToVector list
  | .makeCharacter codePoint => some <$> host.makeCharacter codePoint
  | .signalError e => (fun _ => none) <$> host.signalError e

theorem Host.call_recorded (host : Host σ V) (call : Call V) :
    host.recorded.call call = Recorded.record call id (host.call call) := by
  have mapped {β : Type} (result : β → Option V) (work : HostM σ β) :
      result <$> Recorded.record call result work = Recorded.record call id (result <$> work) := by
    funext h
    cases made : work h.state with
    | ok b s =>
      rw [HostM.map_of_ok (Recorded.record_of_ok made),
        Recorded.record_of_ok (HostM.map_of_ok made result)]
      rfl
    | error e s =>
      rw [HostM.map_of_error (Recorded.record_of_error made),
        Recorded.record_of_error (HostM.map_of_error made result)]
  cases call <;> exact mapped _ _

/-- Two readers over hosts of their own have the same options and the same values to begin with. -/
structure Context.Alike (ctx : Context σ V) (ctx' : Context σ' V) : Prop where
  bracketLists : ctx.bracketLists = ctx'.bracketLists
  dot : ctx.dot = ctx'.dot
  quoteSymbol : ctx.quoteSymbol = ctx'.quoteSymbol
  eq : ctx.host.eq = ctx'.host.eq
  nil : ctx.host.nil = ctx'.host.nil
  false : ctx.host.false = ctx'.host.false
  endOfStream : ctx.host.endOfStream = ctx'.host.endOfStream
  constant? : ctx.host.constant? = ctx'.host.constant?
  nilSymbol? : ctx.host.nilSymbol? = ctx'.host.nilSymbol?

/-- The calls that neither change a pair nor make a vector of a list, ask for no symbol, and tell of no
error. -/
def Call.IsOrdinary : Call V → Prop
  | .setRest _ _ | .listToVector _ | .internSymbol _ | .signalError _ => False
  | _ => True

def Spine.last? : Spine V → Option V
  | .growing _ last | .dotted _ last => some last
  | .empty | .sealed _ _ => none

inductive MayCall (nil : V) (stack : Stack V) (found : Found) : Call V → Prop
  | ordinary {call : Call V} (ordinary : call.IsOrdinary) : MayCall nil stack found call
  | interns {text : List Char} (same : found = .part (.token text)) :
      MayCall nil stack found (.internSymbol (String.ofList text))
  | own {e : ReadError} (own : e.fault.IsOwn) : MayCall nil stack found (.signalError e)
  | reported {e : ReadError} (same : found = .part (.fault e.fault) ∨ found = .fault e.fault) :
      MayCall nil stack found (.signalError e)
  | setRest {bracket : Bracket} {spine : Spine V} {last : V} (rest : V)
      (inside : .list bracket spine ∈ stack) (ends : spine.last? = some last) :
      MayCall nil stack found (.setRest last rest)
  | listToVector {spine : Spine V} {outer : Stack V} (top : stack = .list .vector spine :: outer)
      (closes : found = .closer) : MayCall nil stack found (.listToVector (spine.head nil))

namespace ReadM

/-- Two computations over hosts of their own ask for the same things and go on in the same way as long
as the answers are the same. All that they ask for is asked by the given calls. -/
inductive Asks (asked : Call V → Prop) (ctx : Context σ V) (ctx' : Context σ' V) :
    ReadM σ α → ReadM σ' α → Prop
  | done (a : α) : Asks asked ctx ctx' (pure a) (pure a)
  | fail {fault : ReadFault} (asks : ∀ e : ReadError, e.fault = fault → asked (.signalError e)) :
      Asks asked ctx ctx' (ctx.fail fault) (ctx'.fail fault)
  | report (event : Event) {m : ReadM σ α} {m' : ReadM σ' α} (next : Asks asked ctx ctx' m m') :
      Asks asked ctx ctx' (report event >>= fun _ => m) (report event >>= fun _ => m')
  | call {β : Type} (call : Call V) (result : β → Option V) {work : HostM σ β} {work' : HostM σ' β}
      {f : β → ReadM σ α} {f' : β → ReadM σ' α} (injective : result.Injective) (asks : asked call)
      (silent : call.operation ≠ .signalError)
      (makes : ctx.host.call call = result <$> work) (makes' : ctx'.host.call call = result <$> work')
      (next : ∀ b, Asks asked ctx ctx' (f b) (f' b)) :
      Asks asked ctx ctx' (hosted work >>= f) (hosted work' >>= f')

namespace Asks

variable {asked : Call V → Prop} {ctx : Context σ V} {ctx' : Context σ' V}

theorem bind {m : ReadM σ α} {m' : ReadM σ' α} {f : α → ReadM σ β} {f' : α → ReadM σ' β}
    (first : Asks asked ctx ctx' m m') (next : ∀ a, Asks asked ctx ctx' (f a) (f' a)) :
    Asks asked ctx ctx' (m >>= f) (m' >>= f') := by
  induction first with
  | done a => simpa only [pure_bind] using next a
  | fail asks =>
    rw [ctx.fail_bind, ctx'.fail_bind]
    exact .fail asks
  | report event _ ih =>
    simp only [bind_assoc]
    exact .report event ih
  | call call result injective asks silent makes makes' _ ih =>
    simp only [bind_assoc]
    exact .call call result injective asks silent makes makes' ih

theorem ite {condition : Prop} [Decidable condition] {m n : ReadM σ α} {m' n' : ReadM σ' α}
    (yes : Asks asked ctx ctx' m m') (no : Asks asked ctx ctx' n n') :
    Asks asked ctx ctx' (if condition then m else n) (if condition then m' else n') := by
  split
  · exact yes
  · exact no

theorem value (call : Call V) {work : HostM σ V} {work' : HostM σ' V} {f : V → ReadM σ α}
    {f' : V → ReadM σ' α} (asks : asked call) (silent : call.operation ≠ .signalError)
    (makes : ctx.host.call call = some <$> work) (makes' : ctx'.host.call call = some <$> work')
    (next : ∀ v, Asks asked ctx ctx' (f v) (f' v)) :
    Asks asked ctx ctx' (hosted work >>= f) (hosted work' >>= f') :=
  .call call some (fun _ _ => Option.some.inj) asks silent makes makes' next

theorem last (call : Call V) {work : HostM σ V} {work' : HostM σ' V} (asks : asked call)
    (silent : call.operation ≠ .signalError)
    (makes : ctx.host.call call = some <$> work) (makes' : ctx'.host.call call = some <$> work') :
    Asks asked ctx ctx' (hosted work) (hosted work') := by
  rw [← bind_pure (hosted work), ← bind_pure (hosted work')]
  exact .value call asks silent makes makes' .done

end Asks

end ReadM

namespace Context

theorem Alike.refl (ctx : Context σ V) : ctx.Alike ctx := ⟨rfl, rfl, rfl, rfl, rfl, rfl, rfl, rfl, rfl⟩

variable {asked : Call V → Prop} {ctx : Context σ V} {ctx' : Context σ' V} (alike : ctx.Alike ctx')
  (ordinary : ∀ call : Call V, call.IsOrdinary → asked call)
  (own : ∀ e : ReadError, e.fault.IsOwn → asked (.signalError e))

theorem Alike.dialect_eq (alike : ctx.Alike ctx') : ctx.dialect = ctx'.dialect := by
  rw [dialect, dialect, alike.bracketLists, alike.constant?]

theorem makeSymbol_asks (alike : ctx.Alike ctx') {name : String}
    (interns : asked (.internSymbol name)) :
    Asks asked ctx ctx' (ctx.makeSymbol name) (ctx'.makeSymbol name) := by
  refine .value (.internSymbol name) interns nofun rfl rfl fun symbol => ?_
  simp only [alike.nilSymbol?, alike.eq, alike.nil]
  split <;> exact .done _

section

include ordinary

theorem makeString_asks (literal : String) :
    Asks asked ctx ctx' (ctx.makeString literal) (ctx'.makeString literal) :=
  .value (.makeString literal) (ordinary _ trivial) nofun rfl rfl fun made =>
    .last (.postProcessString made) (ordinary _ trivial) nofun rfl rfl

include alike

theorem makeToken_asks {token : String} (interns : asked (.internSymbol token)) :
    Asks asked ctx ctx' (ctx.makeToken token) (ctx'.makeToken token) := by
  refine .value (.parseNumber token 10) (ordinary _ trivial) nofun rfl rfl fun number => ?_
  simp only [alike.eq, alike.false]
  exact .ite (makeSymbol_asks alike interns) (.done _)

theorem makePair_asks (first : V) :
    Asks asked ctx ctx' (hosted (ctx.host.makePair first ctx.host.nil))
      (hosted (ctx'.host.makePair first ctx'.host.nil)) := by
  have makes : ctx'.host.call (.makePair first ctx.host.nil) =
      some <$> ctx'.host.makePair first ctx'.host.nil := by
    rw [alike.nil]
    rfl
  exact .last (.makePair first ctx.host.nil) (ordinary _ trivial) nofun rfl makes

include own

theorem makeNumber_asks (radix : Nat) (digits : String) :
    Asks asked ctx ctx' (ctx.makeNumber radix digits) (ctx'.makeNumber radix digits) := by
  refine .value (.parseNumber digits radix) (ordinary _ trivial) nofun rfl rfl fun number => ?_
  simp only [alike.eq, alike.false]
  exact .ite (.fail fun e same => own e (same ▸ trivial)) (.done _)

theorem perform_asks {lexeme : Lexeme}
    (interns : ∀ text, lexeme = .token text → asked (.internSymbol (String.ofList text)))
    (reported : ∀ e : ReadError, lexeme = .fault e.fault → asked (.signalError e)) :
    Asks asked ctx ctx' (ctx.perform lexeme) (ctx'.perform lexeme) := by
  cases lexeme with
  | endOfInput => exact .done _
  | comment => exact .done _
  | opening opening =>
    have frame : ctx.frameOf opening = ctx'.frameOf opening := by
      cases opening with
      | quoted mark => simp only [frameOf, alike.quoteSymbol]
      | _ => rfl
    simp only [perform, frame]
    exact .done _
  | constant kind =>
    simp only [perform, alike.constant?, alike.false]
    exact .done _
  | token text => exact .bind (makeToken_asks alike ordinary (interns text rfl)) fun _ => .done _
  | number radix digits => exact .bind (makeNumber_asks alike ordinary own _ _) fun _ => .done _
  | string literal => exact .bind (makeString_asks ordinary _) fun _ => .done _
  | character c =>
    exact .value (.makeCharacter c.toNat) (ordinary _ trivial) (by simp [Call.operation]) rfl rfl
      fun _ => .done _
  | fault reason => exact .fail fun e same => reported e (congrArg _ same.symm)

theorem append_asks (bracket : Bracket) {spine : Spine V} (form : V)
    (sets : ∀ last rest, spine.last? = some last → asked (.setRest last rest)) :
    Asks asked ctx ctx' (ctx.append bracket spine form) (ctx'.append bracket spine form) := by
  cases spine with
  | empty =>
    simp only [append, alike.eq, alike.dot]
    exact .ite (.fail fun e same => own e (same ▸ trivial))
      (.bind (makePair_asks alike ordinary form) fun _ => .done _)
  | growing head last =>
    simp only [append, alike.eq, alike.dot]
    refine .ite (.ite (.fail fun e same => own e (same ▸ trivial)) (.done _))
      (.bind (makePair_asks alike ordinary form) fun pair => ?_)
    exact .call (.setRest last pair) (fun _ => none) (fun _ _ _ => rfl) (sets _ _ rfl)
      (by simp [Call.operation]) rfl rfl fun _ => .done _
  | dotted head last =>
    exact .call (.setRest last form) (fun _ => none) (fun _ _ _ => rfl) (sets _ _ rfl)
      (by simp [Call.operation]) rfl rfl fun _ => .done _
  | «sealed» head last => exact .done _

theorem complete_asks {stack : Stack V} (form : Option V)
    (sets : ∀ bracket spine last rest, .list bracket spine ∈ stack → spine.last? = some last →
      asked (.setRest last rest)) :
    Asks asked ctx ctx' (ctx.complete stack form) (ctx'.complete stack form) := by
  induction stack generalizing form with
  | nil => exact .done _
  | cons frame outer ih =>
    have others (form : Option V) := ih form fun _ _ _ _ inside =>
      sets _ _ _ _ (List.mem_cons_of_mem _ inside)
    match frame, form with
    | .datumComment, none => exact others none
    | .datumComment, some _ => exact .report .discardedDatum (.done _)
    | .quoted mark _, none => exact .fail fun e same => own e (same ▸ trivial)
    | .quoted mark symbol, some form =>
      refine .bind (makePair_asks alike ordinary form) fun rest => ?_
      exact .value (.makePair symbol rest) (ordinary _ trivial) nofun rfl rfl
        fun pair => others (some pair)
    | .list bracket _, none => exact .fail fun e same => own e (same ▸ trivial)
    | .list bracket spine, some form =>
      exact .bind (append_asks alike ordinary own bracket form fun _ _ =>
        sets _ _ _ _ List.mem_cons_self) fun _ => .done _

end

theorem close_asks (alike : ctx.Alike ctx') (bracket : Bracket) {spine : Spine V}
    (asks : bracket = .vector → asked (.listToVector (spine.head ctx.host.nil))) :
    Asks asked ctx ctx' (ctx.close bracket spine) (ctx'.close bracket spine) := by
  rw [close_eq, close_eq, alike.nil]
  rw [alike.nil] at asks
  split
  next vector => exact .last (.listToVector _) (asks vector) nofun rfl rfl
  next => exact .done _

/-- What a turn asks for is decided by what it has found, and by the forms that are open. -/
theorem answer_asks (alike : ctx.Alike ctx') (stack : Stack V) (found : Found) :
    Asks (MayCall ctx.host.nil stack found) ctx ctx' (ctx.answer stack found)
      (ctx'.answer stack found) := by
  have complete {outer : Stack V} (within : ∀ frame ∈ outer, frame ∈ stack) (form : Option V) :
      Asks (MayCall ctx.host.nil stack found) ctx ctx' (ctx.complete outer form)
        (ctx'.complete outer form) :=
    complete_asks alike (fun _ => .ordinary) (fun _ => .own) form
      fun _ _ _ rest inside ends => .setRest rest (within _ inside) ends
  match found, stack with
  | .part lexeme, stack =>
    refine .bind (perform_asks alike (fun _ => .ordinary) (fun _ => .own)
      (fun text same => .interns (same ▸ rfl)) fun e same => .reported (.inl (same ▸ rfl)))
      fun start => ?_
    cases start with
    | whole form => exact complete (fun _ inside => inside) (some form)
    | comment => exact .done _
    | opening frame => exact .done _
    | endOfInput => exact complete (fun _ inside => inside) none
  | .fault reason, _ => exact .fail fun e same => .reported (.inr (same ▸ rfl))
  | .closer, .list bracket spine :: outer =>
    refine .bind (close_asks alike bracket fun vector => ?_) fun v =>
      complete (fun _ inside => List.mem_cons_of_mem _ inside) (some v)
    subst vector
    exact .listToVector rfl rfl
  | .closer, [] => exact .done _
  | .closer, .quoted _ _ :: _ => exact .done _
  | .closer, .datumComment :: _ => exact .done _

end Context

end SexprReader
