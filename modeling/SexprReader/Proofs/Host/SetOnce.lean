import SexprReader.Proofs.Host.Ownership
import SexprReader.Store

namespace SexprReader

open ReadM CallLog

variable {σ V α : Type}

def Frame.Marked (ctx : Context σ V) (frame : Frame V) : Prop :=
  ∀ mark symbol, frame = .quoted mark symbol → symbol = ctx.quoteSymbol mark

def Stack.Marked (ctx : Context σ V) (stack : Stack V) : Prop := ∀ frame ∈ stack, frame.Marked ctx

def FormStart.Held (ctx : Context σ V) (lists : List (OpenList V)) (log : CallLog V) :
    FormStart V → Prop
  | .whole form => Loose ctx.host.constants log lists form
  | .opening frame => frame.lists = [] ∧ frame.Marked ctx
  | .comment | .endOfInput => True

def Progress.Held (ctx : Context σ V) (past : Past V) (log : CallLog V) : Progress V → Prop
  | .pending stack => Safe ctx past stack.lists log ∧ stack.Marked ctx
  | .finished form => Orderly ctx past log ∧ form.elim True (Known ctx.host.constants log)

abbrev Keeps (ctx : Context σ V) (past : Past V) (P : CallLog V → Prop)
    (m : ReadM (Recorded σ V) α) (Q : α → CallLog V → Prop) : Prop :=
  Upholds ctx.host.constants P m Q (Orderly ctx past)

section

variable {ctx : Context σ V} {past : Past V} {lists outer : List (OpenList V)}

theorem Keeps.call {call : Call V} {work : HostM σ V} (makes : call.operation ≠ .makePair)
    (sets : call.operation ≠ .setRest) :
    Keeps ctx past
      (fun log => Safe ctx past lists log ∧
        ∀ v ∈ call.arguments, Loose ctx.host.constants log lists v)
      (hosted (Recorded.record call some work))
      (fun v log => Safe ctx past lists log ∧ Loose ctx.host.constants log lists v) := by
  apply Upholds.hosted
  · rintro log v ⟨safe, loose⟩ told -
    exact ⟨safe.call loose makes sets _, safe.loose_of_result loose makes told⟩
  · rintro log ⟨safe, loose⟩ -
    exact (safe.call loose makes sets none).orderly

theorem Keeps.call_plain {call : Call V} {work : HostM σ V} (plain : call.arguments = [])
    (makes : call.operation ≠ .makePair) (sets : call.operation ≠ .setRest) :
    Keeps ctx past (Safe ctx past lists) (hosted (Recorded.record call some work))
      (fun v log => Safe ctx past lists log ∧ Loose ctx.host.constants log lists v) :=
  .of_imp (fun _ _ safe => ⟨safe, by simp [plain]⟩) (Keeps.call makes sets)

theorem Keeps.makePair (first : V) :
    Keeps ctx past
      (fun log => Safe ctx past lists log ∧ Loose ctx.host.constants log lists first)
      (hosted (ctx.recorded.host.makePair first ctx.recorded.host.nil))
      (fun pair log => Safe ctx past lists log ∧ Loose ctx.host.constants log lists pair ∧
        Untouched ctx.host.nil past log pair) := by
  apply Upholds.hosted
  · rintro log pair ⟨safe, loose⟩ told distinct
    have fresh : ¬Known ctx.host.constants log pair := told pair rfl
    have nil := safe.loose_nil distinct
    exact ⟨safe.makePair loose nil (absurd rfl) _, safe.loose_of_made fresh,
      safe.untouched_of_made loose.known fresh⟩
  · rintro log ⟨safe, loose⟩ distinct
    exact (safe.makePair loose (safe.loose_nil distinct) (absurd rfl) none).orderly

theorem Keeps.makeQuote (mark : QuoteMark) (symbol rest : V) :
    Keeps ctx past
      (fun log => (Safe ctx past lists log ∧ Loose ctx.host.constants log lists rest ∧
        Untouched ctx.host.nil past log rest) ∧ symbol = ctx.quoteSymbol mark)
      (hosted (ctx.recorded.host.makePair symbol rest))
      (fun pair log => Safe ctx past lists log ∧ Loose ctx.host.constants log lists pair) := by
  apply Upholds.hosted
  · rintro log pair ⟨⟨safe, loose, untouched⟩, rfl⟩ told distinct
    have fresh : ¬Known ctx.host.constants log pair := told pair rfl
    refine ⟨safe.makePair (safe.loose_symbol distinct mark) loose (fun _ => ?_) _,
      safe.loose_of_made fresh⟩
    exact ⟨⟨mark, rfl⟩, untouched.made, untouched.unchanged⟩
  · rintro log ⟨⟨safe, loose, untouched⟩, rfl⟩ distinct
    refine (safe.makePair (safe.loose_symbol distinct mark) loose (fun _ => ?_) none).orderly
    exact ⟨⟨mark, rfl⟩, untouched.made, untouched.unchanged⟩

theorem Keeps.setTail {head last : V} (listed : past.lists head last) (tail : V) :
    Keeps ctx past
      (fun log => Safe ctx past (⟨head, last, false⟩ :: outer) log ∧
        Loose ctx.host.constants log (⟨head, last, false⟩ :: outer) tail)
      (hosted (ctx.recorded.host.setRest last tail))
      (fun _ log => Safe ctx past (⟨head, last, true⟩ :: outer) log) := by
  apply Upholds.hosted
  · rintro log _ ⟨safe, loose⟩ - -
    exact safe.setTail loose _ listed
  · rintro log ⟨safe, loose⟩ -
    exact safe.setRest_orderly loose none listed

theorem Keeps.setNext {head last : V} (listed : past.lists head last) (pair : V) :
    Keeps ctx past
      (fun log => Safe ctx past (⟨head, last, false⟩ :: outer) log ∧
        Loose ctx.host.constants log (⟨head, last, false⟩ :: outer) pair ∧
        Untouched ctx.host.nil past log pair)
      (hosted (ctx.recorded.host.setRest last pair))
      (fun _ log => Safe ctx past (⟨head, pair, false⟩ :: outer) log) := by
  apply Upholds.hosted
  · rintro log _ ⟨safe, loose, untouched⟩ - -
    exact safe.setNext loose _ listed untouched
  · rintro log ⟨safe, loose, -⟩ -
    exact safe.setRest_orderly loose none listed

end

theorem Host.constant_mem_constants (host : Host σ V) (kind : Constant) :
    (host.constant? kind).getD host.false ∈ host.constants := by
  have listed : ∀ v ∈ host.constant? kind, v ∈ host.constants := by
    cases kind <;> simp +contextual [constant?, constants]
  cases found : host.constant? kind with
  | none => simp [constants]
  | some v => exact listed v found

namespace Context

variable {ctx : Context σ V} {past : Past V} {lists outer : List (OpenList V)}

theorem fail_keeps (fault : ReadFault) {Q : α → CallLog V → Prop} :
    Keeps ctx past (Safe ctx past lists) (ctx.recorded.fail fault : ReadM (Recorded σ V) α) Q := by
  apply Upholds.get_bind
  intro s
  refine .bind (.hostFree (.report _) (fun _ _ safe => safe) fun _ safe => safe.orderly) fun _ => ?_
  refine .bind (Q := fun _ => Safe ctx past lists) ?_ fun _ => .throw fun _ safe => safe.orderly
  apply Upholds.hosted
  · rintro log _ safe - -
    exact safe.call (by simp [Call.arguments]) (by simp [Call.operation]) (by simp [Call.operation]) _
  · rintro log safe -
    exact (safe.call (by simp [Call.arguments]) (by simp [Call.operation])
      (by simp [Call.operation]) none).orderly

theorem makeSymbol_keeps (name : String) :
    Keeps ctx past (Safe ctx past lists) (ctx.recorded.makeSymbol name)
      (fun v log => Safe ctx past lists log ∧ Loose ctx.host.constants log lists v) := by
  refine .bind (Keeps.call_plain rfl nofun nofun) fun symbol => ?_
  split
  · refine .pure fun log distinct safe => ⟨safe.1, ?_⟩
    split
    · exact safe.1.loose_nil distinct
    · exact safe.2
  · exact .pure fun _ _ safe => safe

theorem makeToken_keeps (token : String) :
    Keeps ctx past (Safe ctx past lists) (ctx.recorded.makeToken token)
      (fun v log => Safe ctx past lists log ∧ Loose ctx.host.constants log lists v) := by
  refine .bind (Keeps.call_plain rfl nofun nofun) fun number => ?_
  exact .ite (.of_imp (fun _ _ safe => safe.1) (makeSymbol_keeps token)) (.pure fun _ _ safe => safe)

theorem makeNumber_keeps (radix : Nat) (digits : String) :
    Keeps ctx past (Safe ctx past lists) (ctx.recorded.makeNumber radix digits)
      (fun v log => Safe ctx past lists log ∧ Loose ctx.host.constants log lists v) := by
  refine .bind (Keeps.call_plain rfl nofun nofun) fun number => ?_
  exact .ite (.of_imp (fun _ _ safe => safe.1) (fail_keeps _)) (.pure fun _ _ safe => safe)

theorem makeString_keeps (literal : String) :
    Keeps ctx past (Safe ctx past lists) (ctx.recorded.makeString literal)
      (fun v log => Safe ctx past lists log ∧ Loose ctx.host.constants log lists v) := by
  refine .bind (Keeps.call_plain rfl nofun nofun) fun made => ?_
  refine .of_imp (fun _ _ safe => ⟨safe.1, by simpa [Call.arguments] using safe.2⟩)
    (Keeps.call nofun nofun)

theorem perform_keeps (lexeme : Lexeme) :
    Keeps ctx past (Safe ctx past lists) (ctx.recorded.perform lexeme)
      (fun start log => Safe ctx past lists log ∧ start.Held ctx lists log) := by
  cases lexeme with
  | endOfInput => exact .pure fun _ _ safe => ⟨safe, trivial⟩
  | comment => exact .pure fun _ _ safe => ⟨safe, trivial⟩
  | opening opening =>
    refine .pure fun _ _ safe => ⟨safe, ?_⟩
    cases opening with
    | quoted mark => exact ⟨rfl, by simp [Frame.Marked, frameOf, recorded]⟩
    | list bracket => exact ⟨rfl, by simp [Frame.Marked, frameOf]⟩
    | datumComment => exact ⟨rfl, by simp [Frame.Marked, frameOf]⟩
  | constant kind =>
    refine .pure fun _ distinct safe => ⟨safe, safe.loose_of_constant distinct ?_⟩
    exact ctx.host.constant_mem_constants kind
  | token text => exact .bind (makeToken_keeps _) fun _ => .pure fun _ _ safe => safe
  | number radix digits => exact .bind (makeNumber_keeps _ _) fun _ => .pure fun _ _ safe => safe
  | string literal => exact .bind (makeString_keeps _) fun _ => .pure fun _ _ safe => safe
  | character c =>
    refine .bind (Keeps.call_plain rfl nofun nofun) fun _ => ?_
    exact .pure fun _ _ safe => safe
  | fault reason => exact fail_keeps reason

theorem append_keeps (bracket : Bracket) (spine : Spine V) (form : V)
    (listed : ∀ list ∈ spine.lists, past.lists list.head list.last) :
    Keeps ctx past
      (fun log => Safe ctx past (spine.lists ++ outer) log ∧
        Loose ctx.host.constants log (spine.lists ++ outer) form)
      (ctx.recorded.append bracket spine form)
      (fun spine log => Safe ctx past (spine.lists ++ outer) log) := by
  cases spine with
  | empty =>
    refine .ite (.of_imp (fun _ _ holds => holds.1) (fail_keeps _)) ?_
    refine .bind (Keeps.makePair form) fun pair => .pure fun log _ holds => ?_
    obtain ⟨safe, loose, untouched⟩ := holds
    exact safe.begin_list loose untouched
  | growing head last =>
    have listed : past.lists head last := listed ⟨head, last, false⟩ List.mem_cons_self
    refine .ite (.ite (.of_imp (fun _ _ holds => holds.1) (fail_keeps _))
      (.pure fun _ _ holds => holds.1)) ?_
    refine .bind (Keeps.makePair form) fun pair => ?_
    exact .bind (Keeps.setNext listed pair) fun _ => .pure fun _ _ safe => safe
  | dotted head last =>
    have listed : past.lists head last := listed ⟨head, last, false⟩ List.mem_cons_self
    exact .bind (Keeps.setTail listed form) fun _ => .pure fun _ _ safe => safe
  | «sealed» head last => exact .pure fun _ _ holds => holds.1

theorem close_keeps (bracket : Bracket) (spine : Spine V) :
    Keeps ctx past (Safe ctx past (spine.lists ++ outer)) (ctx.recorded.close bracket spine)
      (fun v log => Safe ctx past outer log ∧ Loose ctx.host.constants log outer v) := by
  have loosens : ∀ log, DistinctPairs ctx.host.constants log →
      Safe ctx past (spine.lists ++ outer) log →
      Safe ctx past outer log ∧ Loose ctx.host.constants log outer (spine.head ctx.host.nil) := by
    intro log distinct safe
    cases spine with
    | empty => exact ⟨safe, safe.loose_nil distinct⟩
    | growing head last => exact safe.close
    | dotted head last => exact safe.close
    | «sealed» head last => exact safe.close
  have nil : ctx.recorded.host.nil = ctx.host.nil := rfl
  rw [close_eq, nil]
  apply Upholds.of_imp loosens
  refine .ite ?_ (.pure fun _ _ holds => holds)
  refine .of_imp (fun _ _ holds => ⟨holds.1, ?_⟩) (Keeps.call (by simp [Call.operation])
    (by simp [Call.operation]))
  simpa [Call.arguments] using holds.2

theorem complete_keeps {stack : Stack V}
    (listed : ∀ list ∈ stack.lists, past.lists list.head list.last) (form : Option V) :
    Keeps ctx past
      (fun log => (Safe ctx past stack.lists log ∧
        form.elim True (Loose ctx.host.constants log stack.lists)) ∧ stack.Marked ctx)
      (ctx.recorded.complete stack form) (fun progress log => progress.Held ctx past log) := by
  induction stack generalizing form with
  | nil =>
    cases form with
    | none => exact .pure fun _ _ holds => ⟨holds.1.1.orderly, trivial⟩
    | some form => exact .pure fun _ _ holds => ⟨holds.1.1.orderly, holds.1.2.known⟩
  | cons frame outer ih =>
    match frame, form with
    | .datumComment, none =>
      exact .of_imp (fun _ _ holds => ⟨holds.1, (List.forall_mem_cons.mp holds.2).2⟩) (ih listed none)
    | .datumComment, some _ =>
      exact .bind (.hostFree (.report _) (fun _ _ holds => holds) fun _ holds => holds.1.1.orderly)
        fun _ => .pure fun _ _ holds => ⟨holds.1.1, (List.forall_mem_cons.mp holds.2).2⟩
    | .quoted mark symbol, none => exact .of_imp (fun _ _ holds => holds.1.1) (fail_keeps _)
    | .quoted mark symbol, some form =>
      refine .bind (.frame _ (Keeps.makePair form)) fun rest => ?_
      refine .bind (.of_imp (fun _ _ holds => ?_)
        (.frame (Stack.Marked ctx outer) (Keeps.makeQuote mark symbol rest)))
        fun pair => ih listed (some pair)
      obtain ⟨marked, marked'⟩ := List.forall_mem_cons.mp holds.2
      exact ⟨⟨holds.1, marked mark symbol rfl⟩, marked'⟩
    | .list bracket spine, none => exact .of_imp (fun _ _ holds => holds.1.1) (fail_keeps _)
    | .list bracket spine, some form =>
      have listed : ∀ list ∈ spine.lists, past.lists list.head list.last := fun list member =>
        listed list (List.mem_append_left _ member)
      refine .bind (.frame _ (append_keeps bracket spine form listed)) fun spine => ?_
      exact .pure fun _ _ holds => ⟨holds.1, List.forall_mem_cons.mpr ⟨nofun, (List.forall_mem_cons.mp holds.2).2⟩⟩

theorem finishPart_keeps {stack : Stack V}
    (listed : ∀ list ∈ stack.lists, past.lists list.head list.last) (start : FormStart V) :
    Keeps ctx past
      (fun log => (Safe ctx past stack.lists log ∧ start.Held ctx stack.lists log) ∧
        stack.Marked ctx)
      (ctx.recorded.finishPart stack start) (fun progress log => progress.Held ctx past log) := by
  cases start with
  | whole form => exact complete_keeps listed (some form)
  | comment => exact .pure fun _ _ holds => ⟨holds.1.1, holds.2⟩
  | opening frame =>
    refine .pure fun _ _ holds => ⟨?_, List.forall_mem_cons.mpr ⟨holds.1.2.2, holds.2⟩⟩
    rw [Stack.lists, List.flatMap_cons, holds.1.2.1]
    exact holds.1.1
  | endOfInput => exact complete_keeps listed none

theorem turn_keeps {stack : Stack V}
    (listed : ∀ list ∈ stack.lists, past.lists list.head list.last) :
    Keeps ctx past (fun log => Safe ctx past stack.lists log ∧ stack.Marked ctx)
      (ctx.recorded.turn stack) (fun progress log => progress.Held ctx past log) := by
  rw [turn_eq]
  refine .bind (.hostFree (Dialect.takeTurn_hostFree _ _) (fun _ _ holds => holds)
    fun _ holds => holds.1.orderly) fun found => ?_
  match found, stack with
  | .part lexeme, stack =>
    exact .bind (.frame _ (perform_keeps lexeme)) fun start => finishPart_keeps listed start
  | .fault reason, stack => exact .of_imp (fun _ _ holds => holds.1) (fail_keeps reason)
  | .closer, .list bracket spine :: outer =>
    refine .bind (.frame _ (close_keeps bracket spine)) fun v => ?_
    refine .of_imp (fun _ _ holds => ⟨holds.1, (List.forall_mem_cons.mp holds.2).2⟩) (complete_keeps ?_ (some v))
    exact fun list member => listed list (List.mem_append_right _ member)
  | .closer, [] => exact .pure fun _ _ holds => holds
  | .closer, .quoted _ _ :: _ => exact .pure fun _ _ holds => holds
  | .closer, .datumComment :: _ => exact .pure fun _ _ holds => holds

theorem orderly_of_create {host : Host σ V} {bracketLists : Bool} {initial : σ}
    {ctx : Context (Recorded σ V) V} {opened : Recorded σ V}
    (creates : create host.recorded bracketLists ⟨initial, #[]⟩ = .ok ctx opened) :
    ∃ plain : Context σ V, ctx = plain.recorded ∧ plain.host = host ∧
      Orderly plain .none opened.calls.toList := by
  obtain ⟨dot, s₁, first, creates⟩ := HostM.exists_of_bind_ok creates
  obtain ⟨quote, s₂, second, creates⟩ := HostM.exists_of_bind_ok creates
  obtain ⟨quasiquote, s₃, third, creates⟩ := HostM.exists_of_bind_ok creates
  obtain ⟨unquote, s₄, fourth, creates⟩ := HostM.exists_of_bind_ok creates
  obtain ⟨splicing, s₅, fifth, creates⟩ := HostM.exists_of_bind_ok creates
  cases creates
  have calls := Host.calls_of_internSymbol_ok fifth
  rw [Host.calls_of_internSymbol_ok fourth, Host.calls_of_internSymbol_ok third,
    Host.calls_of_internSymbol_ok second, Host.calls_of_internSymbol_ok first] at calls
  refine ⟨⟨host, bracketLists, dot, _⟩, rfl, rfl, ?_⟩
  have interns : ∀ record ∈ opened.calls.toList, ∃ name, record.call = .internSymbol name := by
    rw [calls]
    simp
  exact {
    arguments := fun record member v argument => by
      obtain ⟨name, call⟩ := interns record member
      simp [call, Call.arguments] at argument
    symbols := fun mark => by
      rw [calls]
      exact ⟨mark.symbolName, by cases mark <;> simp⟩
    returned := nofun
    listed := nofun
    unique := nofun
    sets := fun i pair rest result found => by
      obtain ⟨name, call⟩ := interns _ (List.mem_of_getElem? found)
      cases call
    quotes := fun first rest result member => by
      obtain ⟨name, call⟩ := interns _ member
      cases call }

def seen (ctx : Context (Recorded σ V) V) (start : ReadState (Recorded σ V)) : Nat → Past V
  | 0 => .none
  | turns + 1 => (ctx.seen start turns).behind (ctx.moment start (turns + 1))

end Context

structure Moment.Kept (ctx : Context σ V) (past : Past V) (moment : Moment (Recorded σ V) V) :
    Prop where
  held : DistinctPairs ctx.host.constants moment.state.log →
    Safe ctx past moment.stack.lists moment.state.log ∧ moment.stack.Marked ctx
  listed : ∀ list ∈ moment.stack.lists, past.lists list.head list.last

namespace Moment.Kept

variable {ctx : Context σ V} {past : Past V} {moment : Moment (Recorded σ V) V}

theorem grows (kept : moment.Kept ctx past) :
    moment.state.log <+: (ctx.recorded.next moment).state.log := by
  have grows := (Context.turn_keeps kept.listed moment.state kept.held).1
  unfold Context.next
  split <;> simp_all [finalState]

theorem next (kept : moment.Kept ctx past) :
    (ctx.recorded.next moment).Kept ctx (past.behind (ctx.recorded.next moment)) where
  held distinct := by
    have ends := (Context.turn_keeps kept.listed moment.state kept.held).2
    -- Whatever the turn comes to, the pairs that were open are still the reader's own, or no longer
    -- open.
    cases turned : ctx.recorded.turn moment.stack moment.state with
    | error e s =>
      have goes : ctx.recorded.next moment = ⟨[], s, none⟩ := by simp [Context.next, turned]
      rw [turned] at ends
      rw [goes] at distinct ⊢
      have orderly : Orderly ctx past s.log := ends distinct
      have owns := OwnsAll.none_open ctx.host.nil past s.log
      exact ⟨⟨orderly.behind owns (by simp), owns.behind (.inr rfl)⟩, by simp [Stack.Marked]⟩
    | ok progress s =>
      rw [turned] at ends
      cases progress with
      | pending stack =>
        have goes : ctx.recorded.next moment = ⟨stack, s, none⟩ := by simp [Context.next, turned]
        rw [goes] at distinct ⊢
        obtain ⟨safe, marked⟩ := ends distinct
        exact ⟨⟨safe.orderly.behind safe.owns (by simp), safe.owns.behind (.inl rfl)⟩, marked⟩
      | finished form =>
        have goes : ctx.recorded.next moment =
            ⟨[], s, some (form.getD ctx.recorded.host.endOfStream)⟩ := by
          simp [Context.next, turned]
        rw [goes] at distinct ⊢
        obtain ⟨orderly, known⟩ := ends distinct
        have owns := OwnsAll.none_open ctx.host.nil past s.log
        refine ⟨⟨orderly.behind owns ?_, owns.behind (.inr rfl)⟩, by simp [Stack.Marked]⟩
        intro v returned
        obtain rfl := Option.some.inj returned
        cases form with
        | none => exact .inl (by simp [Host.constants, Context.recorded, Host.recorded])
        | some form => exact known
  listed list member := .inr ⟨list, member, rfl, rfl⟩

end Moment.Kept

section

variable {ctx : Context σ V} {start : ReadState (Recorded σ V)}

theorem Orderly.kept_moment (begins : Orderly ctx .none start.log) (turns : Nat) :
    (ctx.recorded.moment start turns).Kept ctx (ctx.recorded.seen start turns) := by
  induction turns with
  | zero =>
    exact ⟨fun _ => ⟨⟨begins, .none_open _ _ _⟩, nofun⟩, nofun⟩
  | succ turns ih => exact ih.next

theorem Orderly.log_moment (begins : Orderly ctx .none start.log) {turns later : Nat}
    (le : turns ≤ later) :
    (ctx.recorded.moment start turns).state.log <+: (ctx.recorded.moment start later).state.log := by
  induction le with
  | refl => exact List.prefix_rfl
  | step _ ih => exact ih.trans (begins.kept_moment _).grows

theorem Context.seen_lists (ctx : Context (Recorded σ V) V) {turns turn : Nat} (le : turn ≤ turns)
    {list : OpenList V} (member : list ∈ (ctx.moment start turn).stack.lists) :
    (ctx.seen start turns).lists list.head list.last := by
  induction le with
  | refl =>
    cases turn with
    | zero => cases member
    | succ turn => exact .inr ⟨list, member, rfl, rfl⟩
  | step _ ih => exact .inl ih

theorem Context.exists_of_seen_lists (ctx : Context (Recorded σ V) V) {turns : Nat} {head last : V}
    (listed : (ctx.seen start turns).lists head last) :
    ∃ turn ≤ turns, ∃ list ∈ (ctx.moment start turn).stack.lists,
      list.head = head ∧ list.last = last := by
  induction turns with
  | zero => cases listed
  | succ turns ih =>
    obtain earlier | now := listed
    · obtain ⟨turn, le, found⟩ := ih earlier
      exact ⟨turn, Nat.le_succ_of_le le, found⟩
    · exact ⟨turns + 1, Nat.le_refl _, now⟩

theorem Context.seen_returned (ctx : Context (Recorded σ V) V) {turns turn : Nat} (le : turn ≤ turns)
    {form : V} (returned : (ctx.moment start turn).returned = some form) :
    (ctx.seen start turns).returned form (ctx.moment start turn).state.log.length := by
  induction le with
  | refl =>
    cases turn with
    | zero => cases returned
    | succ turn => exact .inr ⟨returned, rfl⟩
  | step _ ih => exact .inl ih

end

/-- By the time of these calls a list with the given head has been open whose last pair was the given
one. -/
def Context.ListHolds (ctx : Context (Recorded σ V) V) (start : ReadState (Recorded σ V))
    (log : CallLog V) (head pair : V) : Prop :=
  ∃ turns, (ctx.moment start turns).state.log <+: log ∧
    ∃ list ∈ (ctx.moment start turns).stack.lists, list.head = head ∧ list.last = pair

/-- Every host is called to set the rest of a pair once at most, and only for a pair made over the
empty list, as long as the head of its list was neither handed over nor returned. The two pairs of a
quote are never changed. This takes a host that can tell the pairs it makes from its other values. -/
theorem setRest_once (host : Host σ V) (bracketLists : Bool) (initial : σ)
    {ctx : Context (Recorded σ V) V} {opened : Recorded σ V}
    (creates : Context.create host.recorded bracketLists ⟨initial, #[]⟩ = .ok ctx opened)
    (source : Source) (reads : Nat) :
    let start : ReadState (Recorded σ V) := ⟨opened, source, #[]⟩
    let log := (ctx.afterReads start reads).log
    DistinctPairs host.constants log →
      (∀ (i : Nat) (pair rest : V) (result : Option V),
        log[i]? = some ⟨.setRest pair rest, result⟩ →
          MadeOver (log.take i) host.nil pair ∧ ¬Changed (log.take i) pair ∧
          (∃ head, ctx.ListHolds start log head pair) ∧
          ∀ head, ctx.ListHolds start log head pair →
            ¬HandedOver (log.take i) head ∧
            ∀ earlier < reads, ∀ s, ctx.readForm none (ctx.afterReads start earlier) = .ok head s →
              i < s.log.length) ∧
      (∀ (first rest : V) (result : Option V), ⟨.makePair first rest, result⟩ ∈ log →
        rest ≠ host.nil →
          (∃ mark, first = ctx.quoteSymbol mark) ∧ ¬Changed log rest ∧
          ∀ pair ∈ result, ¬Changed log pair) := by
  intro start log distinct
  obtain ⟨plain, rfl, rfl, begins⟩ := Context.orderly_of_create creates
  obtain ⟨turns, -, reached, returns⟩ := plain.recorded.exists_moment_of_reads start reads
  have log_eq : (plain.recorded.moment start turns).state.log = log := by rw [reached]
  have orderly {later : Nat} (same : (plain.recorded.moment start later).state.log = log) :
      Orderly plain (plain.recorded.seen start later) log := by
    have safe := ((begins.kept_moment later).held (same ▸ distinct)).1
    exact same ▸ safe.orderly
  refine ⟨fun i pair rest result found => ?_, fun first rest result member linked => ?_⟩
  · obtain ⟨made, unchanged, head, listed, -⟩ := (orderly log_eq).sets i pair rest result found
    refine ⟨made, unchanged, ⟨head, ?_⟩, ?_⟩
    · obtain ⟨turn, le, found⟩ := plain.recorded.exists_of_seen_lists listed
      exact ⟨turn, log_eq ▸ begins.log_moment le, found⟩
    · rintro _ ⟨turn, before, list, member, rfl, rfl⟩
      -- Moments behind the last read do not matter unless they have made no more calls.
      have same : (plain.recorded.moment start (max turns turn)).state.log = log := by
        obtain le | le := Nat.le_total turn turns
        · rwa [Nat.max_eq_left le]
        · rw [Nat.max_eq_right le]
          exact before.eq_of_length_le (log_eq ▸ begins.log_moment le).length_le
      obtain ⟨-, -, head, listed, kept, unreturned⟩ := (orderly same).sets i _ rest result found
      obtain rfl := (orderly same).unique _ _ _ listed
        (plain.recorded.seen_lists (Nat.le_max_right turns turn) member)
      refine ⟨kept, fun earlier less s read => ?_⟩
      obtain ⟨turn', le, returned, rfl⟩ := returns earlier less _ s read
      apply unreturned
      exact plain.recorded.seen_returned (Nat.le_trans le (Nat.le_max_left turns turn)) returned
  · obtain ⟨mark, made, unchanged⟩ := (orderly log_eq).quotes first rest result member linked
    refine ⟨mark, unchanged, ?_⟩
    rintro pair rfl ⟨new, outcome, changed⟩
    obtain ⟨i, found⟩ := List.getElem?_of_mem changed
    obtain ⟨⟨first', made'⟩, -⟩ := (orderly log_eq).sets i pair new outcome found
    have twice := distinct.eq_of_makes member (List.mem_of_mem_take made') rfl rfl rfl rfl
    cases twice
    exact linked rfl

/-- A quote in front of a dotted tail which is a list. -/
theorem setRest_once_dotted_quote :
    ∃ ctx opened, Context.create (Store.host .standard).recorded true ⟨Store.initial, #[]⟩ =
        .ok ctx opened ∧
      let start : ReadState (Recorded Store Value) :=
        ⟨opened, .ofText "('b . (c))".toList 1 0 none, #[]⟩
      let log := (ctx.afterReads start 1).log
      DistinctPairs (Store.host .standard).constants log ∧
        log[15]? = some ⟨.setRest (.pair 2) (.pair 3), none⟩ ∧
        ⟨.makePair (.symbol ⟨1, "quote"⟩) (.pair 0), some (.pair 1)⟩ ∈ log ∧
        MadeOver (log.take 15) .nil (.pair 2) ∧ ¬Changed (log.take 15) (.pair 2) ∧
        ¬Changed log (.pair 0) ∧ ¬Changed log (.pair 1) := by
  refine ⟨_, _, rfl, ?_⟩
  have once := setRest_once (Store.host .standard) true Store.initial rfl
    (.ofText "('b . (c))".toList 1 0 none) 1 (by decide +kernel)
  have set := once.1 15 (.pair 2) (.pair 3) none (by decide +kernel)
  have quoted := once.2 (.symbol ⟨1, "quote"⟩) (.pair 0) (some (.pair 1)) (by decide +kernel) nofun
  exact ⟨by decide +kernel, by decide +kernel, by decide +kernel, set.1, set.2.1, quoted.2.1,
    quoted.2.2 _ rfl⟩

end SexprReader
