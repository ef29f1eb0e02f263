import SexprReader.Proofs.Host.Mirror

namespace SexprReader

open ReadM Store

variable {σ V : Type}

structure Names.Matches (meaning : V → Option Value) (names : Names V) (names' : Names Value) :
    Prop where
  bracketLists : names.bracketLists = names'.bracketLists
  dot : Held meaning names.dot names'.dot
  named : names'.dot.isNamed = true
  quoteSymbol : ∀ mark, Held meaning (names.quoteSymbol mark) (names'.quoteSymbol mark)

inductive Spine.Matches (meaning : V → Option Value) : Spine V → Spine Value → Prop
  | empty : Matches meaning .empty .empty
  | growing {head last : V} {head' last' : Value} (begins : Held meaning head head')
      (ends : Held meaning last last') : Matches meaning (.growing head last) (.growing head' last')
  | dotted {head last : V} {head' last' : Value} (begins : Held meaning head head')
      (ends : Held meaning last last') : Matches meaning (.dotted head last) (.dotted head' last')
  | sealed {head last : V} {head' last' : Value} (begins : Held meaning head head')
      (ends : Held meaning last last') : Matches meaning (.sealed head last) (.sealed head' last')

inductive Frame.Matches (meaning : V → Option Value) : Frame V → Frame Value → Prop
  | list {spine : Spine V} {spine' : Spine Value} (bracket : Bracket)
      (spines : spine.Matches meaning spine') :
      Matches meaning (.list bracket spine) (.list bracket spine')
  | quoted {symbol : V} {symbol' : Value} (mark : QuoteMark) (symbols : Held meaning symbol symbol') :
      Matches meaning (.quoted mark symbol) (.quoted mark symbol')
  | datumComment : Matches meaning .datumComment .datumComment

abbrev Stack.Matches (meaning : V → Option Value) : Stack V → Stack Value → Prop :=
  List.Forall₂ (Frame.Matches meaning)

inductive FormStart.Matches (meaning : V → Option Value) : FormStart V → FormStart Value → Prop
  | whole {form : V} {form' : Value} (means : meaning form = some form') :
      Matches meaning (.whole form) (.whole form')
  | comment : Matches meaning .comment .comment
  | opening {frame : Frame V} {frame' : Frame Value} (frames : frame.Matches meaning frame') :
      Matches meaning (.opening frame) (.opening frame')
  | endOfInput : Matches meaning .endOfInput .endOfInput

inductive Progress.Matches (meaning : V → Option Value) : Progress V → Progress Value → Prop
  | pending {stack : Stack V} {stack' : Stack Value} (stacked : stack.Matches meaning stack') :
      Matches meaning (.pending stack) (.pending stack')
  | finished {form : Option V} {form' : Option Value}
      (means : Option.Rel (fun v w => meaning v = some w) form form') :
      Matches meaning (.finished form) (.finished form')

section

variable {meaning meaning' : V → Option Value}

theorem Names.Matches.extend {names : Names V} {names' : Names Value}
    (matched : names.Matches meaning names') (extends_ : Extends meaning meaning') :
    names.Matches meaning' names' where
  bracketLists := matched.bracketLists
  dot := matched.dot.extend extends_
  named := matched.named
  quoteSymbol mark := (matched.quoteSymbol mark).extend extends_

theorem Spine.Matches.extend {spine : Spine V} {spine' : Spine Value}
    (matched : spine.Matches meaning spine') (extends_ : Extends meaning meaning') :
    spine.Matches meaning' spine' := by
  cases matched with
  | empty => exact .empty
  | growing begins ends => exact .growing (begins.extend extends_) (ends.extend extends_)
  | dotted begins ends => exact .dotted (begins.extend extends_) (ends.extend extends_)
  | «sealed» begins ends => exact .sealed (begins.extend extends_) (ends.extend extends_)

theorem Frame.Matches.extend {frame : Frame V} {frame' : Frame Value}
    (matched : frame.Matches meaning frame') (extends_ : Extends meaning meaning') :
    frame.Matches meaning' frame' := by
  cases matched with
  | list bracket spines => exact .list bracket (spines.extend extends_)
  | quoted mark symbols => exact .quoted mark (symbols.extend extends_)
  | datumComment => exact .datumComment

theorem Stack.Matches.extend {stack : Stack V} {stack' : Stack Value}
    (matched : Stack.Matches meaning stack stack') (extends_ : Extends meaning meaning') :
    Stack.Matches meaning' stack stack' :=
  List.Forall₂.imp (fun _ _ frames => frames.extend extends_) matched

theorem Stack.Matches.expected_eq {stack : Stack V} {stack' : Stack Value}
    (matched : Stack.Matches meaning stack stack') : stack.expected = Stack.expected stack' := by
  cases matched with
  | nil => rfl
  | cons frames outer =>
    cases frames with
    | list bracket spines => cases spines <;> rfl
    | quoted mark symbols => rfl
    | datumComment => rfl

end

namespace Parallel

abbrev left (c : Parallel σ V) (names : Names V) : Context (Recorded σ V) V :=
  names.context c.host.recorded

abbrev right (c : Parallel σ V) (names : Names Value) : Context Store Value :=
  names.context c.store

variable {c : Parallel σ V} {meaning : V → Option Value} {names : Names V} {names' : Names Value}

theorem dialect_eq (matched : names.Matches meaning names') :
    (c.left names).dialect = (c.right names').dialect := by
  have supports : ∀ constant, (c.host.constant? constant).isSome = (c.store.constant? constant).isSome := by
    intro constant
    rw [c.hides.supports constant]
    cases constant <;> rfl
  exact congrArg₂ Dialect.mk matched.bracketLists (funext supports)

variable [DecidableEq V]

theorem fail_tracks {α β : Type} {A : α → β → (V → Option Value) → Prop} (fault : ReadFault) :
    c.Tracks meaning ((c.left names).fail fault) ((c.right names').fail fault) A :=
  Context.fail_simulates fault fun e =>
    (Tracks.call (.signalError e) rfl rfl rfl (by simp)).mono fun _ _ _ _ => trivial

theorem makeSymbol_tracks (name : String) :
    c.Tracks meaning ((c.left names).makeSymbol name) ((c.right names').makeSymbol name)
      (fun v w meaning => meaning v = some w) := by
  have plain : (c.left names).host.nilSymbol? = none := c.hides.nilSymbol?_eq
  unfold Context.makeSymbol
  rw [plain]
  exact .bind (Tracks.call (.internSymbol name) rfl rfl rfl (by simp)) fun _ _ _ _ means => .pure means

theorem makeToken_tracks (token : String) :
    c.Tracks meaning ((c.left names).makeToken token) ((c.right names').makeToken token)
      (fun v w meaning => meaning v = some w) := by
  apply Tracks.bind (Tracks.call (.parseNumber token 10) rfl rfl rfl (by simp))
  intro number number' meaning' _ means
  apply Tracks.of_mirrors
  intro s store mirrors
  exact .ite (mirrors.eq_iff means mirrors.false.means rfl) (fun _ => makeSymbol_tracks token)
    fun _ => .pure means

theorem makeNumber_tracks (radix : Nat) (digits : String) :
    c.Tracks meaning ((c.left names).makeNumber radix digits)
      ((c.right names').makeNumber radix digits) (fun v w meaning => meaning v = some w) := by
  apply Tracks.bind (Tracks.call (.parseNumber digits radix) rfl rfl rfl (by simp))
  intro number number' meaning' _ means
  apply Tracks.of_mirrors
  intro s store mirrors
  exact .ite (mirrors.eq_iff means mirrors.false.means rfl) (fun _ => fail_tracks _)
    fun _ => .pure means

theorem perform_tracks (matched : names.Matches meaning names') (lexeme : Lexeme) :
    c.Tracks meaning ((c.left names).perform lexeme) ((c.right names').perform lexeme)
      (fun start start' meaning => start.Matches meaning start') := by
  cases lexeme with
  | endOfInput => exact .pure .endOfInput
  | comment => exact .pure .comment
  | opening opening =>
    refine .pure (.opening ?_)
    cases opening with
    | quoted mark => exact .quoted mark (matched.quoteSymbol mark)
    | list bracket => exact .list bracket .empty
    | datumComment => exact .datumComment
  | constant kind =>
    apply Tracks.of_mirrors
    intro s store mirrors
    exact .pure (.whole (mirrors.constant kind).means)
  | token text => exact .bind (makeToken_tracks _) fun _ _ _ _ means => .pure (.whole means)
  | number radix digits => exact .bind (makeNumber_tracks _ _) fun _ _ _ _ means => .pure (.whole means)
  | string literal =>
    exact .bind (Tracks.makeProcessed _) fun _ _ _ _ means => .pure (.whole means)
  | character c' =>
    exact .bind (Tracks.call (.makeCharacter c'.toNat) rfl rfl rfl (by simp)) fun _ _ _ _ means =>
      .pure (.whole means)
  | fault reason => exact fail_tracks reason

theorem append_tracks (matched : names.Matches meaning names') (bracket : Bracket) {spine : Spine V}
    {spine' : Spine Value} (spines : spine.Matches meaning spine') {form : V} {form' : Value}
    (means : meaning form = some form') :
    c.Tracks meaning ((c.left names).append bracket spine form)
      ((c.right names').append bracket spine' form')
      (fun spine spine' meaning => spine.Matches meaning spine') := by
  apply Tracks.of_mirrors
  intro s store mirrors
  -- The only look at the form: it is compared with a symbol, so that both readers see the same.
  have dot := mirrors.eq_iff means matched.dot.means matched.named
  cases spines with
  | empty =>
    refine .ite dot (fun _ => fail_tracks _) fun _ => ?_
    apply Tracks.bind (Tracks.makePair means mirrors.nil.means)
    intro pair pair' _ _ held
    exact .pure (.growing held held)
  | growing begins ends =>
    refine .ite dot (fun _ => ?_) fun _ => ?_
    · exact .ite Iff.rfl (fun _ => fail_tracks _) fun _ => .pure (.dotted begins ends)
    · refine .bind (Tracks.makePair means mirrors.nil.means) fun pair pair' meaning₁ more held => ?_
      apply Tracks.bind (Tracks.setRest (ends.extend more).means held.means)
      intro _ _ meaning₂ more' _
      exact .pure (.growing ((begins.extend more).extend more') (held.extend more'))
  | dotted begins ends =>
    apply Tracks.bind (Tracks.setRest ends.means means)
    intro _ _ meaning₁ more _
    exact .pure (.sealed (begins.extend more) (ends.extend more))
  | «sealed» begins ends => exact .pure (.sealed begins ends)

theorem close_tracks (bracket : Bracket) {spine : Spine V} {spine' : Spine Value}
    (spines : spine.Matches meaning spine') :
    c.Tracks meaning ((c.left names).close bracket spine) ((c.right names').close bracket spine')
      (fun v w meaning => meaning v = some w) := by
  apply Tracks.of_mirrors
  intro s store mirrors
  have means : meaning (spine.head c.host.nil) = some (spine'.head c.store.nil) := by
    cases spines with
    | empty => exact mirrors.nil.means
    | growing begins ends => exact begins.means
    | dotted begins ends => exact begins.means
    | «sealed» begins ends => exact begins.means
  have maps : (Call.listToVector (spine.head c.host.nil)).map? meaning =
      some (.listToVector (spine'.head c.store.nil)) := by
    simp [Call.map?, means]
  rw [Context.close_eq, Context.close_eq]
  exact .ite Iff.rfl (fun _ => Tracks.call _ maps rfl rfl (by simp)) fun _ => .pure means

theorem complete_tracks (matched : names.Matches meaning names') {stack : Stack V}
    {stack' : Stack Value} (stacked : Stack.Matches meaning stack stack') {form : Option V}
    {form' : Option Value} (means : Option.Rel (fun v w => meaning v = some w) form form') :
    c.Tracks meaning ((c.left names).complete stack form) ((c.right names').complete stack' form')
      (fun progress progress' meaning => progress.Matches meaning progress') := by
  induction stack generalizing stack' meaning form form' with
  | nil =>
    cases stacked with
    | nil => exact .pure (.finished means)
  | cons frame outer ih =>
    cases stacked with
    | cons frames outer =>
    cases means with
    | none =>
      cases frames with
      | list bracket spines => exact fail_tracks _
      | quoted mark symbols => exact fail_tracks _
      | datumComment => exact ih matched outer .none
    | some means =>
      cases frames with
      | list bracket spines =>
        apply Tracks.bind (append_tracks matched bracket spines means)
        intro _ _ meaning' more spines
        exact .pure (.pending (.cons (.list bracket spines) (Stack.Matches.extend outer more)))
      | quoted mark symbols =>
        apply Tracks.of_mirrors
        intro s store mirrors
        apply Tracks.bind (Tracks.makePair means mirrors.nil.means)
        intro rest rest' meaning₁ more held
        apply Tracks.bind (Tracks.makePair (symbols.extend more).means held.means)
        intro pair pair' meaning₂ more' held
        -- The quoted form goes on outwards, in what has become of the meaning behind two more pairs.
        have more := more.trans more'
        exact ih (matched.extend more) (Stack.Matches.extend outer more) (.some held.means)
      | datumComment =>
        exact .bind (.hostFree (A := fun _ _ _ => True) (.report _) fun _ => trivial) fun _ _ meaning' more _ =>
          .pure (.pending (Stack.Matches.extend outer more))

theorem finishPart_tracks (matched : names.Matches meaning names') {stack : Stack V}
    {stack' : Stack Value} (stacked : Stack.Matches meaning stack stack') {start : FormStart V}
    {start' : FormStart Value} (starts : start.Matches meaning start') :
    c.Tracks meaning ((c.left names).finishPart stack start) ((c.right names').finishPart stack' start')
      (fun progress progress' meaning => progress.Matches meaning progress') := by
  cases starts with
  | whole means => exact complete_tracks matched stacked (.some means)
  | comment => exact .pure (.pending stacked)
  | opening frames => exact .pure (.pending (.cons frames stacked))
  | endOfInput => exact complete_tracks matched stacked .none

theorem answer_tracks (matched : names.Matches meaning names') {stack : Stack V}
    {stack' : Stack Value} (stacked : Stack.Matches meaning stack stack') (found : Found) :
    c.Tracks meaning ((c.left names).answer stack found) ((c.right names').answer stack' found)
      (fun progress progress' meaning => progress.Matches meaning progress') := by
  cases found with
  | part lexeme =>
    exact .bind (perform_tracks matched lexeme) fun _ _ meaning' more starts =>
      finishPart_tracks (matched.extend more) (stacked.extend more) starts
  | fault reason => exact fail_tracks reason
  | closer =>
    cases stacked with
    | nil => exact .pure (.pending .nil)
    | cons frames outer =>
      cases frames with
      | list bracket spines =>
        exact .bind (close_tracks bracket spines) fun _ _ meaning' more means =>
          complete_tracks (matched.extend more) (Stack.Matches.extend outer more) (.some means)
      | quoted mark symbols => exact .pure (.pending (.cons (.quoted mark symbols) outer))
      | datumComment => exact .pure (.pending (.cons .datumComment outer))

theorem turn_tracks (matched : names.Matches meaning names') {stack : Stack V}
    {stack' : Stack Value} (stacked : Stack.Matches meaning stack stack') :
    c.Tracks meaning ((c.left names).turn stack) ((c.right names').turn stack')
      (fun progress progress' meaning => progress.Matches meaning progress') := by
  rw [Context.turn_eq, Context.turn_eq, dialect_eq matched, stacked.expected_eq]
  refine .bind (.hostFree (A := fun a b _ => a = b) (Dialect.takeTurn_hostFree _ _) fun _ => rfl) ?_
  rintro found _ meaning' more rfl
  exact answer_tracks (matched.extend more) (stacked.extend more) found

/-- Turn after turn the readers keep in step, until both have finished a form or one cannot go on. -/
theorem run_tracks (matched : names.Matches meaning names') (readForm : ReadM (Recorded σ V) V)
    (readForm' : ReadM Store Value) (bound : List Char) {stack : Stack V} {stack' : Stack Value}
    (stacked : Stack.Matches meaning stack stack') :
    c.Tracks meaning ((c.left names).run none readForm bound stack)
      ((c.right names').run none readForm' bound stack')
      (fun form form' meaning => Option.Rel (fun v w => meaning v = some w) form form') := by
  induction bound generalizing stack stack' meaning with
  | nil =>
    unfold Context.run
    rw [Context.step_eq_turn, Context.step_eq_turn]
    apply Tracks.bind (turn_tracks matched stacked)
    intro _ _ meaning' more progress
    cases progress with
    | pending stacked => exact .throw .stalled
    | finished means => exact .pure means
  | cons _ bound ih =>
    unfold Context.run
    rw [Context.step_eq_turn, Context.step_eq_turn]
    apply Tracks.bind (turn_tracks matched stacked)
    intro _ _ meaning' more progress
    cases progress with
    | pending stacked => exact ih (matched.extend more) stacked
    | finished means => exact .pure means

theorem readForm_tracks (matched : names.Matches meaning names') :
    c.Tracks meaning ((c.left names).readForm none) ((c.right names').readForm none)
      (fun form form' meaning => meaning form = some form') := by
  intro s s' source here
  rw [Context.readForm_eq_run, Context.readForm_eq_run, source]
  refine (Tracks.bind (run_tracks matched _ _ _ .nil) fun form form' meaning' _ means => ?_) s s' source here
  apply Tracks.of_mirrors
  intro s store mirrors
  cases means with
  | none => exact .pure mirrors.endOfStream.means
  | some means => exact .pure means

end Parallel

end SexprReader
