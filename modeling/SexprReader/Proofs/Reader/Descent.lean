import SexprReader.Host.Recorded
import SexprReader.Proofs.Reader.Advance

/-! The loop over a stack of open forms does what the recursive reader does. Each frame on the
stack stands for a call that waits: what the call returns is what the loop hands to the frame. -/

namespace SexprReader

open ReadM

variable {σ V : Type}

namespace Context

def turn (ctx : Context σ V) (stack : Stack V) : ReadM σ (Progress V) :=
  ctx.step none (throw .stalled) stack

inductive Leads (ctx : Context σ V) (last : EStateM.Result Failure (ReadState σ) (Progress V)) :
    EStateM.Result Failure (ReadState σ) (Progress V) → Prop
  | refl : Leads ctx last last
  | turn {stack : Stack V} {s : ReadState σ} (next : Leads ctx last (ctx.turn stack s)) :
      Leads ctx last (.ok (.pending stack) s)

theorem Leads.trans {ctx : Context σ V}
    {first second third : EStateM.Result Failure (ReadState σ) (Progress V)}
    (before : Leads ctx second first) (behind : Leads ctx third second) :
    Leads ctx third first := by
  induction before with
  | refl => exact behind
  | turn _ ih => exact .turn ih

def deliver (ctx : Context σ V) (stack : Stack V) : Item V → ReadM σ (Progress V)
  | .form v => ctx.complete stack (some v)
  | .comment => pure (.pending stack)
  | .endOfInput => ctx.complete stack none

end Context

def Spine.TakesMembers : Spine V → Prop
  | .empty | .growing _ _ => True
  | .dotted _ _ | .sealed _ _ => False

def Stack.TakesAnything : Stack V → Prop
  | .list _ (.dotted _ _) :: _ | .quoted _ _ :: _ | .datumComment :: _ | [] => True
  | .list _ _ :: _ => False

namespace Context

theorem turn_of_takesAnything {ctx : Context σ V} {stack : Stack V}
    (takes : stack.TakesAnything) :
    ctx.turn stack = ctx.readPart none (throw .stalled) stack := by
  match stack, takes with
  | [], _ => rfl
  | .quoted _ _ :: _, _ => rfl
  | .datumComment :: _, _ => rfl
  | .list _ (.dotted _ _) :: _, _ => rfl

theorem step_of_takesMembers {ctx : Context σ V} {hook : Option (Hook σ V)} {readForm : ReadM σ V}
    (bracket : Bracket) {spine : Spine V} (outer : Stack V) (takes : spine.TakesMembers) :
    ctx.step hook readForm (.list bracket spine :: outer) = (do
      match ← skipBlanks with
      | none => ctx.fail (.endOfInput bracket.openForm)
      | some c =>
        if c == bracket.closer then
          let _ ← ReadM.nextChar
          ctx.complete outer (some (← ctx.close bracket spine))
        else
          ctx.readPart hook readForm (.list bracket spine :: outer)) := by
  match spine, takes with
  | .empty, _ => rfl
  | .growing _ _, _ => rfl

theorem turn_of_takesMembers {ctx : Context σ V} (bracket : Bracket) {spine : Spine V}
    (outer : Stack V) (takes : spine.TakesMembers) :
    ctx.turn (.list bracket spine :: outer) = (do
      match ← skipBlanks with
      | none => ctx.fail (.endOfInput bracket.openForm)
      | some c =>
        if c == bracket.closer then
          let _ ← ReadM.nextChar
          ctx.complete outer (some (← ctx.close bracket spine))
        else
          ctx.readPart none (throw .stalled) (.list bracket spine :: outer)) :=
  step_of_takesMembers bracket outer takes

theorem turn_sealed (ctx : Context σ V) (bracket : Bracket) (head last : V) (outer : Stack V) :
    ctx.turn (.list bracket (.sealed head last) :: outer) = (do
      Recursive.readCloser ctx bracket
      let v ← ctx.close bracket (.sealed head last)
      ctx.complete outer (some v)) := by
  simp only [turn, step, Recursive.readCloser, bind_assoc]
  congr 1
  funext next
  cases next with
  | none => exact (ctx.fail_bind _ _).symm
  | some c =>
    simp only [bind_assoc]
    congr 1
    funext _
    split
    · rfl
    · exact (ctx.fail_bind _ _).symm

theorem append_advances (ctx : Context σ V) (bracket : Bracket) (spine : Spine V) (form : V) :
    Advances (ctx.append bracket spine form) := by
  unfold append
  split
  · exact .bind (.hosted _) fun _ => .pure _
  · exact .ite (ctx.fail_advances _) (.bind (.hosted _) fun _ => .pure _)
  · exact .ite (.ite (ctx.fail_advances _) (.pure _))
      (.bind (.hosted _) fun _ => .bind (.hosted _) fun _ => .pure _)
  · exact .pure _

theorem close_advances (ctx : Context σ V) (bracket : Bracket) (spine : Spine V) :
    Advances (ctx.close bracket spine) := by
  cases bracket with
  | round => exact .pure _
  | square => exact .pure _
  | vector => exact .hosted _

theorem append_yields (ctx : Context σ V) (bracket : Bracket) {spine : Spine V} (form : V)
    (takes : spine.TakesMembers) :
    Yields (ctx.append bracket spine form)
      fun next => next.TakesMembers ∨ ∃ head last, next = .dotted head last := by
  match spine, takes with
  | .empty, _ => exact .ite (ctx.fail_yields _ _) (.bind fun _ => .pure (.inl trivial))
  | .growing head last, _ =>
    exact .ite (.ite (ctx.fail_yields _ _) (.pure (.inr ⟨head, last, rfl⟩)))
      (.bind fun _ => .bind fun _ => .pure (.inl trivial))

def OpensEmpty (start : FormStart V) : Prop :=
  ∀ bracket spine, start = .opening (.list bracket spine) → spine = .empty

theorem readSequence_yields (ctx : Context σ V) (readForm : ReadM σ V) (c : Char) :
    Yields (ctx.readSequence none readForm c) OpensEmpty := by
  refine .bind fun _ => ?_
  split
  · exact .bind fun _ => .pure (by simp [OpensEmpty])
  · exact .bind fun _ => .pure (by simp [OpensEmpty])
  · exact .pure (by simp [OpensEmpty])
  · exact .pure (by simp [OpensEmpty])
  · exact .bind fun _ => .pure (by simp [OpensEmpty])
  · exact .pure (by simp [OpensEmpty])
  · exact .bind fun _ => .pure (by simp [OpensEmpty])
  · exact ctx.fail_yields _ _

theorem readHash_yields (ctx : Context σ V) (readForm : ReadM σ V) :
    Yields (ctx.readHash none readForm) OpensEmpty := by
  refine .bind fun _ => .bind fun next => ?_
  split
  · exact ctx.fail_yields _ _
  next c =>
    have sequence := ctx.readSequence_yields readForm c
    dsimp only
    split
    · exact .bind fun _ => sequence
    · exact sequence

theorem readDatum_yields (ctx : Context σ V) (readForm : ReadM σ V) :
    Yields (ctx.readDatum none readForm) OpensEmpty := by
  refine .bind fun next => ?_
  split
  · exact .pure (by simp [OpensEmpty])
  next c =>
    refine .bind fun _ => .bind fun _ => ?_
    unfold readStarted
    split
    · exact .pure (by simp [OpensEmpty, quoted])
    · refine .bind fun _ => .ite (.bind fun _ => .pure ?_) (.pure ?_) <;>
        simp [OpensEmpty, quoted]
    · exact .pure (by simp [OpensEmpty])
    · exact ctx.readHash_yields readForm
    · exact .bind fun _ => .pure (by simp [OpensEmpty])
    · exact .bind fun _ => .pure (by simp [OpensEmpty])
    · exact ctx.fail_yields _ _

namespace Recursive

theorem readCloser_advances (ctx : Context σ V) (bracket : Bracket) :
    Advances (readCloser ctx bracket) := by
  refine .bind skipBlanks_advances fun next => ?_
  split
  · exact ctx.fail_advances _
  · exact .bind .nextChar fun _ => .ite (.pure _) (ctx.fail_advances _)

def finishItem (ctx : Context σ V) (bound : Nat) : FormStart V → ReadM σ (Item V)
  | .whole v => pure (.form v)
  | .comment => pure .comment
  | .endOfInput => pure .endOfInput
  | .opening .datumComment => do
    match ← form ctx bound with
    | none => return .endOfInput
    | some _ =>
      ReadM.report .discardedDatum
      return .comment
  | .opening (.quoted mark symbol) => do
    match ← form ctx bound with
    | none => ctx.fail (.endOfInput (.quoted mark))
    | some v =>
      let rest ← ReadM.hosted (ctx.host.makePair v ctx.host.nil)
      return .form (← ReadM.hosted (ctx.host.makePair symbol rest))
  | .opening (.list bracket spine) => return .form (← items ctx bound bracket spine)

theorem item_succ (ctx : Context σ V) (bound : Nat) :
    item ctx (bound + 1) = ctx.readDatum none (throw .stalled) >>= finishItem ctx bound := by
  rw [item]
  rfl

def finishDotted (ctx : Context σ V) (bound : Nat) (bracket : Bracket) (head last : V) :
    ReadM σ V := do
  match ← form ctx bound with
  | none => ctx.fail (.endOfInput bracket.openForm)
  | some tail =>
    let spine ← ctx.append bracket (.dotted head last) tail
    readCloser ctx bracket
    ctx.close bracket spine

def finishMember (ctx : Context σ V) (bound : Nat) (bracket : Bracket) : Spine V → ReadM σ V
  | .dotted head last => finishDotted ctx bound bracket head last
  | spine => items ctx bound bracket spine

def finishItems (ctx : Context σ V) (bound : Nat) (bracket : Bracket) (spine : Spine V) :
    Item V → ReadM σ V
  | .comment => items ctx bound bracket spine
  | .endOfInput => ctx.fail (.endOfInput bracket.openForm)
  | .form v => ctx.append bracket spine v >>= finishMember ctx bound bracket

def enterItems (ctx : Context σ V) (bound : Nat) (bracket : Bracket) (spine : Spine V) :
    Option Char → ReadM σ V
  | none => ctx.fail (.endOfInput bracket.openForm)
  | some c =>
    if c == bracket.closer then do
      let _ ← ReadM.nextChar
      ctx.close bracket spine
    else
      item ctx bound >>= finishItems ctx bound bracket spine

theorem items_succ (ctx : Context σ V) (bound : Nat) (bracket : Bracket) (spine : Spine V) :
    items ctx (bound + 1) bracket spine =
      skipBlanks >>= enterItems ctx bound bracket spine := by
  rw [items]
  rfl

section Advances

variable {ctx : Context σ V} {bound : Nat} (formAdvances : Advances (form ctx bound))
  (itemsAdvance : ∀ bracket spine, Advances (items ctx bound bracket spine))

include formAdvances itemsAdvance

theorem finishItem_advances (start : FormStart V) : Advances (finishItem ctx bound start) := by
  unfold finishItem
  split
  · exact .pure _
  · exact .pure _
  · exact .pure _
  · refine .bind formAdvances fun result => ?_
    split
    · exact .pure _
    · exact .bind (.report _) fun _ => .pure _
  · refine .bind formAdvances fun result => ?_
    split
    · exact ctx.fail_advances _
    · exact .bind (.hosted _) fun _ => .bind (.hosted _) fun _ => .pure _
  · exact .bind (itemsAdvance _ _) fun _ => .pure _

theorem finishItems_advances (bracket : Bracket) (spine : Spine V) (result : Item V) :
    Advances (finishItems ctx bound bracket spine result) := by
  unfold finishItems
  split
  · exact itemsAdvance _ _
  · exact ctx.fail_advances _
  · refine .bind (ctx.append_advances _ _ _) fun next => ?_
    unfold finishMember
    split
    · refine .bind formAdvances fun tail => ?_
      split
      · exact ctx.fail_advances _
      · exact .bind (ctx.append_advances _ _ _) fun _ =>
          .bind (readCloser_advances ctx _) fun _ => ctx.close_advances _ _
    · exact itemsAdvance _ _

end Advances

theorem advances (ctx : Context σ V) (bound : Nat) :
    Advances (form ctx bound) ∧ Advances (item ctx bound) ∧
      ∀ bracket spine, Advances (items ctx bound bracket spine) := by
  induction bound with
  | zero => exact ⟨.throw _, .throw _, fun _ _ => .throw _⟩
  | succ bound ih =>
    obtain ⟨form, item, items⟩ := ih
    refine ⟨.bind item fun result => ?_, ?_, fun bracket spine => ?_⟩
    · split
      · exact .pure _
      · exact .pure _
      · exact form
    · rw [item_succ]
      exact .bind (ctx.readDatum_advances _) (finishItem_advances form items)
    · rw [items_succ]
      refine .bind skipBlanks_advances fun next => ?_
      unfold enterItems
      split
      · exact ctx.fail_advances _
      · exact .ite (.bind .nextChar fun _ => ctx.close_advances _ _)
          (.bind item (finishItems_advances form items bracket spine))

theorem length_lt_of_item {ctx : Context σ V} {bound : Nat} {s s' : ReadState σ} {result : Item V}
    (read : item ctx bound s = .ok result s') (there : result ≠ .endOfInput) :
    s'.source.remaining.length < s.source.remaining.length := by
  cases bound with
  | zero => cases read
  | succ bound =>
    obtain ⟨form, -, items⟩ := advances ctx bound
    rw [item_succ] at read
    obtain ⟨start, s₁, datum, rest⟩ := exists_of_bind_ok read
    have begins : start ≠ .endOfInput := by
      rintro rfl
      cases rest
      exact there rfl
    have first := length_lt_of_readDatum datum begins
    have others := (finishItem_advances form items start).length_le rest
    omega

/-- The item, handed to the innermost open form, is what the loop comes to from the start of the
item on. -/
def ItemLeads (ctx : Context σ V) (bound : Nat) : Prop :=
  ∀ stack s, 3 * s.source.remaining.length + 1 ≤ bound →
    Leads ctx ((item ctx bound >>= ctx.deliver stack) s)
      (ctx.readPart none (throw .stalled) stack s)

def FormLeads (ctx : Context σ V) (bound : Nat) : Prop :=
  ∀ (stack : Stack V) s, stack.TakesAnything → 3 * s.source.remaining.length + 2 ≤ bound →
    Leads ctx ((form ctx bound >>= ctx.complete stack) s)
      (ctx.readPart none (throw .stalled) stack s)

def ItemsLead (ctx : Context σ V) (bound : Nat) : Prop :=
  ∀ (bracket : Bracket) (spine : Spine V) outer s, spine.TakesMembers →
    3 * s.source.remaining.length + 2 ≤ bound →
    Leads ctx ((items ctx bound bracket spine >>= fun v => ctx.complete outer (some v)) s)
      (ctx.turn (.list bracket spine :: outer) s)

theorem finishItem_datumComment (ctx : Context σ V) (bound : Nat) (stack : Stack V) :
    finishItem ctx bound (.opening .datumComment) >>= ctx.deliver stack =
      form ctx bound >>= ctx.complete (.datumComment :: stack) := by
  simp only [finishItem, bind_assoc]
  congr 1
  funext result
  cases result <;> rfl

theorem finishItem_quoted (ctx : Context σ V) (bound : Nat) (stack : Stack V) (mark : QuoteMark)
    (symbol : V) :
    finishItem ctx bound (.opening (.quoted mark symbol)) >>= ctx.deliver stack =
      form ctx bound >>= ctx.complete (.quoted mark symbol :: stack) := by
  simp only [finishItem, bind_assoc]
  congr 1
  funext result
  cases result with
  | none => exact ctx.fail_bind _ _
  | some v =>
    simp only [complete, bind_assoc]
    rfl

theorem itemLeads_succ {ctx : Context σ V} {bound : Nat} (form : FormLeads ctx bound)
    (items : ItemsLead ctx bound) : ItemLeads ctx (bound + 1) := by
  intro stack s enough
  rw [item_succ, bind_assoc]
  unfold readPart
  -- The descent goes down into an open form just where the loop puts its frame on the stack.
  cases datum : ctx.readDatum none (throw .stalled) s with
  | error e s' =>
    rw [bind_of_error datum, bind_of_error datum]
    exact .refl
  | ok start s' =>
    rw [bind_of_ok datum, bind_of_ok datum]
    have shorter := length_lt_of_readDatum datum
    match start with
    | .whole v => exact .refl
    | .comment => exact .refl
    | .endOfInput => exact .refl
    | .opening .datumComment =>
      specialize shorter (by simp)
      have takes : Stack.TakesAnything (.datumComment :: stack) := trivial
      rw [finishItem_datumComment]
      refine .turn ?_
      rw [turn_of_takesAnything takes]
      exact form _ s' takes (by omega)
    | .opening (.quoted mark symbol) =>
      specialize shorter (by simp)
      have takes : Stack.TakesAnything (.quoted mark symbol :: stack) := trivial
      rw [finishItem_quoted]
      refine .turn ?_
      rw [turn_of_takesAnything takes]
      exact form _ s' takes (by omega)
    | .opening (.list bracket spine) =>
      specialize shorter (by simp)
      have empty := ctx.readDatum_yields _ datum bracket spine rfl
      have takes : spine.TakesMembers := by
        rw [empty]
        trivial
      refine .turn ?_
      simp only [finishItem, bind_assoc]
      exact items bracket spine stack s' takes (by omega)

theorem formLeads_succ {ctx : Context σ V} {bound : Nat} (item : ItemLeads ctx bound)
    (form : FormLeads ctx bound) : FormLeads ctx (bound + 1) := by
  intro stack s takes enough
  refine (item stack s (by omega)).trans ?_
  rw [Recursive.form, bind_assoc]
  cases read : Recursive.item ctx bound s with
  | error e s' =>
    rw [bind_of_error read, bind_of_error read]
    exact .refl
  | ok result s' =>
    rw [bind_of_ok read, bind_of_ok read]
    cases result with
    | form v => exact .refl
    | endOfInput => exact .refl
    | comment =>
      have shorter := length_lt_of_item read (by simp)
      refine .turn ?_
      rw [turn_of_takesAnything takes]
      exact form stack s' takes (by omega)

/-- A dotted list comes to its end on the stack as in the call that waits for its tail. -/
theorem finishDotted_leads {ctx : Context σ V} {bound : Nat} (form : FormLeads ctx bound)
    (bracket : Bracket) (head last : V) (outer : Stack V) {s : ReadState σ}
    (enough : 3 * s.source.remaining.length + 2 ≤ bound) :
    Leads ctx ((finishDotted ctx bound bracket head last >>=
        fun v => ctx.complete outer (some v)) s)
      (ctx.turn (.list bracket (.dotted head last) :: outer) s) := by
  have takes : Stack.TakesAnything (.list bracket (.dotted head last) :: outer) := trivial
  rw [turn_of_takesAnything takes]
  refine (form _ s takes enough).trans ?_
  rw [finishDotted, bind_assoc]
  cases read : Recursive.form ctx bound s with
  | error e s' =>
    rw [bind_of_error read, bind_of_error read]
    exact .refl
  | ok tail s' =>
    rw [bind_of_ok read, bind_of_ok read]
    cases tail with
    | none =>
      simp only [complete, fail_bind]
      exact .refl
    | some tail =>
      simp only [complete, append, bind_assoc, pure_bind]
      cases set : hosted (ctx.host.setRest last tail) s' with
      | error e s'' =>
        rw [bind_of_error set, bind_of_error set]
        exact .refl
      | ok _ s'' =>
        rw [bind_of_ok set, bind_of_ok set, ← turn_sealed]
        exact .turn .refl

theorem finishItems_leads {ctx : Context σ V} {bound : Nat} (form : FormLeads ctx bound)
    (items : ItemsLead ctx bound) {bracket : Bracket} {spine : Spine V} (outer : Stack V)
    (takes : spine.TakesMembers) {result : Item V} {s : ReadState σ}
    (enough : result ≠ .endOfInput → 3 * s.source.remaining.length + 2 ≤ bound) :
    Leads ctx
      ((finishItems ctx bound bracket spine result >>= fun v => ctx.complete outer (some v)) s)
      (ctx.deliver (.list bracket spine :: outer) result s) := by
  cases result with
  | comment => exact .turn (items bracket spine outer s takes (enough (by simp)))
  | endOfInput =>
    simp only [finishItems, deliver, complete, fail_bind]
    exact .refl
  | form v =>
    specialize enough (by simp)
    simp only [finishItems, deliver, complete, bind_assoc]
    cases appended : ctx.append bracket spine v s with
    | error e s' =>
      rw [bind_of_error appended, bind_of_error appended]
      exact .refl
    | ok next s' =>
      rw [bind_of_ok appended, bind_of_ok appended]
      have kept := (ctx.append_advances bracket spine v).length_le appended
      refine .turn ?_
      obtain more | ⟨head, last, rfl⟩ := ctx.append_yields bracket v takes appended
      · have loop : finishMember ctx bound bracket next = Recursive.items ctx bound bracket next := by
          cases next <;> first | rfl | exact more.elim
        rw [loop]
        exact items bracket next outer s' more (by omega)
      · exact finishDotted_leads form bracket head last outer (by omega)

theorem itemsLead_succ {ctx : Context σ V} {bound : Nat} (item : ItemLeads ctx bound)
    (form : FormLeads ctx bound) (items : ItemsLead ctx bound) : ItemsLead ctx (bound + 1) := by
  intro bracket spine outer s takes enough
  rw [turn_of_takesMembers bracket outer takes, items_succ, bind_assoc]
  cases skipped : skipBlanks s with
  | error e s₁ =>
    rw [bind_of_error skipped, bind_of_error skipped]
    exact .refl
  | ok next s₁ =>
    rw [bind_of_ok skipped, bind_of_ok skipped]
    have blanks := skipBlanks_advances.length_le skipped
    cases next with
    | none =>
      simp only [enterItems, fail_bind]
      exact .refl
    | some c =>
      simp only [enterItems]
      split
      · simp only [bind_assoc]
        exact .refl
      · refine (item _ s₁ (by omega)).trans ?_
        rw [bind_assoc]
        cases read : Recursive.item ctx bound s₁ with
        | error e s₂ =>
          rw [bind_of_error read, bind_of_error read]
          exact .refl
        | ok result s₂ =>
          rw [bind_of_ok read, bind_of_ok read]
          refine finishItems_leads form items outer takes fun there => ?_
          have shorter := length_lt_of_item read there
          omega

theorem leads (ctx : Context σ V) (bound : Nat) :
    FormLeads ctx bound ∧ ItemLeads ctx bound ∧ ItemsLead ctx bound := by
  induction bound with
  | zero =>
    refine ⟨?_, ?_, ?_⟩
    · intro _ _ _ enough
      omega
    · intro _ _ enough
      omega
    · intro _ _ _ _ _ enough
      omega
  | succ bound ih =>
    obtain ⟨form, item, items⟩ := ih
    exact ⟨formLeads_succ item form, itemLeads_succ form items, itemsLead_succ item form items⟩

end Recursive

theorem complete_advances (ctx : Context σ V) (stack : Stack V) (form : Option V) :
    Advances (ctx.complete stack form) := by
  induction stack generalizing form with
  | nil => exact .pure _
  | cons frame outer ih =>
    match frame, form with
    | .datumComment, none => exact ih none
    | .datumComment, some _ => exact .bind (.report _) fun _ => .pure _
    | .quoted _ _, none => exact ctx.fail_advances _
    | .quoted _ _, some _ => exact .bind (.hosted _) fun _ => .bind (.hosted _) fun _ => ih _
    | .list _ _, none => exact ctx.fail_advances _
    | .list _ _, some _ => exact .bind (ctx.append_advances _ _ _) fun _ => .pure _

theorem complete_none_yields (ctx : Context σ V) (stack : Stack V) :
    Yields (ctx.complete stack none) (· = .finished none) := by
  induction stack with
  | nil => exact .pure rfl
  | cons frame outer ih =>
    cases frame with
    | list bracket spine => exact ctx.fail_yields _ _
    | quoted mark symbol => exact ctx.fail_yields _ _
    | datumComment => exact ih

theorem length_lt_of_readPart {ctx : Context σ V} {readForm : ReadM σ V} {stack : Stack V}
    {progress : Progress V} {s s' : ReadState σ}
    (read : ctx.readPart none readForm stack s = .ok progress s') (there : progress ≠ .finished none) :
    s'.source.remaining.length < s.source.remaining.length := by
  obtain ⟨start, s₁, datum, rest⟩ := exists_of_bind_ok read
  have shorter := length_lt_of_readDatum datum
  cases start with
  | whole form =>
    have kept := (ctx.complete_advances stack (some form)).length_le rest
    specialize shorter (by simp)
    omega
  | comment =>
    cases rest
    exact shorter (by simp)
  | opening frame =>
    cases rest
    exact shorter (by simp)
  | endOfInput => exact absurd (ctx.complete_none_yields stack rest) there

theorem length_lt_of_readCloser {ctx : Context σ V} {bracket : Bracket} {s s' : ReadState σ}
    (read : Recursive.readCloser ctx bracket s = .ok () s') :
    s'.source.remaining.length < s.source.remaining.length := by
  obtain ⟨next, s₁, skipped, rest⟩ := exists_of_bind_ok read
  have blanks := skipBlanks_advances.length_le skipped
  cases next with
  | none => cases ctx.fail_yields _ (fun _ => False) rest
  | some c =>
    obtain ⟨_, s₂, consumed, rest⟩ := exists_of_bind_ok rest
    have first := length_lt_of_nextChar (head?_of_skipBlanks skipped) consumed
    have kept := (Advances.ite (.pure _) (ctx.fail_advances _)).length_le rest
    omega

theorem length_lt_of_turn {ctx : Context σ V} {stack : Stack V} {progress : Progress V}
    {s s' : ReadState σ} (turned : ctx.turn stack s = .ok progress s')
    (there : progress ≠ .finished none) :
    s'.source.remaining.length < s.source.remaining.length := by
  -- In an open list, either the closing bracket is consumed or a part of the list.
  have members (bracket : Bracket) (spine : Spine V) (outer : Stack V) (takes : spine.TakesMembers)
      (turned : ctx.turn (.list bracket spine :: outer) s = .ok progress s') :
      s'.source.remaining.length < s.source.remaining.length := by
    rw [turn_of_takesMembers bracket outer takes] at turned
    obtain ⟨found, s₁, skipped, rest⟩ := exists_of_bind_ok turned
    have blanks := skipBlanks_advances.length_le skipped
    cases found with
    | none => cases ctx.fail_yields _ (fun _ => False) rest
    | some c =>
      dsimp only at rest
      split at rest
      · obtain ⟨_, s₂, consumed, rest⟩ := exists_of_bind_ok rest
        obtain ⟨v, s₃, closed, rest⟩ := exists_of_bind_ok rest
        have first := length_lt_of_nextChar (head?_of_skipBlanks skipped) consumed
        have second := (ctx.close_advances bracket spine).length_le closed
        have third := (ctx.complete_advances outer (some v)).length_le rest
        omega
      · have first := length_lt_of_readPart rest there
        omega
  match stack with
  | [] => exact length_lt_of_readPart turned there
  | .quoted _ _ :: _ => exact length_lt_of_readPart turned there
  | .datumComment :: _ => exact length_lt_of_readPart turned there
  | .list _ (.dotted _ _) :: _ => exact length_lt_of_readPart turned there
  | .list bracket .empty :: outer => exact members bracket .empty outer trivial turned
  | .list bracket (.growing head last) :: outer =>
    exact members bracket (.growing head last) outer trivial turned
  | .list bracket (.sealed head last) :: outer =>
    rw [turn_sealed] at turned
    obtain ⟨_, s₁, read, rest⟩ := exists_of_bind_ok turned
    obtain ⟨v, s₂, closed, rest⟩ := exists_of_bind_ok rest
    have first := length_lt_of_readCloser read
    have second := (ctx.close_advances bracket _).length_le closed
    have third := (ctx.complete_advances outer (some v)).length_le rest
    omega

theorem step_eq_turn (ctx : Context σ V) (readForm : ReadM σ V) (stack : Stack V) :
    ctx.step none readForm stack = ctx.turn stack := rfl

/-- A run that is allowed a turn for each character left, and one more, comes to the end of the
way that leads from its first turn. -/
theorem run_of_leads {ctx : Context σ V} (readForm : ReadM σ V) {outcome : ReadM σ (Option V)}
    {final s : ReadState σ} {stack : Stack V} {bound : List Char}
    (leads : Leads ctx ((outcome >>= fun form => pure (.finished form)) final) (ctx.turn stack s))
    (enough : s.source.remaining.length ≤ bound.length) :
    ctx.run none readForm bound stack s = outcome final := by
  generalize first : ctx.turn stack s = result at leads
  induction leads generalizing stack s bound with
  | refl =>
    unfold run
    rw [step_eq_turn]
    cases done : outcome final with
    | ok form s' =>
      rw [bind_of_ok done] at first
      rw [bind_of_ok first]
      rfl
    | error e s' =>
      rw [bind_of_error done] at first
      rw [bind_of_error first]
  | turn next ih =>
    have shorter := length_lt_of_turn first (by simp)
    match bound with
    | [] =>
      simp at enough
      simp [enough] at shorter
    | _ :: bound =>
      unfold run
      rw [step_eq_turn, bind_of_ok first]
      rw [List.length_cons] at enough
      exact ih (by omega) rfl

theorem readForm_eq_form (ctx : Context σ V) (s : ReadState σ) {bound : Nat}
    (enough : 3 * s.source.remaining.length + 2 ≤ bound) :
    ctx.readForm none s =
      (do return (← Recursive.form ctx bound).getD ctx.host.endOfStream : ReadM σ V) s := by
  have leads : Leads ctx ((Recursive.form ctx bound >>= fun form => pure (.finished form)) s)
      (ctx.turn [] s) := (Recursive.leads ctx bound).1 [] s trivial enough
  have run := run_of_leads (ctx.readNested none) leads (Nat.le_refl _)
  change (ctx.run none (ctx.readNested none) s.source.remaining [] >>=
    fun form => pure (form.getD ctx.host.endOfStream)) s = _
  cases read : Recursive.form ctx bound s with
  | ok form s' => rw [bind_of_ok (run.trans read), bind_of_ok read]
  | error e s' => rw [bind_of_error (run.trans read), bind_of_error read]

/-- The same reader over a host that records its calls. -/
def recorded (ctx : Context σ V) : Context (Recorded σ V) V where
  host := ctx.host.recorded
  bracketLists := ctx.bracketLists
  dot := ctx.dot
  quoteSymbol := ctx.quoteSymbol

/-- From any state of any host the loop and the recursive reader come to the same result in the
same final state, which holds all that the host was called for, the characters left unread and the
reports made. Neither depends on the bound of the recursion. -/
theorem readForm_eq_readFormRecursively (ctx : Context σ V) (s : ReadState σ)
    (recording : ReadState (Recorded σ V)) (extra : Nat) :
    ctx.readForm none s = ctx.readFormRecursively s ∧
      ctx.recorded.readForm none recording = ctx.recorded.readFormRecursively recording ∧
      ctx.readForm none s =
        (do
          let bound := 3 * s.source.remaining.length + 3 + extra
          return (← Recursive.form ctx bound).getD ctx.host.endOfStream : ReadM σ V) s := by
  refine ⟨?_, ?_, ?_⟩
  · exact ctx.readForm_eq_form s (by omega)
  · exact ctx.recorded.readForm_eq_form recording (by omega)
  · exact ctx.readForm_eq_form s (by omega)

end Context

end SexprReader
