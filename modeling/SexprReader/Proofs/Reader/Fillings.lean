import SexprReader.Proofs.Reader.Lexing

/-! What an open form has been given so far. The reader keeps only the first and the last pair of a list;
here the members are kept beside them, and nothing else is done differently. -/

namespace SexprReader

open ReadM

variable {σ V : Type}

structure Filling (V : Type) where
  members : List V
  tail : Option V
deriving DecidableEq, Repr

/-- An open form, and what it has been given. -/
structure Filled (V : Type) where
  frame : Frame V
  filling : Filling V
deriving DecidableEq, Repr

def Filled.fresh (frame : Frame V) : Filled V := ⟨frame, ⟨[], none⟩⟩

inductive FilledProgress (V : Type) where
  | pending (stack : List (Filled V))
  | finished (form : Option V)

def FilledProgress.progress : FilledProgress V → Progress V
  | pending stack => .pending (stack.map Filled.frame)
  | finished form => .finished form

namespace Context

variable (ctx : Context σ V)

/-- A list is given a form. It becomes a member, unless it is the dot, or stands behind one. -/
def give (filling : Filling V) (spine : Spine V) (form : V) : Filling V :=
  match spine with
  | .dotted _ _ => { filling with tail := some form }
  | _ => if ctx.host.eq form ctx.dot then filling
    else { filling with members := filling.members ++ [form] }

def completeFilled : List (Filled V) → Option V → ReadM σ (FilledProgress V)
  | [], form => pure (.finished form)
  | ⟨.datumComment, _⟩ :: outer, none => completeFilled outer none
  | ⟨.datumComment, _⟩ :: outer, some _ => do
    report .discardedDatum
    return .pending outer
  | ⟨.quoted mark _, _⟩ :: _, none => ctx.fail (.endOfInput (.quoted mark))
  | ⟨.quoted _ symbol, _⟩ :: outer, some form => do
    let rest ← hosted (ctx.host.makePair form ctx.host.nil)
    let pair ← hosted (ctx.host.makePair symbol rest)
    completeFilled outer (some pair)
  | ⟨.list bracket _, _⟩ :: _, none => ctx.fail (.endOfInput bracket.openForm)
  | ⟨.list bracket spine, filling⟩ :: outer, some form => do
    let longer ← ctx.append bracket spine form
    return .pending (⟨.list bracket longer, ctx.give filling spine form⟩ :: outer)

def finishPartFilled (stack : List (Filled V)) : FormStart V → ReadM σ (FilledProgress V)
  | .whole form => ctx.completeFilled stack (some form)
  | .endOfInput => ctx.completeFilled stack none
  | .comment => pure (.pending stack)
  | .opening frame => pure (.pending (.fresh frame :: stack))

def answerFilled (stack : List (Filled V)) : Found → ReadM σ (FilledProgress V)
  | .part lexeme => ctx.perform lexeme >>= ctx.finishPartFilled stack
  | .fault reason => ctx.fail reason
  | .closer =>
    match stack with
    | ⟨.list bracket spine, _⟩ :: outer => do
      ctx.completeFilled outer (some (← ctx.close bracket spine))
    | stack => pure (.pending stack)

def turnFilled (stack : List (Filled V)) : ReadM σ (FilledProgress V) :=
  ctx.dialect.takeTurn (Stack.expected (stack.map Filled.frame)) >>= ctx.answerFilled stack

/-- The open forms and the state after so many turns. -/
def filledMoment (start : ReadState σ) : (turns : Nat) → List (Filled V) × ReadState σ
  | 0 => ([], start)
  | turns + 1 =>
    let (stack, s) := filledMoment start turns
    match ctx.turnFilled stack s with
    | .ok (.pending stack) s => (stack, s)
    | .ok (.finished _) s => ([], s)
    | .error _ s => ([], s)

theorem map_fail {α β : Type} (f : α → β) (fault : ReadFault) :
    f <$> (ctx.fail fault : ReadM σ α) = ctx.fail fault := by
  rw [map_eq_pure_bind, fail_bind]

theorem completeFilled_progress (stack : List (Filled V)) (form : Option V) :
    FilledProgress.progress <$> ctx.completeFilled stack form =
      ctx.complete (stack.map Filled.frame) form := by
  induction stack generalizing form with
  | nil => rfl
  | cons filled outer ih =>
    match filled, form with
    | ⟨.datumComment, _⟩, none => exact ih none
    | ⟨.datumComment, _⟩, some _ => simp [completeFilled, complete, FilledProgress.progress]
    | ⟨.quoted mark _, _⟩, none => exact ctx.map_fail _ _
    | ⟨.quoted _ symbol, _⟩, some form => simp [completeFilled, complete, ih]
    | ⟨.list bracket _, _⟩, none => exact ctx.map_fail _ _
    | ⟨.list bracket spine, filling⟩, some form => simp [completeFilled, complete, FilledProgress.progress]

theorem turnFilled_progress (stack : List (Filled V)) :
    FilledProgress.progress <$> ctx.turnFilled stack = ctx.turn (stack.map Filled.frame) := by
  have finishes (start : FormStart V) : FilledProgress.progress <$> ctx.finishPartFilled stack start =
      ctx.finishPart (stack.map Filled.frame) start := by
    cases start with
    | whole form => exact ctx.completeFilled_progress stack _
    | endOfInput => exact ctx.completeFilled_progress stack _
    | comment => rfl
    | opening frame => rfl
  rw [turn_eq, turnFilled, map_bind]
  congr 1
  funext found
  match found, stack with
  | .part lexeme, stack => simp [answerFilled, answer, finishes]
  | .fault reason, _ => exact ctx.map_fail _ _
  | .closer, [] => rfl
  | .closer, ⟨.quoted _ _, _⟩ :: _ => rfl
  | .closer, ⟨.datumComment, _⟩ :: _ => rfl
  | .closer, ⟨.list bracket spine, _⟩ :: outer => simp [answerFilled, answer, completeFilled_progress]

theorem filledMoment_eq (start : ReadState σ) (turns : Nat) :
    (ctx.filledMoment start turns).1.map Filled.frame = (ctx.moment start turns).stack ∧
      (ctx.filledMoment start turns).2 = (ctx.moment start turns).state := by
  induction turns with
  | zero => exact ⟨rfl, rfl⟩
  | succ turns ih =>
    obtain ⟨frames, states⟩ := ih
    have erased := congrFun (ctx.turnFilled_progress (ctx.filledMoment start turns).1)
      (ctx.filledMoment start turns).2
    rw [map_eq_pure_bind, frames] at erased
    unfold filledMoment moment next
    dsimp only
    rw [← states, ← erased]
    cases turned : ctx.turnFilled (ctx.filledMoment start turns).1 (ctx.filledMoment start turns).2 with
    | error e s => rw [bind_of_error turned]; exact ⟨rfl, rfl⟩
    | ok progress s =>
      rw [bind_of_ok turned]
      cases progress <;> exact ⟨rfl, rfl⟩

end Context

end SexprReader
