import Mathlib.Data.List.Induction
import Mathlib.Data.List.Basic
import SexprReader.Logging.Setup

namespace SexprReader.Logging

abbrev OwnHandler := { handler : Handler // handler.owner = .application }

/-- What the library or the application is told to do about logging. -/
inductive Action where
  | configure (level : Option String) (format : String)
  | start (force : Bool)
  | setEnvironment (environment : Environment)
  | makeHandler (kind : HandlerKind) (level : Int) (format : Format)
  | attach (handler : OwnHandler)
  | detach (handler : OwnHandler)

inductive Change where
  | detach (handler : Handler)
  | countHandler
  | install (handler : Handler)
  | setLevel (level : Int)
  | attach (handler : Handler)
  | markStarted
  | setEnvironment (environment : Environment)

namespace Setup

def change (s : Setup) : Change → Setup
  | .detach handler => s.detach handler
  | .countHandler => { s with made := s.made + 1 }
  | .install handler => { s with installed := some handler }
  | .setLevel level => { s with level }
  | .attach handler => s.attach handler
  | .markStarted => { s with started := true }
  | .setEnvironment environment => { s with environment }

/-- The name of the level that a configuration asks for. One that is absent or empty comes from the
environment. -/
def levelAsked (s : Setup) : Option String → String
  | some level => if level.isEmpty then s.levelFromEnvironment else level
  | none => s.levelFromEnvironment

section

-- What is accepted as a layout.
variable (accepts : String → Bool)

def configureChanges (s : Setup) (level : Option String) (format : String) : List Change :=
  s.installed.toList.map .detach ++
    match s.makeHandler (s.levelAsked level) format accepts with
    | .error _ => []
    | .ok (handler, _) =>
      [.countHandler, .install handler, .setLevel handler.level, .attach handler]

def startChanges (s : Setup) (force : Bool) : List Change :=
  if s.started && !force then []
  else s.configureChanges accepts none Format.standard.text ++
    match s.makeHandler s.levelFromEnvironment Format.standard.text accepts with
    | .error _ => []
    | .ok _ => [.markStarted]

def changes (s : Setup) : Action → List Change
  | .configure level format => s.configureChanges accepts level format
  | .start force => s.startChanges accepts force
  | .setEnvironment environment => [.setEnvironment environment]
  | .makeHandler _ _ _ => [.countHandler]
  | .attach handler => [.attach handler]
  | .detach handler => [.detach handler]

def act (s : Setup) : Action → Setup × Option Fault
  | .configure level format => s.configure level format accepts
  | .start force => s.start force accepts
  | .setEnvironment environment => ({ s with environment }, none)
  | .makeHandler kind level format => ((s.makeApplicationHandler kind level format).2, none)
  | .attach handler => (s.attach handler, none)
  | .detach handler => (s.detach handler, none)

def after (s : Setup) (actions : List Action) : Setup :=
  actions.foldl (fun s action => (s.act accepts action).1) s

/-- The setups that an action goes through, from the one in front of it to the one behind it. -/
def moments (s : Setup) (action : Action) : List Setup := (s.changes accepts action).scanl change s

end

def handlersOf (s : Setup) (owner : Owner) : List Handler := s.handlers.filter (·.owner = owner)

variable {accepts : String → Bool}

@[simp] theorem after_nil (s : Setup) : s.after accepts [] = s := rfl

theorem after_concat (s : Setup) (actions : List Action) (action : Action) :
    s.after accepts (actions ++ [action]) = ((s.after accepts actions).act accepts action).1 := by
  simp [after]

section

variable {s : Setup} {handler : Handler} {owner : Owner}

theorem handlersOf_attach (absent : handler ∉ s.handlers) :
    (s.attach handler).handlersOf owner =
      s.handlersOf owner ++ if handler.owner = owner then [handler] else [] := by
  rw [attach, if_neg (by simpa using absent), handlersOf, List.filter_append, List.filter_singleton]
  simp [handlersOf]

theorem handlersOf_detach : (s.detach handler).handlersOf owner = (s.handlersOf owner).erase handler :=
  List.erase_filter.symm

theorem mem_handlersOf : handler ∈ s.handlersOf owner ↔ handler ∈ s.handlers ∧ handler.owner = owner := by
  simp [handlersOf]

theorem not_mem_application (library : handler.owner = .library) : handler ∉ s.handlersOf .application :=
  fun member => by
    have owned := library.symm.trans (mem_handlersOf.mp member).2
    cases owned

theorem handlers_eq (none : s.handlersOf .library = []) : s.handlers = s.handlersOf .application := by
  refine (List.filter_eq_self.mpr fun handler member => ?_).symm
  have other := List.filter_eq_nil_iff.mp none handler member
  cases owned : handler.owner with
  | library => simp [owned] at other
  | application => simp

end

def vacate (s : Setup) : Setup := (s.installed.toList.map .detach).foldl change s

def replace (s : Setup) (handler : Handler) : Setup :=
  [.countHandler, .install handler, .setLevel handler.level, .attach handler].foldl change s.vacate

theorem vacate_eq (s : Setup) : s.vacate = { s with handlers := s.vacate.handlers } := by
  obtain ⟨environment, level, handlers, installed, started, made⟩ := s
  cases installed <;> rfl

/-- A configuration takes the old handler away, and then puts the new one in its place if there can be
one. -/
theorem configure_eq (s : Setup) (level : Option String) (format : String) :
    s.configure level format accepts =
      match s.makeHandler (s.levelAsked level) format accepts with
      | .error fault => (s.vacate, some fault)
      | .ok (handler, _) => (s.replace handler, none) := by
  have whole : s.configure level format accepts =
      match s.vacate.makeHandler (s.levelAsked level) format accepts with
      | .error fault => (s.vacate, some fault)
      | .ok (handler, s) =>
        ({ s with installed := some handler, level := handler.level }.attach handler, none) := by
    obtain ⟨environment, own, handlers, installed, started, made⟩ := s
    cases installed <;> cases level <;> rfl
  -- What handler is made has nothing to do with those that are attached.
  have made : s.vacate.makeHandler (s.levelAsked level) format accepts =
      (s.makeHandler (s.levelAsked level) format accepts).map fun (handler, _) =>
        (handler, s.vacate.change .countHandler) := by
    rw [vacate_eq]
    unfold makeHandler
    cases Format.ofText? format accepts with
    | none => rfl
    | some format => cases level? (s.levelAsked level) <;> rfl
  rw [whole, made]
  cases s.makeHandler (s.levelAsked level) format accepts <;> rfl

theorem configure_changes (s : Setup) (level : Option String) (format : String) :
    (s.configure level format accepts).1 = (s.configureChanges accepts level format).foldl change s := by
  rw [configure_eq, configureChanges, List.foldl_append, ← vacate]
  cases s.makeHandler (s.levelAsked level) format accepts <;> rfl

theorem start_eq (s : Setup) (force : Bool) :
    s.start force accepts =
      if s.started && !force then (s, none)
      else match s.makeHandler s.levelFromEnvironment Format.standard.text accepts with
        | .error fault => (s.vacate, some fault)
        | .ok (handler, _) => ((s.replace handler).change .markStarted, none) := by
  unfold start
  rw [configure_eq, levelAsked]
  cases s.makeHandler s.levelFromEnvironment Format.standard.text accepts <;> rfl

theorem act_eq_changes (s : Setup) (action : Action) :
    (s.act accepts action).1 = (s.changes accepts action).foldl change s := by
  cases action with
  | configure level format => exact s.configure_changes level format
  | start force =>
    simp only [act, changes, start_eq, startChanges]
    split
    · rfl
    · rw [List.foldl_append, configureChanges, List.foldl_append, ← vacate, levelAsked]
      cases s.makeHandler s.levelFromEnvironment Format.standard.text accepts <;> rfl
  | _ => rfl

theorem makeHandler_eq_ok {s s' : Setup} {name format : String} {handler : Handler}
    (makes : s.makeHandler name format accepts = .ok (handler, s')) :
    handler.owner = .library ∧ handler.serial = s.made ∧ level? name = some handler.level := by
  unfold makeHandler at makes
  split at makes
  · cases makes
  · split at makes
    · cases makes
    next known =>
      cases makes
      exact ⟨rfl, rfl, known⟩

theorem exists_makeHandler_iff (s : Setup) (name format : String) :
    (∃ made, s.makeHandler name format accepts = .ok made) ↔
      (Format.ofText? format accepts).isSome ∧ (level? name).isSome := by
  unfold makeHandler
  cases Format.ofText? format accepts with
  | none => simp
  | some format => cases level? name <;> simp

/-- Between two actions the library has at most the handler attached that it has installed last. -/
structure Sound (s : Setup) : Prop where
  attached : s.handlersOf .library = [] ∨ s.handlersOf .library = s.installed.toList
  installed : ∀ handler ∈ s.installed, handler.owner = .library ∧ handler.serial < s.made

namespace Sound

variable {s : Setup} {handler : Handler}

theorem initial : Sound initial := ⟨.inl rfl, nofun⟩

theorem serial_lt (sound : s.Sound) (member : handler ∈ s.handlersOf .library) : handler.serial < s.made := by
  rcases sound.attached with none | one
  · rw [none] at member
    cases member
  · rw [one, Option.mem_toList] at member
    exact (sound.installed handler member).2

theorem vacate_eq (sound : s.Sound) : s.vacate = { s with handlers := s.handlersOf .application } := by
  obtain ⟨attached, installed⟩ := sound
  have others : s.vacate.handlersOf .library = [] ∧
      s.vacate.handlersOf .application = s.handlersOf .application := by
    unfold vacate
    cases old : s.installed with
    | none =>
      rw [old] at attached
      exact ⟨attached.elim id id, rfl⟩
    | some handler =>
      have absent := not_mem_application (s := s) (installed handler old).1
      have detached : ([Change.detach handler]).foldl change s = s.detach handler := rfl
      rw [Option.toList_some, List.map_singleton, detached, handlersOf_detach, handlersOf_detach,
        List.erase_of_not_mem absent]
      refine ⟨?_, rfl⟩
      rcases attached with none | one
      · rw [none, List.erase_nil]
      · rw [one, old, Option.toList_some, List.erase_cons_head]
  rw [Setup.vacate_eq, handlers_eq others.1, others.2]

theorem replace_eq (sound : s.Sound) (library : handler.owner = .library) :
    s.replace handler = { s with
      handlers := s.handlersOf .application ++ [handler]
      installed := some handler
      level := handler.level
      made := s.made + 1 } := by
  rw [Setup.replace, sound.vacate_eq]
  simp [change, attach, not_mem_application library]

theorem library_vacate (sound : s.Sound) : s.vacate.handlersOf .library = [] := by
  rw [sound.vacate_eq, handlersOf, List.filter_eq_nil_iff]
  intro handler member
  simp [(mem_handlersOf.mp member).2]

theorem application_vacate (sound : s.Sound) :
    s.vacate.handlersOf .application = s.handlersOf .application := by
  rw [sound.vacate_eq]
  simp [handlersOf]

theorem handlersOf_replace (sound : s.Sound) (library : handler.owner = .library) :
    (s.replace handler).handlersOf .library = [handler] ∧
      (s.replace handler).handlersOf .application = s.handlersOf .application := by
  have absent : handler ∉ s.vacate.handlers := by
    rw [sound.vacate_eq]
    exact not_mem_application library
  have attached (owner : Owner) : (s.replace handler).handlersOf owner =
      s.vacate.handlersOf owner ++ if handler.owner = owner then [handler] else [] :=
    handlersOf_attach absent
  rw [attached, attached, sound.library_vacate, sound.application_vacate]
  simp [library]

theorem vacate (sound : s.Sound) : s.vacate.Sound := by
  have none := sound.library_vacate
  rw [Setup.vacate_eq] at none ⊢
  exact ⟨.inl none, sound.installed⟩

theorem replace (sound : s.Sound) (library : handler.owner = .library)
    (serial : handler.serial = s.made) : (s.replace handler).Sound := by
  have attached := (sound.handlersOf_replace library).1
  rw [sound.replace_eq library] at attached ⊢
  refine ⟨.inr attached, fun other installed => ?_⟩
  cases installed
  exact ⟨library, serial ▸ Nat.lt_succ_self _⟩

theorem of_own {handlers : List Handler} (sound : s.Sound)
    (same : handlers.filter (·.owner = .library) = s.handlersOf .library) :
    ({ s with handlers } : Setup).Sound :=
  ⟨sound.attached.imp same.trans same.trans, sound.installed⟩

theorem attach_own (sound : s.Sound) (own : OwnHandler) : (s.attach own).Sound := by
  unfold attach
  split
  · exact sound
  · exact sound.of_own (by simp [handlersOf, own.property])

theorem detach_own (sound : s.Sound) (own : OwnHandler) : (s.detach own).Sound := by
  refine sound.of_own (List.erase_filter.symm.trans (List.erase_of_not_mem fun member => ?_))
  have owned := own.property.symm.trans (mem_handlersOf.mp member).2
  cases owned

theorem configure (sound : s.Sound) (level : Option String) (format : String) :
    (s.configure level format accepts).1.Sound := by
  rw [configure_eq]
  cases made : s.makeHandler (s.levelAsked level) format accepts with
  | error fault => exact sound.vacate
  | ok result =>
    obtain ⟨library, serial, -⟩ := makeHandler_eq_ok made
    exact sound.replace library serial

theorem act (sound : s.Sound) (action : Action) : (s.act accepts action).1.Sound := by
  cases action with
  | configure level format => exact sound.configure level format
  | start force =>
    have configured : (s.configure none Format.standard.text accepts).1.Sound := sound.configure _ _
    simp only [Setup.act, start]
    split
    · exact sound
    · split
      next done => exact ⟨(done ▸ configured).attached, (done ▸ configured).installed⟩
      next failed => exact failed ▸ configured
  | setEnvironment environment => exact ⟨sound.attached, sound.installed⟩
  | makeHandler kind level format =>
    refine ⟨sound.attached, fun handler installed => ?_⟩
    obtain ⟨library, below⟩ := sound.installed handler installed
    exact ⟨library, Nat.lt_succ_of_lt below⟩
  | attach own => exact sound.attach_own own
  | detach own => exact sound.detach_own own

theorem after (sound : s.Sound) (actions : List Action) : (s.after accepts actions).Sound := by
  induction actions using List.reverseRecOn with
  | nil => exact sound
  | append_singleton actions action ih =>
    rw [after_concat]
    exact ih.act action

theorem length_le (sound : s.Sound) : (s.handlersOf .library).length ≤ 1 := by
  rcases sound.attached with none | one
  · simp [none]
  · rw [one]
    cases s.installed <;> simp

end Sound

structure Tidy (own : List Handler) (s : Setup) : Prop where
  library : (s.handlersOf .library).length ≤ 1
  application : s.handlersOf .application = own

section

variable {s moment : Setup} {own : List Handler}

theorem Tidy.of_handlers (tidy : s.Tidy own) (same : moment.handlers = s.handlers) : moment.Tidy own := by
  obtain ⟨library, application⟩ := tidy
  unfold handlersOf at library application
  exact ⟨by rwa [handlersOf, same], by rwa [handlersOf, same]⟩

theorem mem_scanl_append {changes more : List Change} (member : moment ∈ (changes ++ more).scanl change s) :
    moment ∈ changes.scanl change s ∨ moment ∈ more.scanl change (changes.foldl change s) := by
  rw [List.scanl_append] at member
  exact (List.mem_append.mp member).imp_right List.mem_of_mem_tail

theorem Sound.tidy (sound : s.Sound) : s.Tidy (s.handlersOf .application) := ⟨sound.length_le, rfl⟩

theorem Sound.tidy_vacate (sound : s.Sound) : s.vacate.Tidy (s.handlersOf .application) :=
  ⟨sound.vacate.length_le, sound.application_vacate⟩

theorem Sound.tidy_configure (sound : s.Sound) {level : Option String} {format : String}
    (member : moment ∈ (s.configureChanges accepts level format).scanl change s) :
    moment.Tidy (s.handlersOf .application) := by
  have vacated := sound.tidy_vacate
  -- The changes are those that take the old handler away, and behind them those that put the new
  -- one there.
  rcases mem_scanl_append member with taken | put
  · have ends : moment = s ∨ moment = s.vacate := by
      unfold Setup.vacate
      cases old : s.installed with
      | none =>
        rw [old] at taken
        simpa using taken
      | some handler =>
        rw [old] at taken
        simpa using taken
    rcases ends with rfl | rfl
    · exact sound.tidy
    · exact vacated
  · rw [← Setup.vacate] at put
    cases made : s.makeHandler (s.levelAsked level) format accepts with
    | error fault =>
      rw [made] at put
      cases List.mem_singleton.mp put
      exact vacated
    | ok result =>
      obtain ⟨handler, s'⟩ := result
      obtain ⟨library, -, -⟩ := makeHandler_eq_ok made
      obtain ⟨one, application⟩ := sound.handlersOf_replace library
      rw [made] at put
      simp only [List.scanl_cons, List.scanl_nil, List.mem_cons, List.not_mem_nil, or_false] at put
      rcases put with rfl | rfl | rfl | rfl | rfl
      · exact vacated
      · exact vacated.of_handlers rfl
      · exact vacated.of_handlers rfl
      · exact vacated.of_handlers rfl
      · exact ⟨one ▸ Nat.le_refl 1, application⟩

end

end Setup

/-- What becomes of the application's handlers, of which the library takes no notice. -/
def Action.applyOwn (own : List Handler) : Action → List Handler
  | attach handler => if handler.val ∈ own then own else own ++ [handler.val]
  | detach handler => own.erase handler
  | _ => own

namespace Setup

variable {accepts : String → Bool} {s moment : Setup}

theorem application_attach (s : Setup) (own : OwnHandler) :
    (s.attach own).handlersOf .application = Action.applyOwn (s.handlersOf .application) (.attach own) := by
  have owned : own.val ∈ s.handlersOf .application ↔ own.val ∈ s.handlers := by
    simp [mem_handlersOf, own.property]
  by_cases present : own.val ∈ s.handlers
  · simp [attach, Action.applyOwn, owned, present]
  · rw [handlersOf_attach present]
    simp [Action.applyOwn, owned, present, own.property]

theorem Sound.application_configure (sound : s.Sound) (level : Option String) (format : String) :
    (s.configure level format accepts).1.handlersOf .application = s.handlersOf .application := by
  rw [configure_eq]
  cases made : s.makeHandler (s.levelAsked level) format accepts with
  | error fault => exact sound.application_vacate
  | ok result => exact (sound.handlersOf_replace (makeHandler_eq_ok made).1).2

theorem Sound.application_act (sound : s.Sound) (action : Action) :
    (s.act accepts action).1.handlersOf .application = action.applyOwn (s.handlersOf .application) := by
  cases action with
  | configure level format => exact sound.application_configure level format
  | start force =>
    have configured : (s.configure none Format.standard.text accepts).1.handlersOf .application =
        s.handlersOf .application := sound.application_configure _ _
    change (s.start force accepts).1.handlersOf .application = s.handlersOf .application
    unfold start
    split
    · rfl
    · split
      next done =>
        rw [done] at configured
        exact configured
      next failed =>
        rw [failed] at configured
        exact configured
  | setEnvironment environment => rfl
  | makeHandler kind level format => rfl
  | attach own => exact s.application_attach own
  | detach own => exact handlersOf_detach

theorem Sound.tidy_moment (sound : s.Sound) {action : Action} (member : moment ∈ s.moments accepts action) :
    moment.Tidy (s.handlersOf .application) ∨
      moment.Tidy (action.applyOwn (s.handlersOf .application)) := by
  -- All other actions are a single change at most.
  have single {c : Change} (one : (s.act accepts action).1 = s.change c)
      (member : moment ∈ [c].scanl change s) :
      moment.Tidy (s.handlersOf .application) ∨
        moment.Tidy (action.applyOwn (s.handlersOf .application)) := by
    simp only [List.scanl_cons, List.scanl_nil, List.mem_cons, List.not_mem_nil, or_false] at member
    rcases member with rfl | rfl
    · exact .inl sound.tidy
    · rw [← one]
      exact .inr ⟨(sound.act action).length_le, sound.application_act action⟩
  cases action with
  | configure level format => exact .inl (sound.tidy_configure member)
  | start force =>
    refine .inl ?_
    simp only [moments, changes, startChanges] at member
    split at member
    · cases List.mem_singleton.mp member
      exact sound.tidy
    · rcases mem_scanl_append member with configuring | marking
      · exact sound.tidy_configure configuring
      · -- The mark is all that is left to do.
        have configured :
            (s.configure none Format.standard.text accepts).1.Tidy (s.handlersOf .application) :=
          ⟨(sound.configure _ _).length_le, sound.application_configure _ _⟩
        rw [← configure_changes] at marking
        generalize (s.configure none Format.standard.text accepts).1 = replaced at configured marking
        refine configured.of_handlers ?_
        split at marking
        · cases List.mem_singleton.mp marking
          rfl
        · simp only [List.scanl_cons, List.scanl_nil, List.mem_cons, List.not_mem_nil, or_false] at marking
          rcases marking with rfl | rfl <;> rfl
  | setEnvironment environment => exact single rfl member
  | makeHandler kind level format => exact single rfl member
  | attach own => exact single rfl member
  | detach own => exact single rfl member

theorem made_le_change (s : Setup) (c : Change) : s.made ≤ (s.change c).made := by
  cases c with
  | countHandler => exact Nat.le_succ s.made
  | attach handler =>
    simp only [change, attach]
    split <;> exact Nat.le_refl _
  | _ => exact Nat.le_refl _

theorem made_le_act (s : Setup) (action : Action) : s.made ≤ (s.act accepts action).1.made := by
  rw [act_eq_changes]
  generalize s.changes accepts action = changes
  induction changes generalizing s with
  | nil => exact Nat.le_refl _
  | cons c changes ih => exact Nat.le_trans (s.made_le_change c) (ih (s.change c))

theorem made_le_after {earlier actions : List Action} (before : earlier <+: actions) :
    (s.after accepts earlier).made ≤ (s.after accepts actions).made := by
  obtain ⟨later, rfl⟩ := before
  induction later using List.reverseRecOn with
  | nil => simp
  | append_singleton later action ih =>
    rw [← List.append_assoc, after_concat]
    exact Nat.le_trans ih (made_le_act _ action)

theorem started_change (s : Setup) {c : Change} (other : c ≠ .markStarted) :
    (s.change c).started = s.started := by
  cases c with
  | markStarted => exact absurd rfl other
  | attach handler =>
    simp only [change, attach]
    split <;> rfl
  | _ => rfl

theorem started_configure (s : Setup) (level : Option String) (format : String) :
    (s.configure level format accepts).1.started = s.started := by
  have vacated : s.vacate.started = s.started := by rw [vacate_eq]
  rw [configure_eq]
  cases s.makeHandler (s.levelAsked level) format accepts with
  | error fault => exact vacated
  | ok made => simp [replace, started_change, vacated]

theorem started_act (s : Setup) (action : Action) :
    (s.act accepts action).1.started ↔
      s.started ∨ ∃ force, action = .start force ∧ (s.act accepts action).2 = none := by
  cases action with
  | configure level format => simp [act, started_configure]
  | start force =>
    have configured : (s.configure none Format.standard.text accepts).1.started = s.started :=
      s.started_configure _ _
    simp only [act, start]
    split
    next skipped => simp_all
    next =>
      split
      next => simp
      next failed =>
        rw [failed] at configured
        simp only at configured
        simp [configured]
  | attach own => simp [act, show s.attach own = s.change (.attach own) from rfl, started_change]
  | setEnvironment environment => simp [act]
  | makeHandler kind level format => simp [act, makeApplicationHandler]
  | detach own => simp [act, detach]

theorem started_after_iff (actions : List Action) :
    (initial.after accepts actions).started ↔ ∃ earlier force, earlier ++ [.start force] <+: actions ∧
      ((initial.after accepts earlier).act accepts (.start force)).2 = none := by
  induction actions using List.reverseRecOn with
  | nil => simp [initial]
  | append_singleton actions action ih =>
    rw [after_concat, started_act, ih]
    constructor
    · rintro (⟨earlier, force, before, succeeds⟩ | ⟨force, rfl, succeeds⟩)
      · exact ⟨earlier, force, before.trans (List.prefix_append _ _), succeeds⟩
      · exact ⟨actions, force, List.prefix_refl _, succeeds⟩
    · rintro ⟨earlier, force, before, succeeds⟩
      rcases List.prefix_concat_iff.mp before with whole | before
      · obtain ⟨rfl, last⟩ := List.append_inj' whole rfl
        cases last
        exact .inr ⟨force, rfl, succeeds⟩
      · exact .inl ⟨earlier, force, before, succeeds⟩

/-- The name of the level and the layout that an action configures the logger with. Only a start may find
that there is nothing to do. -/
def asked (s : Setup) : Action → Option (String × String)
  | .configure level format => some (s.levelAsked level, format)
  | .start force =>
    if s.started && !force then none else some (s.levelFromEnvironment, Format.standard.text)
  | _ => none

theorem act_asked (accepts : String → Bool) {s : Setup} {action : Action} {name format : String}
    (asks : s.asked action = some (name, format)) :
    (∃ fault, s.makeHandler name format accepts = .error fault ∧
        s.act accepts action = (s.vacate, some fault)) ∨
      ∃ handler made, s.makeHandler name format accepts = .ok (handler, made) ∧
        (s.act accepts action).2 = none ∧
        ((s.act accepts action).1 = s.replace handler ∨
          (s.act accepts action).1 = (s.replace handler).change .markStarted) := by
  cases action with
  | configure level format =>
    cases asks
    simp only [act, configure_eq]
    cases s.makeHandler (s.levelAsked level) format accepts with
    | error fault => exact .inl ⟨fault, rfl, rfl⟩
    | ok result => exact .inr ⟨result.1, result.2, rfl, rfl, .inl rfl⟩
  | start force =>
    simp only [asked] at asks
    split at asks
    · cases asks
    next unskipped =>
      cases asks
      simp only [act, start_eq, unskipped]
      cases s.makeHandler s.levelFromEnvironment Format.standard.text accepts with
      | error fault => exact .inl ⟨fault, rfl, rfl⟩
      | ok result => exact .inr ⟨result.1, result.2, rfl, rfl, .inr rfl⟩
  | _ => cases asks

theorem act_fault {s : Setup} {action : Action} {fault : Fault}
    (fails : (s.act accepts action).2 = some fault) : (s.act accepts action).1 = s.vacate := by
  cases asks : s.asked action with
  | none =>
    cases action with
    | configure level format => cases asks
    | start force =>
      simp only [asked] at asks
      split at asks
      next skipped =>
        rw [act, start_eq, if_pos skipped] at fails
        cases fails
      next => cases asks
    | _ => cases fails
  | some choice =>
    obtain ⟨other, -, failed⟩ | ⟨handler, made, -, succeeds, -⟩ := act_asked accepts asks
    · rw [failed]
    · rw [succeeds] at fails
      cases fails

theorem application_after (actions : List Action) :
    (initial.after accepts actions).handlersOf .application = actions.foldl Action.applyOwn [] := by
  induction actions using List.reverseRecOn with
  | nil => rfl
  | append_singleton actions action ih =>
    rw [after_concat, (Sound.initial.after actions).application_act, ih, List.foldl_append]
    rfl

theorem succeeds_iff {s : Setup} {action : Action} {name format : String}
    (asks : s.asked action = some (name, format)) :
    (s.act accepts action).2 = none ↔ (Format.ofText? format accepts).isSome ∧ (level? name).isSome := by
  rw [← exists_makeHandler_iff s]
  obtain ⟨fault, makes, failed⟩ | ⟨handler, made, makes, succeeds, -⟩ := act_asked accepts asks
  · simp [makes, failed]
  · simp [makes, succeeds]

theorem Sound.act_asked_ok {s : Setup} (sound : s.Sound) {action : Action} {name format : String}
    (asks : s.asked action = some (name, format)) (succeeds : (s.act accepts action).2 = none) :
    ∃ handler made, s.makeHandler name format accepts = .ok (handler, made) ∧
      (s.act accepts action).1.handlersOf .library = [handler] ∧
      (s.act accepts action).1.installed = some handler ∧ (s.act accepts action).1.level = handler.level := by
  obtain ⟨fault, -, failed⟩ | ⟨handler, made, makes, -, replaced⟩ := act_asked accepts asks
  · rw [failed] at succeeds
    cases succeeds
  · have library := (makeHandler_eq_ok makes).1
    have attached := (sound.handlersOf_replace library).1
    refine ⟨handler, made, makes, ?_⟩
    rcases replaced with same | same
    · rw [same, sound.replace_eq library] at *
      exact ⟨attached, rfl, rfl⟩
    · rw [same, sound.replace_eq library] at *
      exact ⟨attached, rfl, rfl⟩

theorem start_eq_self_iff (s : Setup) : s.start false accepts = (s, none) ↔ s.started := by
  constructor
  · intro same
    have started := (s.started_act (.start false)).mpr (.inr ⟨false, rfl, congrArg Prod.snd same⟩)
    rwa [act, same] at started
  · intro started
    rw [start, if_pos (by simp [started])]

/-- Whatever the library and the application do, and whatever of it fails, there is no moment at which two
handlers of the library are attached, nor is a handler of the application touched but by itself. A
configuration succeeds exactly if its layout is accepted and its level is known; the handler made for it is
then the only one of the library, and its level is the logger's. Without being forced to, a start does
nothing exactly if there has been one that succeeded. -/
theorem one_library_handler (accepts : String → Bool) (actions : List Action) :
    let s := initial.after accepts actions
    (∀ action, ∀ moment ∈ s.moments accepts action, (moment.handlersOf .library).length ≤ 1 ∧
      (moment.handlersOf .application = s.handlersOf .application ∨
        moment.handlersOf .application = action.applyOwn (s.handlersOf .application))) ∧
    s.handlersOf .application = actions.foldl Action.applyOwn [] ∧
    (∀ action name format, s.asked action = some (name, format) →
      ((s.act accepts action).2 = none ↔ (Format.ofText? format accepts).isSome ∧ (level? name).isSome) ∧
      ((s.act accepts action).2 = none → ∃ handler made,
        s.makeHandler name format accepts = .ok (handler, made) ∧
        (s.act accepts action).1.handlersOf .library = [handler] ∧
        (s.act accepts action).1.installed = some handler ∧
        level? name = some handler.level ∧ (s.act accepts action).1.level = handler.level ∧
        ∀ earlier, earlier <+: actions → handler ∉ (initial.after accepts earlier).handlers)) ∧
    (s.start false accepts = (s, none) ↔ ∃ earlier force, earlier ++ [.start force] <+: actions ∧
      ((initial.after accepts earlier).act accepts (.start force)).2 = none) := by
  intro s
  have sound : s.Sound := Sound.initial.after actions
  refine ⟨fun action moment member => ?_, application_after actions,
    fun action name format asks => ⟨succeeds_iff asks, fun succeeds => ?_⟩,
    (start_eq_self_iff s).trans (started_after_iff actions)⟩
  · rcases sound.tidy_moment member with ⟨library, application⟩ | ⟨library, application⟩
    · exact ⟨library, .inl application⟩
    · exact ⟨library, .inr application⟩
  · obtain ⟨handler, made, makes, attached, installed, level⟩ := sound.act_asked_ok asks succeeds
    obtain ⟨library, serial, known⟩ := makeHandler_eq_ok makes
    refine ⟨handler, made, makes, attached, installed, known, level, fun earlier before member => ?_⟩
    -- The handlers of the library are numbered as they are made.
    have older := (Sound.initial.after earlier).serial_lt (mem_handlersOf.mpr ⟨member, library⟩)
    have newer : (initial.after accepts earlier).made ≤ s.made := made_le_after before
    rw [serial] at older
    exact Nat.not_lt_of_le newer older

/-- A handler of the application survives when the library's is replaced, and a failure in between. -/
theorem one_library_handler_replaced :
    let accepts := Format.isMarked
    let own : OwnHandler := ⟨⟨0, .application, .stream, 10, .messageOnly⟩, rfl⟩
    let actions := [.start false, .attach own, .configure (some "DEBUG") "%(asctime)s %(message).120s",
      .configure (some "LOUD") Format.standard.text]
    (initial.after accepts actions).handlersOf .application = [own.val] ∧
      (initial.after accepts actions).start false accepts = (initial.after accepts actions, none) ∧
      ∃ handler,
        ((initial.after accepts actions).act accepts (.start true)).1.handlersOf .library = [handler] ∧
        ((initial.after accepts actions).act accepts (.start true)).1.level = handler.level ∧
        handler.level = 30 := by
  intro accepts own actions
  obtain ⟨-, application, configured, skipped⟩ := one_library_handler accepts actions
  obtain ⟨succeeds, replaced⟩ :=
    configured (.start true) "WARNING" Format.standard.text (by decide +kernel)
  obtain ⟨handler, made, -, attached, -, known, level, -⟩ := replaced (succeeds.mpr (by decide +kernel))
  have first : [] ++ [.start false] <+: actions := ⟨_, rfl⟩
  have started := skipped.mpr ⟨[], false, first, by decide +kernel⟩
  have warning : handler.level = 30 := Option.some.inj (known.symm.trans (by decide +kernel))
  exact ⟨application.trans (by decide +kernel), started, handler, attached, level, warning⟩

/-- A call that fails leaves everything as it was, but for the handler of an earlier call, which is gone. -/
theorem failure_detaches_library (accepts : String → Bool) (actions : List Action) {action : Action}
    {fault : Fault} (fails : ((initial.after accepts actions).act accepts action).2 = some fault) :
    let s := initial.after accepts actions
    (s.act accepts action).1 = { s with handlers := s.handlersOf .application } ∧
      ((s.act accepts action).1 = s ↔ s.handlersOf .library = []) := by
  intro s
  have sound : s.Sound := Sound.initial.after actions
  have failed : (s.act accepts action).1 = { s with handlers := s.handlersOf .application } :=
    (act_fault fails).trans sound.vacate_eq
  refine ⟨failed, fun unchanged => ?_, fun none => ?_⟩
  · rw [← unchanged, act_fault fails]
    exact sound.library_vacate
  · rw [failed, ← handlers_eq none]

/-- An unknown level in the environment: of two handlers, the application's is left. -/
theorem failure_detaches_library_at_start :
    let accepts := Format.isMarked
    let own : OwnHandler := ⟨⟨0, .application, .stream, 10, .messageOnly⟩, rfl⟩
    let actions := [.configure none "%(asctime)s %(message).120s", .attach own,
      .setEnvironment ⟨some "loud", none⟩]
    let s := initial.after accepts actions
    (s.act accepts (.start true)).2 = some (.unknownLevel "LOUD") ∧ s.handlers.length = 2 ∧
      (s.act accepts (.start true)).1 = { s with handlers := [own.val] } := by
  intro accepts own actions s
  have fails : (s.act accepts (.start true)).2 = some (.unknownLevel "LOUD") := by decide +kernel
  have left := (failure_detaches_library accepts actions fails).1
  exact ⟨fails, by decide +kernel, left.trans (by decide +kernel)⟩

/-- The handler of the library goes although no other takes its place. -/
theorem unknown_level_detaches :
    let accepts := Format.isMarked
    let s := initial.after accepts [.configure (some "INFO") Format.standard.text]
    (s.act accepts (.configure (some "LOUD") Format.standard.text)).2 = some (.unknownLevel "LOUD") ∧
      s.handlers.length = 1 ∧
      (s.act accepts (.configure (some "LOUD") Format.standard.text)).1.handlers = [] := by
  decide +kernel

end Setup

end SexprReader.Logging
