import SexprReader.Proofs.Host.Replay

/-! A reader over a host of handles beside one over a store. At any time the store is what the calls
recorded so far make when they are made again, and the handles of the one reader stand for the values
of the other. -/

namespace SexprReader

open ReadM Store

variable {σ V α β : Type}

/-- A meaning is extended: what stood for a value still does, up to the identity of characters. -/
def Extends (meaning meaning' : V → Option Value) : Prop :=
  ∀ v w, meaning v = some w → ∃ w', meaning' v = some w' ∧ w.Alike w'

structure Held (meaning : V → Option Value) (v : V) (w : Value) : Prop where
  means : meaning v = some w
  lasting : ∀ c, w ≠ .character c

theorem Extends.refl (meaning : V → Option Value) : Extends meaning meaning :=
  fun _ w means => ⟨w, means, .refl w⟩

theorem Extends.trans {meaning meaning' meaning'' : V → Option Value}
    (first : Extends meaning meaning') (second : Extends meaning' meaning'') :
    Extends meaning meaning'' := by
  intro v w means
  obtain ⟨w', means', alike⟩ := first v w means
  obtain ⟨w'', means'', alike'⟩ := second v w' means'
  exact ⟨w'', means'', alike.trans alike'⟩

theorem Held.extend {meaning meaning' : V → Option Value} {v : V} {w : Value}
    (held : Held meaning v w) (extends_ : Extends meaning meaning') : Held meaning' v w := by
  obtain ⟨w', means, alike⟩ := extends_ v w held.means
  cases alike with
  | refl => exact ⟨means, held.lasting⟩
  | character => exact absurd rfl (held.lasting _)

theorem CallLog.replay_concat [DecidableEq V] {τ W : Type} {host : Host σ V} {other : Host τ W}
    {state : τ} {log : CallLog V} {replay : Replay V τ W}
    (replays : CallLog.replay host other state log = some replay) (record : CallRecord V) :
    CallLog.replay host other state (log ++ [record]) = replay.step other record := by
  unfold CallLog.replay at replays ⊢
  rw [List.foldlM_append, replays]
  simp

structure Parallel (σ V : Type) where
  host : Host σ V
  valid : σ → Prop
  kind : σ → V → Option Kind
  hides : host.Opaque valid kind
  table : TableId
  interpretEscapes : Bool
  origin : Store

namespace Parallel

abbrev store (c : Parallel σ V) : Host Store Value := Store.reader c.table c.interpretEscapes

/-- A meaning goes with the states of both hosts. -/
structure Mirrors (c : Parallel σ V) (meaning : V → Option Value) (s : σ) (store : Store) : Prop where
  valid : c.valid s
  known : c.table.index < store.symbols.tables.size
  stands : ∀ v w, meaning v = some w → Stands c.kind c.table s store v w
  constants : ∀ pair ∈ c.host.constants.zip c.store.constants, Held meaning pair.1 pair.2

section

variable {c : Parallel σ V} {meaning : V → Option Value} {s s' : σ} {store store' : Store}

theorem Mirrors.goes (mirrors : c.Mirrors meaning s store)
    (goes : Goes c.valid c.kind s store s' store') : c.Mirrors meaning s' store' where
  valid := goes.onward.valid
  known := goes.agrees.known mirrors.known
  stands v w means := (mirrors.stands v w means).onward goes.onward goes.agrees
  constants := mirrors.constants

theorem Mirrors.eq_iff (mirrors : c.Mirrors meaning s store) {v u : V} {w x : Value}
    (means : meaning v = some w) (means' : meaning u = some x) (named : x.isNamed = true) :
    c.host.eq v u = true ↔ (w == x) = true := by
  rw [c.hides.eq_iff, beq_iff_eq]
  constructor
  · rintro rfl
    exact Option.some.inj (means.symm.trans means')
  · rintro rfl
    obtain ⟨k, is, fits⟩ := mirrors.stands v w means
    obtain ⟨k', is', fits'⟩ := mirrors.stands u w means'
    obtain rfl := fits.eq_of_isNamed fits' named
    exact c.hides.unique s mirrors.valid v u k (fits.isNamed named) is is'

theorem Mirrors.nil (mirrors : c.Mirrors meaning s store) : Held meaning c.host.nil .nil :=
  mirrors.constants (c.host.nil, .nil) List.mem_cons_self

theorem Mirrors.false (mirrors : c.Mirrors meaning s store) :
    Held meaning c.host.false (.sentinel .false) :=
  mirrors.constants (c.host.false, .sentinel .false) (List.mem_cons_of_mem _ List.mem_cons_self)

theorem Mirrors.endOfStream (mirrors : c.Mirrors meaning s store) :
    Held meaning c.host.endOfStream (.sentinel .endOfStream) :=
  mirrors.constants (c.host.endOfStream, .sentinel .endOfStream)
    (List.mem_cons_of_mem _ (List.mem_cons_of_mem _ List.mem_cons_self))

theorem Mirrors.constant (mirrors : c.Mirrors meaning s store) (constant : Constant) :
    Held meaning ((c.host.constant? constant).getD c.host.false)
      ((c.store.constant? constant).getD c.store.false) := by
  obtain ⟨t, yes⟩ := Option.isSome_iff_exists.mp (c.hides.supports .true)
  obtain ⟨u, unspecified⟩ := Option.isSome_iff_exists.mp (c.hides.supports .unspecified)
  obtain ⟨l, eof⟩ := Option.isSome_iff_exists.mp (c.hides.supports .logicalEof)
  simp only [Host.constant?] at yes unspecified eof
  have constants : c.host.constants.zip c.store.constants =
      [(c.host.nil, .nil), (c.host.false, .sentinel .false),
        (c.host.endOfStream, .sentinel .endOfStream), (t, .sentinel .true),
        (u, .sentinel .unspecified), (l, .sentinel .logicalEof)] := by
    simp only [Host.constants, yes, unspecified, eof]
    rfl
  have held := mirrors.constants
  rw [constants] at held
  cases constant with
  | false => exact held (c.host.false, .sentinel .false) (by simp)
  | true =>
    rw [Host.constant?, yes]
    exact held (t, .sentinel .true) (by simp)
  | unspecified =>
    rw [Host.constant?, unspecified]
    exact held (u, .sentinel .unspecified) (by simp)
  | logicalEof =>
    rw [Host.constant?, eof]
    exact held (l, .sentinel .logicalEof) (by simp)

variable [DecidableEq V]

/-- A handle and a value which answer the same call can be taken for each other from now on. -/
theorem Mirrors.learn (mirrors : c.Mirrors meaning s store)
    (goes : Goes c.valid c.kind s store s' store') {v : V} {w : Value}
    (stands : Stands c.kind c.table s' store' v w)
    (fresh : c.kind s' v = some .object → c.kind s v = none) :
    c.Mirrors (Replay.learn meaning (some v) (some w)) s' store' ∧
      Extends meaning (Replay.learn meaning (some v) (some w)) := by
  have kept := mirrors.goes goes
  have learned : Replay.learn meaning (some v) (some w) v = some w := by simp [Replay.learn]
  have others : ∀ u, u ≠ v → Replay.learn meaning (some v) (some w) u = meaning u := by
    intro u different
    simp [Replay.learn, different]
  -- A handle which is given out again stands for what it stood for: no object is made twice.
  have extends_ : Extends meaning (Replay.learn meaning (some v) (some w)) := by
    intro u x means
    by_cases same : u = v
    · subst same
      obtain ⟨k, is, fits⟩ := kept.stands u x means
      obtain ⟨k', is', fits'⟩ := stands
      cases is.symm.trans is'
      refine ⟨w, learned, fits.alike fits' ?_⟩
      rintro rfl
      obtain ⟨_, was, -⟩ := mirrors.stands u x means
      cases (fresh is).symm.trans was
    · exact ⟨x, (others u same).trans means, .refl x⟩
  refine ⟨⟨kept.valid, kept.known, ?_, ?_⟩, extends_⟩
  · intro u x means
    by_cases same : u = v
    · subst same
      cases learned.symm.trans means
      exact stands
    · exact kept.stands u x ((others u same).symm.trans means)
  · intro pair member
    exact (mirrors.constants pair member).extend extends_

def Means (meaning : V → Option Value) : Option V → Option Value → Prop
  | some v, some w => meaning v = some w
  | _, _ => True

theorem Mirrors.answers (mirrors : c.Mirrors meaning s store)
    (goes : Goes c.valid c.kind s store s' store') {result : Option V} {result' : Option Value}
    (answers : Answers c.kind c.table s result result' s' store') :
    c.Mirrors (Replay.learn meaning result result') s' store' ∧
      Extends meaning (Replay.learn meaning result result') ∧
      Means (Replay.learn meaning result result') result result' := by
  cases result with
  | none => exact ⟨mirrors.goes goes, .refl meaning, trivial⟩
  | some v =>
    cases result' with
    | none => exact answers.elim
    | some w =>
      obtain ⟨learned, extends_⟩ := mirrors.learn goes answers.1 answers.2
      exact ⟨learned, extends_, by simp [Means, Replay.learn]⟩

end

variable [DecidableEq V]

structure At (c : Parallel σ V) (meaning : V → Option Value) (h : Recorded σ V) (store : Store) :
    Prop where
  replays : CallLog.replay c.host c.store c.origin h.calls.toList = some ⟨meaning, store⟩
  mirrors : c.Mirrors meaning h.state store

def Beyond (c : Parallel σ V) (meaning : V → Option Value) (A : (V → Option Value) → Prop)
    (h : Recorded σ V) (store : Store) : Prop :=
  ∃ meaning', Extends meaning meaning' ∧ c.At meaning' h store ∧ A meaning'

/-- The reader over the store does what the reader over the handles does, and as much becomes known
of the meaning. -/
abbrev Tracks (c : Parallel σ V) (meaning : V → Option Value) (m : ReadM (Recorded σ V) α)
    (m' : ReadM Store β) (A : α → β → (V → Option Value) → Prop) : Prop :=
  Simulates Failure.isStructural (c.At meaning) m m' (fun a b => c.Beyond meaning (A a b))
    (c.Beyond meaning fun _ => True)

variable {c : Parallel σ V} {meaning meaning' : V → Option Value} {h h' : Recorded σ V}
  {store store' : Store}

theorem At.beyond {A : (V → Option Value) → Prop} (here : c.At meaning h store) (holds : A meaning) :
    c.Beyond meaning A h store :=
  ⟨meaning, .refl meaning, here, holds⟩

theorem Beyond.of_extends {A : (V → Option Value) → Prop} (beyond : c.Beyond meaning' A h store)
    (extends_ : Extends meaning meaning') : c.Beyond meaning A h store := by
  obtain ⟨meaning'', extends', here, holds⟩ := beyond
  exact ⟨meaning'', extends_.trans extends', here, holds⟩

theorem At.record (call : Call V) {call' : Call Value} {result : Option V} {result' : Option Value}
    {s' : σ} (here : c.At meaning h store) (maps : call.map? meaning = some call')
    (ok : c.store.call call' store = .ok result' store')
    (mirrors : c.Mirrors (Replay.learn meaning result result') s' store') :
    c.At (Replay.learn meaning result result') ⟨s', h.calls.push ⟨call, result⟩⟩ store' where
  replays := by
    rw [Array.toList_push, CallLog.replay_concat here.replays]
    simp [Replay.step, maps, ok]
  mirrors := mirrors

theorem At.record_error {call : Call V} {call' : Call Value} {e : Failure} {s' : σ}
    (here : c.At meaning h store) (maps : call.map? meaning = some call')
    (error : c.store.call call' store = .error e store') (mirrors : c.Mirrors meaning s' store') :
    c.At meaning ⟨s', h.calls.push ⟨call, none⟩⟩ store' where
  replays := by
    rw [Array.toList_push, CallLog.replay_concat here.replays]
    simp [Replay.step, maps, error]
  mirrors := mirrors

namespace Tracks

variable {α' β' : Type} {A : α → β → (V → Option Value) → Prop}
  {B : α' → β' → (V → Option Value) → Prop}

theorem of_mirrors {m : ReadM (Recorded σ V) α} {m' : ReadM Store β}
    (tracks : ∀ s store, c.Mirrors meaning s store → c.Tracks meaning m m' A) :
    c.Tracks meaning m m' A :=
  fun s s' source here => tracks _ _ here.mirrors s s' source here

theorem pure {a : α} {b : β} (holds : A a b meaning) :
    c.Tracks meaning (pure a) (pure b) A :=
  Simulates.pure fun _ _ here => here.beyond holds

theorem throw (e : Failure) : c.Tracks meaning (throw e) (throw e) A :=
  Simulates.throw fun _ _ here => here.beyond trivial

theorem bind {m : ReadM (Recorded σ V) α} {m' : ReadM Store β} {f : α → ReadM (Recorded σ V) α'}
    {f' : β → ReadM Store β'} (first : c.Tracks meaning m m' A)
    (next : ∀ a b meaning', Extends meaning meaning' → A a b meaning' →
      c.Tracks meaning' (f a) (f' b) B) :
    c.Tracks meaning (m >>= f) (m' >>= f') B := by
  refine Simulates.bind first fun a b s s' source beyond => ?_
  obtain ⟨meaning', extends_, here, holds⟩ := beyond
  have rest := next a b meaning' extends_ holds s s' source here
  generalize f a s = r at rest
  generalize f' b s' = r' at rest
  cases rest with
  | ok holds => exact .ok ⟨holds.1, holds.2.of_extends extends_⟩
  | error holds => exact .error ⟨holds.1, holds.2.of_extends extends_⟩
  | excused excused => exact .excused excused

theorem ite {condition condition' : Prop} [Decidable condition] [Decidable condition']
    {m n : ReadM (Recorded σ V) α} {m' n' : ReadM Store β} (same : condition ↔ condition')
    (yes : condition → c.Tracks meaning m m' A) (no : ¬condition → c.Tracks meaning n n' A) :
    c.Tracks meaning (if condition then m else n) (if condition' then m' else n') A := by
  by_cases chosen : condition
  · rw [if_pos chosen, if_pos (same.mp chosen)]
    exact yes chosen
  · rw [if_neg chosen, if_neg (mt same.mpr chosen)]
    exact no chosen

theorem mono {A' : α → β → (V → Option Value) → Prop} {m : ReadM (Recorded σ V) α}
    {m' : ReadM Store β} (tracks : c.Tracks meaning m m' A)
    (implies : ∀ a b meaning', A a b meaning' → A' a b meaning') : c.Tracks meaning m m' A' := by
  intro s s' source here
  have results := tracks s s' source here
  generalize m s = r at results
  generalize m' s' = r' at results
  cases results with
  | ok holds =>
    obtain ⟨source, meaning', extends_, here, holds⟩ := holds
    exact .ok ⟨source, meaning', extends_, here, implies _ _ _ holds⟩
  | error holds => exact .error holds
  | excused excused => exact .excused excused

theorem hostFree {m : ReadM (Recorded σ V) α} {m' : ReadM Store α}
    {A : α → α → (V → Option Value) → Prop} (free : HostFree m m') (holds : ∀ a, A a a meaning) :
    c.Tracks meaning m m' A :=
  Simulates.hostFree free (fun a _ _ here => here.beyond (holds a)) fun _ _ here =>
    here.beyond trivial

/-- A call with values that stand for each other. What the store returns is of the given kind. -/
theorem hosted (call : Call V) {call' : Call Value} {result : α → Option V}
    {result' : β → Option Value} {work : HostM σ α} {work' : HostM Store β} {R : β → Prop}
    (maps : call.map? meaning = some call') (calls : c.host.call call = result <$> work)
    (calls' : c.store.call call' = result' <$> work') (other : ∀ v, call ≠ .postProcessString v)
    (yields : ∀ store b store', work' store = .ok b store' → R b) :
    c.Tracks meaning (hosted (Recorded.record call result work)) (hosted work')
      (fun a b meaning' => Means meaning' (result a) (result' b) ∧ R b) := by
  refine Simulates.hosted fun h store here => ?_
  have answers : AnswerInStep c.valid c.kind c.table h.state store (c.host.call call h.state)
      (c.store.call call' store) :=
    c.hides.in_step here.mirrors.valid here.mirrors.known maps other
  rw [calls, calls'] at answers
  -- The log grows by this call whether it returns or fails, and so does what is made again.
  cases left : work h.state with
  | ok a s' =>
    rw [HostM.map_of_ok left] at answers
    rw [Recorded.record_of_ok left]
    cases right : work' store with
    | ok b store' =>
      have made := HostM.map_of_ok right result'
      rw [made] at answers
      cases answers with
      | ok holds =>
        obtain ⟨learned, extends_, means⟩ := here.mirrors.answers holds.1 holds.2
        exact .ok ⟨_, extends_, here.record call maps ((congrFun calls' store).trans made) learned, means,
          yields _ _ _ right⟩
    | error e store' =>
      rw [HostM.map_of_error right] at answers
      cases answers with
      | excused excused => exact .excused excused
  | error e s' =>
    rw [HostM.map_of_error left] at answers
    rw [Recorded.record_of_error left]
    cases right : work' store with
    | ok b store' =>
      rw [HostM.map_of_ok right] at answers
      cases answers
    | error e' store' =>
      have fails := HostM.map_of_error right result'
      rw [fails] at answers
      cases answers with
      | error holds =>
        exact .error ((here.record_error maps ((congrFun calls' store).trans fails)
          (here.mirrors.goes holds)).beyond trivial)
      | excused excused => exact .excused excused

theorem call (call : Call V) {call' : Call Value} {result : α → Option V}
    {result' : β → Option Value} {work : HostM σ α} {work' : HostM Store β}
    (maps : call.map? meaning = some call') (calls : c.host.call call = result <$> work)
    (calls' : c.store.call call' = result' <$> work') (other : ∀ v, call ≠ .postProcessString v) :
    c.Tracks meaning (ReadM.hosted (Recorded.record call result work)) (ReadM.hosted work')
      (fun a b meaning' => Means meaning' (result a) (result' b)) :=
  (hosted (R := fun _ => True) call maps calls calls' other fun _ _ _ _ => trivial).mono
    fun _ _ _ holds => holds.1

theorem makePair {first rest : V} {first' rest' : Value} (means : meaning first = some first')
    (means' : meaning rest = some rest') :
    c.Tracks meaning (ReadM.hosted (c.host.recorded.makePair first rest))
      (ReadM.hosted (c.store.makePair first' rest')) (fun pair pair' meaning => Held meaning pair pair') := by
  have maps : (Call.makePair first rest).map? meaning = some (.makePair first' rest') := by
    simp [Call.map?, means, means']
  refine (hosted (R := fun w => ∃ address, w = .pair address) _ maps rfl rfl (by simp) ?_).mono ?_
  · intro store b store' made
    cases made
    exact ⟨_, rfl⟩
  · rintro pair _ meaning' ⟨means, address, rfl⟩
    exact ⟨means, by simp⟩

theorem setRest {pair rest : V} {pair' rest' : Value} (means : meaning pair = some pair')
    (means' : meaning rest = some rest') :
    c.Tracks meaning (ReadM.hosted (c.host.recorded.setRest pair rest))
      (ReadM.hosted (c.store.setRest pair' rest')) (fun _ _ _ => True) := by
  have maps : (Call.setRest pair rest).map? meaning = some (.setRest pair' rest') := by
    simp [Call.map?, means, means']
  exact (call _ maps rfl rfl (by simp)).mono fun _ _ _ _ => trivial

/-- A string is made and processed at once. In between its handle stands for a string of other
characters, which is lost. -/
theorem makeProcessed (text : String) :
    c.Tracks meaning
      (ReadM.hosted (c.host.recorded.makeString text) >>= fun made =>
        ReadM.hosted (c.host.recorded.postProcessString made))
      (ReadM.hosted (c.store.makeString text) >>= fun made =>
        ReadM.hosted (c.store.postProcessString made))
      (fun v w meaning => meaning v = some w) := by
  obtain ⟨processed, processes⟩ := Store.exists_postProcessString c.table c.interpretEscapes text
  intro ⟨h, source, trace⟩ ⟨store, source', trace'⟩ same here
  have issues := c.hides.makeString h.state here.mirrors.valid text
  generalize made : c.host.makeString text h.state = result at issues
  cases issues with
  | handle onward stands fresh =>
    next v s' =>
    have goes : Goes c.valid c.kind h.state store s' store := ⟨onward, .refl _ _ _⟩
    have learn (text : String) := here.mirrors.learn goes (v := v) (w := .string text)
      ⟨.object, stands, .object rfl⟩ fun _ => fresh rfl
    have learned (text : String) : Replay.learn meaning (some v) (some (.string text)) v =
        some (Value.string text) := by simp [Replay.learn]
    -- The handle stays and what it stands for changes: the later meaning replaces the earlier.
    have relearned : Replay.learn (Replay.learn meaning (some v) (some (.string text))) (some v)
        (some (.string processed)) = Replay.learn meaning (some v) (some (.string processed)) := by
      simp [Replay.learn]
    have first := here.record (.makeString text) rfl rfl (learn text).1
    have maps : (Call.postProcessString v).map? (Replay.learn meaning (some v) (some (.string text))) =
        some (.postProcessString (.string text)) := by simp [Call.map?, learned]
    have second := first.record _ maps (HostM.map_of_ok (processes store) some)
      (relearned ▸ (learn processed).1)
    have left : (ReadM.hosted (c.host.recorded.makeString text) >>= fun made =>
        ReadM.hosted (c.host.recorded.postProcessString made)) ⟨h, source, trace⟩ = .ok v
          ⟨⟨s', (h.calls.push ⟨.makeString text, some v⟩).push ⟨.postProcessString v, some v⟩⟩,
            source, trace⟩ := by
      refine (bind_of_ok (hosted_of_ok (Recorded.record_of_ok made)) _).trans ?_
      exact hosted_of_ok (Recorded.record_of_ok (h := ⟨s', _⟩)
        (c.hides.postProcessString v s'))
    have right : (ReadM.hosted (c.store.makeString text) >>= fun made =>
        ReadM.hosted (c.store.postProcessString made)) ⟨store, source', trace'⟩ =
          .ok (.string processed) ⟨store, source', trace'⟩ :=
      (bind_of_ok (hosted_of_ok rfl) _).trans (hosted_of_ok (processes store))
    rw [left, right]
    refine .ok ⟨same, _, (learn processed).2, ?_, learned processed⟩
    rw [← relearned]
    exact second

end Tracks

end Parallel

end SexprReader
