import SexprReader.Proofs.Reader.Lexical

/-! The calls a reader has made on its host, earliest first, and how to reason about computations by
the calls they make. A host is expected to tell the pairs it makes from every other value. -/

namespace SexprReader

open ReadM

variable {σ V α β : Type}

def Call.arguments : Call V → List V
  | makePair first rest => [first, rest]
  | setRest pair rest => [pair, rest]
  | postProcessString v => [v]
  | listToVector list => [list]
  | _ => []

def Call.handsOver : Call V → List V
  | makePair first rest => [first, rest]
  | setRest _ rest => [rest]
  | listToVector list => [list]
  | _ => []

theorem Call.mem_arguments_of_handsOver {call : Call V} {v : V} (handed : v ∈ call.handsOver) :
    v ∈ call.arguments := by
  cases call <;> simp_all [handsOver, arguments]

abbrev CallLog (V : Type) := List (CallRecord V)

def Host.constants (host : Host σ V) : List V :=
  [host.nil, host.false, host.endOfStream] ++ host.true?.toList ++ host.unspecified?.toList ++
    host.logicalEof?.toList

namespace CallLog

def Known (constants : List V) (log : CallLog V) (v : V) : Prop :=
  v ∈ constants ∨ ∃ record ∈ log, record.result = some v

def Made (log : CallLog V) (pair : V) : Prop :=
  ∃ record ∈ log, record.call.operation = .makePair ∧ record.result = some pair

def MadeOver (log : CallLog V) (rest pair : V) : Prop :=
  ∃ first, ⟨.makePair first rest, some pair⟩ ∈ log

/-- The rest of the pair was set, or at least the host was called for it. -/
def Changed (log : CallLog V) (pair : V) : Prop :=
  ∃ rest result, ⟨.setRest pair rest, result⟩ ∈ log

def HandedOver (log : CallLog V) (v : V) : Prop := ∃ record ∈ log, v ∈ record.call.handsOver

/-- Behind the given calls a pair is made as a value not seen before, and any other call returns a
pair only if it was handed that pair. -/
def Distinguishes (constants : List V) (log : CallLog V) (record : CallRecord V) : Prop :=
  ∀ v ∈ record.result,
    if record.call.operation = .makePair then ¬Known constants log v
    else Made log v → v ∈ record.call.arguments

/-- Every call was answered so that pairs can be told from all other values. -/
def DistinctPairs (constants : List V) (log : CallLog V) : Prop :=
  ∀ (i : Nat) (inside : i < log.length), Distinguishes constants (log.take i) log[i]

instance [DecidableEq V] (constants : List V) (log : CallLog V) (v : V) :
    Decidable (Known constants log v) :=
  inferInstanceAs (Decidable (_ ∨ _))

instance [DecidableEq V] (log : CallLog V) (pair : V) : Decidable (Made log pair) :=
  inferInstanceAs (Decidable (∃ record ∈ log, _))

instance [DecidableEq V] (constants : List V) (log : CallLog V) (record : CallRecord V) :
    Decidable (Distinguishes constants log record) :=
  inferInstanceAs (Decidable (∀ v ∈ record.result, _))

instance [DecidableEq V] (constants : List V) (log : CallLog V) :
    Decidable (DistinctPairs constants log) :=
  inferInstanceAs (Decidable (∀ (i : Nat) (_ : i < log.length), _))

section

variable {constants : List V} {log log' : CallLog V} {record : CallRecord V} {v : V}

theorem Known.grow (known : Known constants log v) (grows : log <+: log') :
    Known constants log' v := by
  obtain constant | ⟨record, member, result⟩ := known
  · exact .inl constant
  · exact .inr ⟨record, grows.subset member, result⟩

theorem Made.known (made : Made log v) : Known constants log v := by
  obtain ⟨record, member, -, result⟩ := made
  exact .inr ⟨record, member, result⟩

theorem MadeOver.made {nil : V} (made : MadeOver log nil v) : Made log v := by
  obtain ⟨first, member⟩ := made
  exact ⟨_, member, rfl, rfl⟩

theorem MadeOver.grow {nil : V} (made : MadeOver log nil v) (grows : log <+: log') :
    MadeOver log' nil v := by
  obtain ⟨first, member⟩ := made
  exact ⟨first, grows.subset member⟩

theorem changed_concat :
    Changed (log ++ [record]) v ↔ Changed log v ∨ ∃ rest, record.call = .setRest v rest := by
  constructor
  · rintro ⟨rest, result, member⟩
    obtain member | rfl := List.mem_append.mp member |>.imp_right List.mem_singleton.mp
    · exact .inl ⟨rest, result, member⟩
    · exact .inr ⟨rest, rfl⟩
  · rintro (⟨rest, result, member⟩ | ⟨rest, call⟩)
    · exact ⟨rest, result, List.mem_append_left _ member⟩
    · obtain ⟨_, result⟩ := record
      cases call
      exact ⟨rest, result, by simp⟩

theorem handedOver_concat :
    HandedOver (log ++ [record]) v ↔ HandedOver log v ∨ v ∈ record.call.handsOver := by
  simp [HandedOver, or_and_right, exists_or]

namespace DistinctPairs

theorem of_isPrefix (distinct : DistinctPairs constants log') (grows : log <+: log') :
    DistinctPairs constants log := by
  obtain ⟨more, rfl⟩ := grows
  intro i inside
  have whole := distinct i (by simp; omega)
  rwa [List.take_append_of_le_length (Nat.le_of_lt inside), List.getElem_append_left inside] at whole

theorem distinguishes (distinct : DistinctPairs constants (log ++ [record])) :
    Distinguishes constants log record := by
  have last := distinct log.length (by simp)
  simpa using last

theorem not_known_take (distinct : DistinctPairs constants log) {i : Nat} (inside : i < log.length)
    (makes : log[i].call.operation = .makePair) (result : log[i].result = some v) :
    ¬Known constants (log.take i) v := by
  have fresh := distinct i inside v result
  rwa [if_pos makes] at fresh

theorem not_constant (distinct : DistinctPairs constants log) (made : Made log v) :
    v ∉ constants := by
  obtain ⟨record, member, makes, result⟩ := made
  obtain ⟨i, inside, rfl⟩ := List.getElem_of_mem member
  intro constant
  exact distinct.not_known_take inside makes result (.inl constant)

theorem known_take {i j : Nat} (inside : i < log.length) (before : i < j)
    (result : log[i].result = some v) : Known constants (log.take j) v := by
  refine .inr ⟨log[i], ?_, result⟩
  rw [List.mem_take_iff_getElem]
  exact ⟨i, by omega, rfl⟩

theorem eq_of_makes (distinct : DistinctPairs constants log) {made other : CallRecord V}
    (member : made ∈ log) (member' : other ∈ log) (makes : made.call.operation = .makePair)
    (makes' : other.call.operation = .makePair) (result : made.result = some v)
    (result' : other.result = some v) : made = other := by
  obtain ⟨i, inside, rfl⟩ := List.getElem_of_mem member
  obtain ⟨j, inside', rfl⟩ := List.getElem_of_mem member'
  obtain before | same | behind := Nat.lt_trichotomy i j
  · exact absurd (known_take inside before result) (distinct.not_known_take inside' makes' result')
  · subst same
    rfl
  · exact absurd (known_take inside' behind result') (distinct.not_known_take inside makes result)

theorem mem_arguments (distinct : DistinctPairs constants log) (made : Made log v)
    (member : record ∈ log) (other : record.call.operation ≠ .makePair)
    (result : record.result = some v) : v ∈ record.call.arguments := by
  obtain ⟨maker, member', makes, result'⟩ := made
  obtain ⟨i, inside, rfl⟩ := List.getElem_of_mem member
  obtain ⟨j, inside', rfl⟩ := List.getElem_of_mem member'
  obtain before | same | behind := Nat.lt_trichotomy i j
  · exact absurd (known_take inside before result) (distinct.not_known_take inside' makes result')
  · subst same
    exact absurd makes other
  · have told := distinct i inside v result
    rw [if_neg other] at told
    apply told
    refine ⟨log[j], ?_, makes, result'⟩
    rw [List.mem_take_iff_getElem]
    exact ⟨j, by omega, rfl⟩

end DistinctPairs

end

end CallLog

open CallLog

theorem HostM.exists_of_bind_ok {m : HostM σ α} {f : α → HostM σ β} {s s'' : σ} {b : β}
    (ok : (m >>= f) s = .ok b s'') : ∃ a s', m s = .ok a s' ∧ f a s' = .ok b s'' := by
  change EStateM.bind m f s = _ at ok
  unfold EStateM.bind at ok
  split at ok
  next a s' result => exact ⟨a, s', result, ok⟩
  next => cases ok

structure Names (V : Type) where
  bracketLists : Bool
  dot : V
  quoteSymbol : QuoteMark → V

def Names.context (names : Names V) (host : Host σ V) : Context σ V :=
  ⟨host, names.bracketLists, names.dot, names.quoteSymbol⟩

def Context.names (ctx : Context σ V) : Names V := ⟨ctx.bracketLists, ctx.dot, ctx.quoteSymbol⟩

theorem Context.of_create {host : Host σ V} {bracketLists : Bool} {s s' : σ} {ctx : Context σ V}
    (creates : Context.create host bracketLists s = .ok ctx s') :
    ctx.host = host ∧ ctx.bracketLists = bracketLists := by
  obtain ⟨dot, s₁, -, creates⟩ := HostM.exists_of_bind_ok creates
  obtain ⟨quote, s₂, -, creates⟩ := HostM.exists_of_bind_ok creates
  obtain ⟨quasiquote, s₃, -, creates⟩ := HostM.exists_of_bind_ok creates
  obtain ⟨unquote, s₄, -, creates⟩ := HostM.exists_of_bind_ok creates
  obtain ⟨splicing, s₅, -, creates⟩ := HostM.exists_of_bind_ok creates
  cases creates
  exact ⟨rfl, rfl⟩

theorem Host.calls_of_internSymbol_ok {host : Host σ V} {name : String} {s s' : Recorded σ V}
    {symbol : V} (ok : host.recorded.internSymbol name s = .ok symbol s') :
    s'.calls.toList = s.calls.toList ++ [⟨.internSymbol name, some symbol⟩] := by
  obtain ⟨state, calls⟩ := s
  dsimp only [recorded, Recorded.record] at ok
  split at ok
  · cases ok
    simp
  · cases ok

def ReadState.log (s : ReadState (Recorded σ V)) : CallLog V := s.host.calls.toList

namespace ReadM

def Ends (Q : α → CallLog V → Prop) (E : CallLog V → Prop) :
    EStateM.Result Failure (ReadState (Recorded σ V)) α → Prop
  | .ok a s => Q a s.log
  | .error _ s => E s.log

/-- From calls with one property the computation comes to calls with another, as long as the host
distinguishes the pairs it makes. No call is forgotten. -/
def Upholds (constants : List V) (P : CallLog V → Prop) (m : ReadM (Recorded σ V) α)
    (Q : α → CallLog V → Prop) (E : CallLog V → Prop) : Prop :=
  ∀ s, (DistinctPairs constants s.log → P s.log) →
    s.log <+: (finalState (m s)).log ∧
      (DistinctPairs constants (finalState (m s)).log → Ends Q E (m s))

namespace Upholds

variable {constants : List V} {P P' : CallLog V → Prop} {Q : α → CallLog V → Prop}
  {R : β → CallLog V → Prop} {E : CallLog V → Prop}

theorem pure {a : α} (holds : ∀ log, DistinctPairs constants log → P log → Q a log) :
    Upholds constants P (pure a : ReadM (Recorded σ V) α) Q E := by
  intro s given
  exact ⟨List.prefix_rfl, fun distinct => holds _ distinct (given distinct)⟩

theorem throw {e : Failure} (holds : ∀ log, P log → E log) :
    Upholds constants P (throw e : ReadM (Recorded σ V) α) Q E := by
  intro s given
  exact ⟨List.prefix_rfl, fun distinct => holds _ (given distinct)⟩

theorem get_bind {f : ReadState (Recorded σ V) → ReadM (Recorded σ V) α}
    (next : ∀ s, Upholds constants P (f s) Q E) : Upholds constants P (get >>= f) Q E :=
  fun s given => next s s given

theorem bind {m : ReadM (Recorded σ V) α} {f : α → ReadM (Recorded σ V) β}
    (first : Upholds constants P m Q E) (next : ∀ a, Upholds constants (Q a) (f a) R E) :
    Upholds constants P (m >>= f) R E := by
  intro s given
  obtain ⟨grows, ends⟩ := first s given
  cases result : m s with
  | ok a s' =>
    rw [result] at grows ends
    rw [bind_of_ok result]
    obtain ⟨grows', ends'⟩ := next a s' ends
    exact ⟨grows.trans grows', ends'⟩
  | error e s' =>
    rw [result] at grows ends
    rw [bind_of_error result]
    exact ⟨grows, ends⟩

theorem of_imp {m : ReadM (Recorded σ V) α}
    (implies : ∀ log, DistinctPairs constants log → P log → P' log)
    (upholds : Upholds constants P' m Q E) : Upholds constants P m Q E :=
  fun s given => upholds s fun distinct => implies _ distinct (given distinct)

theorem frame {m : ReadM (Recorded σ V) α} (fact : Prop) (upholds : Upholds constants P m Q E) :
    Upholds constants (fun log => P log ∧ fact) m (fun a log => Q a log ∧ fact) E := by
  intro s given
  obtain ⟨grows, ends⟩ := upholds s fun distinct => (given distinct).1
  refine ⟨grows, fun distinct => ?_⟩
  have holds := ends distinct
  have known := (given (distinct.of_isPrefix grows)).2
  cases result : m s with
  | ok a s' =>
    rw [result] at holds
    exact ⟨holds, known⟩
  | error e s' =>
    rw [result] at holds
    exact holds

theorem ite {condition : Prop} [Decidable condition] {m m' : ReadM (Recorded σ V) α}
    (yes : Upholds constants P m Q E) (no : Upholds constants P m' Q E) :
    Upholds constants P (if condition then m else m') Q E := by
  split
  · exact yes
  · exact no

theorem hostFree {m : ReadM (Recorded σ V) α} (free : HostFree m m)
    (holds : ∀ a log, P log → Q a log) (fails : ∀ log, P log → E log) :
    Upholds constants P m Q E := by
  intro s given
  have concurs := free s s rfl
  generalize m s = r at concurs
  cases concurs with
  | ok a source trace => exact ⟨List.prefix_rfl, fun distinct => holds a _ (given distinct)⟩
  | error e source trace => exact ⟨List.prefix_rfl, fun distinct => fails _ (given distinct)⟩

theorem hosted {call : Call V} {result : α → Option V} {work : HostM σ α}
    (returns : ∀ log a, P log → Distinguishes constants log ⟨call, result a⟩ →
      DistinctPairs constants log → Q a (log ++ [⟨call, result a⟩]))
    (fails : ∀ log, P log → DistinctPairs constants log → E (log ++ [⟨call, none⟩])) :
    Upholds constants P (hosted (Recorded.record call result work)) Q E := by
  intro ⟨⟨state, calls⟩, source, trace⟩ given
  have grows (r : CallRecord V) : calls.toList <+: (calls.push r).toList :=
    ⟨[r], by simp⟩
  rw [hosted_apply]
  dsimp only [Recorded.record]
  cases work state with
  | ok a state =>
    refine ⟨grows _, fun distinct => ?_⟩
    change DistinctPairs constants (calls.push ⟨call, result a⟩).toList at distinct
    change Q a (calls.push ⟨call, result a⟩).toList
    rw [Array.toList_push] at distinct ⊢
    have before := distinct.of_isPrefix (List.prefix_append _ _)
    exact returns _ a (given before) distinct.distinguishes before
  | error e state =>
    refine ⟨grows _, fun distinct => ?_⟩
    change DistinctPairs constants (calls.push ⟨call, none⟩).toList at distinct
    change E (calls.push ⟨call, none⟩).toList
    rw [Array.toList_push] at distinct ⊢
    have before := distinct.of_isPrefix (List.prefix_append _ _)
    exact fails _ (given before) before

end Upholds

end ReadM

end SexprReader
