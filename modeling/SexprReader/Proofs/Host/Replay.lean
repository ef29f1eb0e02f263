import SexprReader.Proofs.Host.Asking
import SexprReader.Proofs.Host.CallLog
import SexprReader.Proofs.Store.Serves

namespace SexprReader

open ReadM Store

variable {σ τ V W : Type}

def Call.map? (f : V → Option W) : Call V → Option (Call W)
  | .makePair first rest => return .makePair (← f first) (← f rest)
  | .setRest pair rest => return .setRest (← f pair) (← f rest)
  | .makeString s => some (.makeString s)
  | .postProcessString v => return .postProcessString (← f v)
  | .internSymbol name => some (.internSymbol name)
  | .parseNumber text radix => some (.parseNumber text radix)
  | .listToVector list => return .listToVector (← f list)
  | .makeCharacter codePoint => some (.makeCharacter codePoint)
  | .signalError e => some (.signalError e)

/-- How far recorded calls have been made again. -/
structure Replay (V τ W : Type) where
  meaning : V → Option W
  state : τ

namespace Replay

variable [DecidableEq V]

def learn (meaning : V → Option W) : Option V → Option W → V → Option W
  | some v, some w => Function.update meaning v (some w)
  | _, _ => meaning

def step (host : Host τ W) (replay : Replay V τ W) (record : CallRecord V) :
    Option (Replay V τ W) := do
  let call ← record.call.map? replay.meaning
  match host.call call replay.state with
  | .ok result state => return ⟨learn replay.meaning record.result result, state⟩
  | .error _ state => return ⟨replay.meaning, state⟩

def start (host : Host σ V) (other : Host τ W) (state : τ) : Replay V τ W :=
  ⟨fun v => (host.constants.zip other.constants).lookup v, state⟩

end Replay

/-- Makes the calls that were recorded on one host again, in their order, on another. -/
def CallLog.replay [DecidableEq V] (host : Host σ V) (other : Host τ W) (state : τ)
    (log : CallLog V) : Option (Replay V τ W) :=
  log.foldlM (Replay.step other) (.start host other state)

/-- What a handle stands for, as far as a reader can notice. -/
inductive Kind where
  | constant (s : Sentinel)
  | symbol (name : String)
  | integer (n : Int)
  | character (codePoint : Nat)
  | object
deriving DecidableEq, Repr

def Kind.isNamed : Kind → Bool
  | .constant _ | .symbol _ => true
  | .integer _ | .character _ | .object => false

structure Onward (valid : σ → Prop) (kind : σ → V → Option Kind) (s s' : σ) : Prop where
  valid : valid s'
  kept : ∀ v k, kind s v = some k → kind s' v = some k

inductive Issues (valid : σ → Prop) (kind : σ → V → Option Kind) (s : σ) (k : Kind) :
    EStateM.Result Failure σ V → Prop
  | handle {v : V} {s' : σ} (onward : Onward valid kind s s') (stands : kind s' v = some k)
      (fresh : k = .object → kind s v = none) : Issues valid kind s k (.ok v s')

def IssuesNumber (valid : σ → Prop) (kind : σ → V → Option Kind) (s : σ) :
    Except ValueFault (Option Int) → EStateM.Result Failure σ V → Prop
  | .ok (some n), result => Issues valid kind s (.integer n) result
  | .ok none, result => Issues valid kind s (.constant .false) result
  | .error fault, result => ∃ s', Onward valid kind s s' ∧ result = .error (.value fault) s'

/-- A host with all capabilities whose values are handles. It makes a new handle for each pair, string
and vector, and has one for each name. It reads integers as the library does, leaves strings as they
are, and raises the reader's errors. -/
structure Host.Opaque (host : Host σ V) (valid : σ → Prop) (kind : σ → V → Option Kind) : Prop where
  makePair : ∀ s, valid s → ∀ first rest, Issues valid kind s .object (host.makePair first rest s)
  makeString : ∀ s, valid s → ∀ text, Issues valid kind s .object (host.makeString text s)
  listToVector : ∀ s, valid s → ∀ list, Issues valid kind s .object (host.listToVector list s)
  internSymbol : ∀ s, valid s → ∀ name, Issues valid kind s (.symbol name) (host.internSymbol name s)
  makeCharacter : ∀ s, valid s → ∀ codePoint,
    Issues valid kind s (.character codePoint) (host.makeCharacter codePoint s)
  parseNumber : ∀ s, valid s → ∀ (text : String) (radix : Nat),
    IssuesNumber valid kind s (parseInteger text radix) (host.parseNumber text radix s)
  setRest : ∀ s, valid s → ∀ pair rest, ∃ s', Onward valid kind s s' ∧
    host.setRest pair rest s = .ok () s'
  postProcessString : ∀ v s, host.postProcessString v s = .ok v s
  signalError : ∀ s, valid s → ∀ e, ∃ s', Onward valid kind s s' ∧
    host.signalError e s = .error (.reading e) s'
  eq_iff : ∀ v w, host.eq v w = true ↔ v = w
  unique : ∀ s, valid s → ∀ v w k, k.isNamed = true → kind s v = some k → kind s w = some k → v = w
  constants : ∀ s, valid s → host.constants.map (kind s) =
    [.nil, .false, .endOfStream, .true, .unspecified, .logicalEof].map (some ∘ Kind.constant)
  supports : ∀ constant, (host.constant? constant).isSome
  nilSymbol?_eq : host.nilSymbol? = none

def Value.isObject : Value → Bool
  | .string _ | .pair _ | .vector _ => true
  | _ => false

def Value.isNamed : Value → Bool
  | .sentinel _ | .symbol _ => true
  | _ => false

inductive Kind.Fits (table : TableId) (store : Store) : Kind → Value → Prop
  | sentinel (c : Sentinel) : Fits table store (.constant c) (.sentinel c)
  | symbol {name : String} {symbol : Symbol}
      (found : store.symbols.find? table name = some symbol) :
      Fits table store (.symbol name) (.symbol symbol)
  | integer (n : Int) : Fits table store (.integer n) (.integer n)
  | character {codePoint : Nat} {c : Character} (same : c.codePoint = codePoint) :
      Fits table store (.character codePoint) (.character c)
  | object {w : Value} (object : w.isObject = true) : Fits table store .object w

def Stands (kind : σ → V → Option Kind) (table : TableId) (s : σ) (store : Store) (v : V)
    (w : Value) : Prop :=
  ∃ k, kind s v = some k ∧ k.Fits table store w

/-- Two values can be told apart by nothing but their identity as characters. -/
inductive Value.Alike : Value → Value → Prop
  | refl (w : Value) : Alike w w
  | character {c c' : Character} (same : c.codePoint = c'.codePoint) :
      Alike (.character c) (.character c')

theorem Value.Alike.trans {w w' w'' : Value} (first : w.Alike w') (second : w'.Alike w'') :
    w.Alike w'' := by
  cases first with
  | refl => exact second
  | character same =>
    cases second with
    | refl => exact .character same
    | character same' => exact .character (same.trans same')

def Failure.isStructural : Failure → Prop
  | .value .tooManyDigits | .value .unusableRadix => False
  | .value _ => True
  | _ => False

/-- The library's own host, as it is set up to read with. -/
abbrev Store.reader (table : TableId) (interpretEscapes : Bool) : Host Store Value :=
  Store.host ⟨table, interpretEscapes, .all, true, .raise⟩

section

variable {valid : σ → Prop} {kind : σ → V → Option Kind} {table : TableId} {s s' : σ}
  {store store' : Store} {v : V} {w w' : Value}

theorem Kind.Fits.agrees {k : Kind} (fits : k.Fits table store w) (agrees : Agrees 0 0 store store') :
    k.Fits table store' w := by
  cases fits with
  | sentinel c => exact .sentinel c
  | symbol found => exact .symbol (agrees.symbols _ _ _ found)
  | integer n => exact .integer n
  | character same => exact .character same
  | object object => exact .object object

theorem Kind.Fits.alike {k : Kind} (fits : k.Fits table store w) (fits' : k.Fits table store w')
    (plain : k ≠ .object) : w.Alike w' := by
  cases fits with
  | sentinel c =>
    cases fits'
    exact .refl _
  | symbol found =>
    cases fits' with
    | symbol found' =>
      cases found.symm.trans found'
      exact .refl _
  | integer n =>
    cases fits'
    exact .refl _
  | character same =>
    cases fits' with
    | character same' => exact .character (same.trans same'.symm)
  | object => exact absurd rfl plain

theorem Kind.Fits.isNamed {k : Kind} (fits : k.Fits table store w) (named : w.isNamed = true) :
    k.isNamed = true := by
  cases fits with
  | sentinel c => rfl
  | symbol found => rfl
  | integer n => cases named
  | character same => cases named
  | object object => cases w <;> simp_all [Value.isNamed, Value.isObject]

theorem Kind.Fits.eq_of_isNamed {k k' : Kind} (fits : k.Fits table store w)
    (fits' : k'.Fits table store w) (named : w.isNamed = true) : k = k' := by
  have unlike (object : w.isObject = true) : False := by
    cases w <;> simp_all [Value.isNamed, Value.isObject]
  cases fits with
  | sentinel c =>
    cases fits' with
    | sentinel => rfl
    | object object => exact (unlike object).elim
  | symbol found =>
    cases fits' with
    | symbol found' =>
      rw [← SymbolTables.find?_name found, ← SymbolTables.find?_name found']
    | object object => exact (unlike object).elim
  | integer n => cases named
  | character same => cases named
  | object object => exact (unlike object).elim

theorem Stands.onward (stands : Stands kind table s store v w) (onward : Onward valid kind s s')
    (agrees : Agrees 0 0 store store') : Stands kind table s' store' v w := by
  obtain ⟨k, stands, fits⟩ := stands
  exact ⟨k, onward.kept _ _ stands, fits.agrees agrees⟩

end

section

variable {host : Host σ V} {valid : σ → Prop} {kind : σ → V → Option Kind} {table : TableId}
  {interpretEscapes : Bool} {s : σ} {store store' : Store} {w : Value}

/-- A handle and a value have been given out in answer to the same call. -/
def Answers (kind : σ → V → Option Kind) (table : TableId) (s : σ) :
    Option V → Option Value → σ → Store → Prop
  | some v, some w, s', store' =>
    Stands kind table s' store' v w ∧ (kind s' v = some .object → kind s v = none)
  | none, none, _, _ => True
  | _, _, _, _ => False

structure Goes (valid : σ → Prop) (kind : σ → V → Option Kind) (s : σ) (store : Store) (s' : σ)
    (store' : Store) : Prop where
  onward : Onward valid kind s s'
  agrees : Agrees 0 0 store store'

abbrev AnswerInStep (valid : σ → Prop) (kind : σ → V → Option Kind) (table : TableId) (s : σ)
    (store : Store) : EStateM.Result Failure σ (Option V) →
      EStateM.Result Failure Store (Option Value) → Prop :=
  InStep Failure.isStructural
    (fun r r' s' store' => Goes valid kind s store s' store' ∧ Answers kind table s r r' s' store')
    (Goes valid kind s store)

theorem Issues.in_step {k : Kind} {m : HostM σ V} {m' : HostM Store Value}
    (issues : Issues valid kind s k (m s)) (ok : m' store = .ok w store')
    (agrees : Agrees 0 0 store store') (fits : k.Fits table store' w) :
    AnswerInStep valid kind table s store ((some <$> m) s) ((some <$> m') store) := by
  rw [HostM.map_of_ok ok]
  generalize result : m s = r at issues
  cases issues with
  | handle onward stands fresh =>
    rw [HostM.map_of_ok result]
    refine .ok ⟨⟨onward, agrees⟩, ⟨k, stands, fits⟩, fun object => fresh ?_⟩
    exact Option.some.inj (stands.symm.trans object)

theorem Store.isStructural_of_vectorMembers {heap : Heap} {fault : ValueFault}
    (error : heap.vectorMembers w = .error fault) : (Failure.value fault).isStructural := by
  have iterates : ∀ members, heap.iterate w = ⟨members, some fault⟩ →
      (Failure.value fault).isStructural := by
    intro members iterated
    unfold Heap.iterate at iterated
    split at iterated
    · split at iterated
      · split at iterated <;> cases iterated
        trivial
      · cases iterated
        trivial
    · cases iterated
    · cases iterated
    · cases iterated
      trivial
  unfold Heap.vectorMembers Heap.toList at error
  split at error
  · cases error
  · split at error
    · cases error
    next members other iterated =>
      cases error
      exact iterates members iterated

theorem Store.exists_postProcessString (table : TableId) (interpretEscapes : Bool) (text : String) :
    ∃ processed, ∀ store, (Store.reader table interpretEscapes).postProcessString (.string text) store =
      .ok (.string processed) store := by
  cases interpretEscapes with
  | false => exact ⟨text, fun _ => rfl⟩
  | true => exact ⟨Escape.interpret text, fun _ => rfl⟩

theorem IssuesNumber.in_step {text : String} {radix : Nat} {m : HostM σ V}
    (issues : IssuesNumber valid kind s (parseInteger text radix) (m s)) :
    AnswerInStep valid kind table s store ((some <$> m) s)
      ((some <$> Store.parseNumber text radix) store) := by
  unfold Store.parseNumber
  generalize parseInteger text radix = parsed at issues
  cases parsed with
  | ok number =>
    cases number with
    | some n => exact Issues.in_step issues rfl (.refl _ _ _) (.integer n)
    | none => exact Issues.in_step issues rfl (.refl _ _ _) (.sentinel .false)
  | error fault =>
    obtain ⟨s', onward, raises⟩ := issues
    rw [HostM.map_of_error raises]
    exact .error ⟨onward, .refl _ _ _⟩

theorem Host.Opaque.in_step (hides : host.Opaque valid kind) (holds : valid s)
    (known : table.index < store.symbols.tables.size) {meaning : V → Option Value} {call : Call V}
    {call' : Call Value} (maps : call.map? meaning = some call')
    (other : ∀ v, call ≠ .postProcessString v) :
    AnswerInStep valid kind table s store (host.call call s)
      ((Store.reader table interpretEscapes).call call' store) := by
  have same (store : Store) : Agrees 0 0 store store := .refl _ _ _
  cases call with
  | makePair first rest =>
    simp only [Call.map?, Option.bind_eq_bind, Option.bind_eq_some_iff] at maps
    obtain ⟨first', -, rest', -, ⟨⟩⟩ := maps
    exact (hides.makePair s holds first rest).in_step rfl
      (store.agrees_pushPair 0 first' rest').apart_from_pairs (.object rfl)
  | setRest pair rest =>
    simp only [Call.map?, Option.bind_eq_bind, Option.bind_eq_some_iff] at maps
    obtain ⟨pair', -, rest', -, ⟨⟩⟩ := maps
    obtain ⟨s', onward, sets⟩ := hides.setRest s holds pair rest
    have left : host.call (.setRest pair rest) s = .ok none s' := HostM.map_of_ok sets _
    rw [left]
    cases pair' with
    -- On anything but a pair the store fails with a fault of structure, which is excused.
    | pair address =>
      have changes : Agrees 0 0 store (store.changeRest address rest') :=
        store.agrees_changeRest rest' (.inr (Nat.zero_le address))
      exact .ok ⟨⟨onward, changes⟩, trivial⟩
    | _ => exact .excused trivial
  | makeString text =>
    cases maps
    exact (hides.makeString s holds text).in_step rfl (same store) (.object rfl)
  | postProcessString v => exact absurd rfl (other v)
  | internSymbol name =>
    cases maps
    exact (hides.internSymbol s holds name).in_step rfl (store.agrees_learn 0 0 table name)
      (.symbol (SymbolTables.find?_intern known name))
  | parseNumber text radix =>
    cases maps
    exact IssuesNumber.in_step (hides.parseNumber s holds text radix)
  | listToVector list =>
    simp only [Call.map?, Option.bind_eq_bind, Option.bind_eq_some_iff] at maps
    obtain ⟨list', -, ⟨⟩⟩ := maps
    cases members : store.heap.vectorMembers list' with
    | ok values =>
      exact (hides.listToVector s holds list).in_step (Store.listToVector_of_ok members)
        (store.agrees_pushVector 0 0 values) (.object rfl)
    | error fault =>
      have right : (Store.reader table interpretEscapes).call (.listToVector list') store =
          .error (.value fault) store := HostM.map_of_error (Store.listToVector_of_error members) _
      rw [right]
      exact .excused (Store.isStructural_of_vectorMembers members)
  | makeCharacter codePoint =>
    cases maps
    exact (hides.makeCharacter s holds codePoint).in_step rfl (store.agrees_pushCharacter 0 0 codePoint)
      (.character rfl)
  | signalError e =>
    cases maps
    obtain ⟨s', onward, raises⟩ := hides.signalError s holds e
    have left : host.call (.signalError e) s = .error (.reading e) s' := HostM.map_of_error raises _
    rw [left]
    exact .error ⟨onward, same store⟩

end

end SexprReader
