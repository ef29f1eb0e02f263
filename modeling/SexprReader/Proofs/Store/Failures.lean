import SexprReader.Proofs.Grammar.Names
import SexprReader.Proofs.Host.Recording
import SexprReader.Proofs.Host.Replay
import SexprReader.Proofs.Reader.Positions
import SexprReader.Proofs.Reader.Spelling
import SexprReader.Proofs.Store.Incomplete
import SexprReader.Proofs.Store.OpenForms

namespace SexprReader

open ReadM Store Unfinished Lexeme

variable {ctx : Context Store Value} {conv : Convention} {table : TableId} {store : Store}
  {text rest : List Char}

namespace Lexeme

theorem eq_of_toLower {c : Char} (lower : c.toLower = 'd') : c = 'd' ∨ c = 'D' := by
  unfold Char.toLower at lower
  split at lower
  · have value : c.val + ('a'.val - 'A'.val) = 'd'.val := congrArg Char.val lower
    have upper : c.val = 'd'.val - ('a'.val - 'A'.val) := by
      rw [← value, UInt32.add_sub_cancel]
    exact .inr (Char.ext upper)
  · exact .inl lower

theorem radix?_cases {c : Char} {radix : Nat} (marks : radix? c = some radix) :
    radix = 10 ∧ (c = 'd' ∨ c = 'D') ∨ Numeral.isPowerOfTwo radix = true := by
  unfold radix? at marks
  split at marks
  case h_3 lower =>
    cases marks
    exact .inl ⟨rfl, eq_of_toLower lower⟩
  all_goals
    cases marks
  all_goals exact .inr rfl

end Lexeme

theorem Convention.atom_eq_value {lexeme : Lexeme} {reason : ValueFault}
    (fails : conv.atom lexeme = some (.error (.value reason))) :
    (∃ chars, lexeme = .token chars ∧ parseInteger (String.ofList chars) 10 = .error reason) ∨
      ∃ radix chars, lexeme = .number radix chars ∧
        parseInteger (String.ofList chars) radix = .error reason := by
  cases Convention.means_of_atom fails with
  | unreadable parsed => exact .inl ⟨_, rfl, parsed⟩
  | unreadableNumber parsed => exact .inr ⟨_, _, rfl, parsed⟩

theorem Stack.Holds.scanTurn_eq_part_iff {hi : Nat} {stack : Stack Value} {frames : List Unfinished}
    (holds : stack.Holds ctx table store hi frames) {dialect : Dialect} {lexeme : Lexeme} :
    dialect.scanTurn stack.expected text = (.part lexeme, rest) ↔
      Ready text frames ∧ dialect.scan text = (lexeme, rest) := by
  have part : dialect.scanTurn .part text = (.part lexeme, rest) ↔
      True ∧ dialect.scan text = (lexeme, rest) := by
    simp [Dialect.scanTurn, Prod.ext_iff]
  have members (bracket : Bracket) :
      dialect.scanTurn (.partOrCloser bracket) text = (.part lexeme, rest) ↔
        bracket.Unclosed text ∧ dialect.scan text = (lexeme, rest) := by
    simp only [Dialect.scanTurn, Bracket.Unclosed]
    cases behindBlanks false text with
    | nil => simp
    | cons c inner =>
      by_cases closer : c = bracket.closer
      · simp [closer]
      · simp [closer, Prod.ext_iff]
  have closer (bracket : Bracket) :
      dialect.scanTurn (.closer bracket) text = (.part lexeme, rest) ↔
        False ∧ dialect.scan text = (lexeme, rest) := by
    simp only [Dialect.scanTurn]
    cases behindBlanks false text with
    | nil => simp
    | cons c inner =>
      dsimp only
      split <;> simp
  cases holds with
  | nil => exact part
  | cons _ frame _ =>
    cases frame with
    | @members bracket _ _ holds _ =>
      cases holds with
      | empty => exact members bracket
      | growing => exact members bracket
    | dotted => exact part
    | «sealed» => exact closer _
    | quoted => exact part
    | discarded => exact part

/-- The next turn takes the characters for a decimal numeral. They stand in the text bare or behind the
letter of `#d`. -/
def Position.ReachesDecimal {σ V : Type} (p : Position σ V) (dialect : Dialect) (chars : List Char) :
    Prop :=
  ∃ before behind,
    (dialect.scanTurn p.stack.expected p.state.source.remaining = (.part (.token chars), behind) ∧
      p.state.source.remaining = before ++ chars ++ behind) ∨
    (dialect.scanTurn p.stack.expected p.state.source.remaining = (.part (.number 10 chars), behind) ∧
      ∃ marks letter, marks.all isExactness ∧ (letter = 'd' ∨ letter = 'D') ∧
        p.state.source.remaining = before ++ '#' :: marks ++ letter :: chars ++ behind)

abbrev Position.Sound (p : Position Store Value) (ctx : Context Store Value) (conv : Convention)
    (table : TableId) : Prop :=
  Moment.Sound ctx conv table ⟨p.stack, p.state, none⟩

variable {p start : Position Store Value}

theorem Context.Passes.sound (passes : ctx.Passes start p) (begins : start.Sound ctx conv table) :
    p.Sound ctx conv table := by
  induction passes with
  | refl => exact begins
  | turn _ leads ih =>
    have next := Moment.Sound.next ih
    unfold Context.next at next
    obtain ⟨stack, s, c, turns, turned, -, rfl⟩ | ⟨form, s, c, forms, turned, -, rfl⟩ :=
      Context.proceed_eq_inr leads
    · rw [turned] at next
      exact next
    · rw [turned] at next
      exact ⟨next.serves, next.ending, next.holds⟩

namespace Position.Sound

variable {reason : ValueFault}

/-- A turn fails for what a numeral stands for exactly if it finds an atom that stands for nothing. -/
theorem turn_eq_value_iff (sound : p.Sound ctx conv table) :
    (∃ final, ctx.turn p.stack p.state = .error (.value reason) final) ↔
      ∃ lexeme behind, conv.dialect.scanTurn p.stack.expected p.state.source.remaining =
        (.part lexeme, behind) ∧ conv.atom lexeme = some (.error (.value reason)) := by
  obtain ⟨serves, ending, frames, holds⟩ := sound
  constructor
  · rintro ⟨final, failed⟩
    obtain ⟨turn, rest, turns⟩ := Turns.exists_turn conv frames p.state.source.remaining
    obtain ⟨answer, s', -, -, attains, turned⟩ := turns.turn_eq serves holds ⟨rfl, rfl, ending⟩
    rw [failed] at turned
    cases attains with
    | stopped obstacle =>
      cases obstacle with
      | fault fault => cases turned
      | value fault =>
        cases turned
        obtain ⟨lexeme, ready, scans, means⟩ := turns.of_value
        exact ⟨lexeme, rest, holds.scanTurn_eq_part_iff.mpr ⟨ready, scans⟩, means⟩
    | _ => cases turned
  · rintro ⟨lexeme, behind, found, means⟩
    obtain ⟨ready, scans⟩ := holds.scanTurn_eq_part_iff.mp found
    have turns : Turns conv frames p.state.source.remaining (.stopped (.value reason)) behind :=
      .atom ready scans means
    obtain ⟨answer, s', -, -, attains, turned⟩ := turns.turn_eq serves holds ⟨rfl, rfl, ending⟩
    cases attains
    exact ⟨s', turned⟩

theorem turn_eq_error_iff (sound : p.Sound ctx conv table) :
    (∃ final, ctx.turn p.stack p.state = .error (.value reason) final) ↔
      reason = .tooManyDigits ∧
        ∃ chars, p.ReachesDecimal conv.dialect chars ∧ Numeral.IsOverlong chars := by
  rw [sound.turn_eq_value_iff]
  constructor
  · rintro ⟨lexeme, behind, found, means⟩
    have spelt := conv.dialect.scanTurn_isSpelt p.stack.expected p.state.source.remaining
    rw [found] at spelt
    obtain ⟨taken, split, ends⟩ := spelt
    obtain ⟨chars, rfl, error⟩ | ⟨radix, chars, rfl, error⟩ := Convention.atom_eq_value means
    · obtain ⟨before, rfl⟩ : chars <:+ taken := ends
      obtain ⟨rfl, overlong⟩ := Numeral.parseInteger_ten_error_iff.mp error
      rw [String.toList_ofList] at overlong
      exact ⟨rfl, chars, ⟨before, behind, .inl ⟨found, split⟩⟩, overlong⟩
    · obtain ⟨marks, letter, exact_marks, same, before, rfl⟩ := ends
      obtain ⟨rfl, letters⟩ | power := radix?_cases same
      · obtain ⟨rfl, overlong⟩ := Numeral.parseInteger_ten_error_iff.mp error
        rw [String.toList_ofList] at overlong
        refine ⟨rfl, chars, ⟨before, behind, .inr ⟨found, marks, letter, exact_marks, letters, ?_⟩⟩,
          overlong⟩
        simpa using split
      -- Only a decimal numeral can have too many digits.
      · obtain ⟨n?, evaluated⟩ := Numeral.parseInteger_of_isPowerOfTwo power (String.ofList chars)
        rw [evaluated] at error
        cases error
  · rintro ⟨rfl, chars, ⟨before, behind, reached⟩, overlong⟩
    have error : parseInteger (String.ofList chars) 10 = .error .tooManyDigits := by
      rw [Numeral.parseInteger_ten_error_iff, String.toList_ofList]
      exact ⟨rfl, overlong⟩
    obtain ⟨found, -⟩ | ⟨found, -⟩ := reached
    · refine ⟨_, _, found, ?_⟩
      simp only [Convention.atom, Convention.token, error]
    · refine ⟨_, _, found, ?_⟩
      have error : parseInteger (String.ofList chars) (10 : Nat) = .error .tooManyDigits := error
      simp only [Convention.atom, Convention.number, error]

end Position.Sound

/-- The store has been asked for something that it can do: only pairs get another rest, and only proper
lists, for which a vector is returned, become vectors. -/
def CallRecord.IsProper (record : CallRecord Value) : Prop :=
  match record.call with
  | .setRest pair _ => ∃ address, pair = .pair address
  | .listToVector _ => record.result.isSome
  | _ => True

theorem Stack.Holds.exists_of_mem {hi : Nat} {stack : Stack Value} {frames : List Unfinished}
    (holds : stack.Holds ctx table store hi frames) {frame : Frame Value} (member : frame ∈ stack) :
    ∃ lo hi form, frame.Holds ctx table store lo hi form := by
  induction holds with
  | nil => cases member
  | cons _ first _ ih =>
    cases member with
    | head => exact ⟨_, _, _, first⟩
    | tail _ behind => exact ih behind

theorem Frame.Holds.pair_of_last {lo hi : Nat} {bracket : Bracket} {spine : Spine Value}
    {form : Unfinished} (holds : Frame.Holds ctx table store lo hi (.list bracket spine) form)
    {last : Value} (ends : spine.last? = some last) : ∃ address, last = .pair address := by
  cases holds with
  | members holds _ =>
    cases holds with
    | empty => cases ends
    | growing => exact ⟨_, (Option.some.inj ends).symm⟩
  | dotted => exact ⟨_, (Option.some.inj ends).symm⟩
  | «sealed» => cases ends

theorem Store.listToVector_cases (store : Store) (list : Value) :
    (∃ v store', Store.listToVector list store = .ok v store') ∨
      ∃ e : Failure, e.isStructural ∧ Store.listToVector list store = .error e store := by
  cases members : store.heap.vectorMembers list with
  | ok values => exact .inl ⟨_, _, listToVector_of_ok members⟩
  | error fault =>
    exact .inr ⟨_, isStructural_of_vectorMembers members, listToVector_of_error members⟩

/-- What a store has answered in a turn is proper, unless the turn fails for the shape of a value. -/
theorem MayCall.isProper {nilSymbol? : Option Value} {hi : Nat} {stack : Stack Value}
    {frames : List Unfinished} (holds : stack.Holds ctx table store hi frames) {nil : Value}
    {found : Found} {record : CallRecord Value} (may : MayCall nil stack found record.call)
    {failure : Option Failure} (answered : record.IsAnswered (conv.host table nilSymbol?) failure)
    (other : ∀ e, failure = some e → ¬e.isStructural) : record.IsProper := by
  obtain ⟨call, result⟩ := record
  cases may with
  | @ordinary call ordinary => cases call <;> trivial
  | interns => trivial
  | own => trivial
  | reported => trivial
  | setRest rest inside ends =>
    obtain ⟨lo, hi, form, frame⟩ := holds.exists_of_mem inside
    exact frame.pair_of_last ends
  | @listToVector spine _ _ _ =>
    have calls (s : Store) : (conv.host table nilSymbol?).call (.listToVector (spine.head nil)) s =
        (some <$> Store.listToVector (spine.head nil)) s := rfl
    obtain ⟨s, s', returned⟩ | ⟨e, s, s', failed, error⟩ := answered
    · obtain ⟨v, made, vector⟩ | ⟨fault, -, refused⟩ := s.listToVector_cases (spine.head nil)
      · rw [calls, HostM.map_of_ok vector] at returned
        cases returned
        rfl
      · rw [calls, HostM.map_of_error refused] at returned
        cases returned
    · obtain ⟨v, made, vector⟩ | ⟨fault, structural, refused⟩ := s.listToVector_cases (spine.head nil)
      · rw [calls, HostM.map_of_ok vector] at error
        cases error
      · rw [calls, HostM.map_of_error refused] at error
        cases error
        exact absurd structural (other _ failed)

section Recorded

variable {ctx' : Context (Recorded Store Value) Value}
  {p' start' : Position (Recorded Store Value) Value} (records : ctx'.host = ctx.host.recorded)

include records

theorem Position.Sound.turn_isProper (sound : p.Sound ctx conv table)
    (beside : p'.Beside Recorded.Over p)
    (other : ∀ e, failure? (ctx'.turn p'.stack p'.state) = some e → ¬e.isStructural) :
    ∃ added, (finalState (ctx'.turn p'.stack p'.state)).log = p'.state.log ++ added ∧
      ∀ record ∈ added, record.IsProper := by
  obtain ⟨serves, -, frames, holds⟩ := sound
  obtain ⟨added, log, calls⟩ := Context.turn_logs records p'.stack p'.state
  refine ⟨added, log, fun record member => ?_⟩
  obtain ⟨⟨found, s, -, may⟩, answered⟩ := calls record member
  rw [beside.stack] at may
  rw [serves.host] at answered
  exact may.isProper holds answered other

variable (alike : ctx'.Alike ctx) (begins : start'.Beside Recorded.Over start)
  (sound : start.Sound ctx conv table) (proper : ∀ record ∈ start'.state.log, record.IsProper)

include alike begins sound proper

theorem Context.Passes.isProper (passes : ctx'.Passes start' p') :
    ∀ record ∈ p'.state.log, record.IsProper := by
  induction passes with
  | refl => exact proper
  | @turn p' q passes leads ih =>
    obtain ⟨p, passes₀, beside⟩ := passes.beside alike begins (turn_simulates records rfl alike)
    obtain ⟨progress, turned⟩ := state_of_proceed leads
    have other : ∀ e, failure? (ctx'.turn p'.stack p'.state) = some e → ¬e.isStructural := by
      rw [turned]
      intro e failed
      cases failed
    obtain ⟨added, log, calls⟩ := (passes₀.sound sound).turn_isProper records beside other
    rw [turned] at log
    intro record member
    rw [show q.state.log = _ from log] at member
    exact (List.mem_append.mp member).elim (ih record) (calls record)

/-- If a reading does not fail for the shape of a value, no call is to blame for it. -/
theorem Context.readOn_isProper
    (other : ∀ e, (ctx'.readOn none start').failure = some e → ¬e.isStructural) :
    ∀ record ∈ (ctx'.readOn none start').final.log, record.IsProper := by
  obtain ⟨last', passes, ends⟩ := ctx'.exists_last start'
  obtain ⟨last, passes₀, beside⟩ := passes.beside alike begins (turn_simulates records rfl alike)
  -- A call of the last turn that is not answered is how the reading fails.
  have failed : ∀ e, failure? (ctx'.turn last'.stack last'.state) = some e → ¬e.isStructural := by
    intro e failed
    apply other
    cases turned : ctx'.turn last'.stack last'.state with
    | ok progress s =>
      rw [turned] at failed
      cases failed
    | error e' s =>
      rw [turned] at ends failed
      rw [← Sum.inl.inj ends]
      exact failed
  obtain ⟨added, log, calls⟩ := (passes₀.sound sound).turn_isProper records beside failed
  have before := passes.isProper records alike begins sound proper
  rw [final_of_proceed ends, log]
  exact fun record member => (List.mem_append.mp member).elim (before record) (calls record)

end Recorded

theorem Position.Sound.readOn_value_iff {reason : ValueFault} (sound : start.Sound ctx conv table) :
    (ctx.readOn none start).failure = some (.value reason) ↔
      reason = .tooManyDigits ∧ ∃ p chars, ctx.Passes start p ∧ p.ReachesDecimal conv.dialect chars ∧
        Numeral.IsOverlong chars := by
  constructor
  · intro failed
    obtain ⟨last, passes, ends⟩ := ctx.exists_last start
    have error := Context.error_of_proceed ends failed (by simp)
    obtain ⟨same, chars, reached⟩ := (passes.sound sound).turn_eq_error_iff.mp error
    exact ⟨same, last, chars, passes, reached⟩
  · rintro ⟨same, p, chars, passes, reached⟩
    obtain ⟨final, error⟩ := (passes.sound sound).turn_eq_error_iff.mpr ⟨same, chars, reached⟩
    have ends : ctx.proceed p (ctx.turn p.stack p.state) =
        .inl ⟨p.done.reverse, some (.value reason), final⟩ := by
      rw [error]
      rfl
    rw [passes.readOn_of_ends ends]

/-- The failures that a caller has to reckon with: errors of the text, each of its own class, and
numerals that are too long. -/
def Failure.IsDocumented : Failure → Prop
  | .reading e => e.kind ≠ .general
  | .value reason => reason = .tooManyDigits
  | _ => False

theorem Failure.IsDocumented.not_isStructural {failure : Failure} (documented : failure.IsDocumented) :
    ¬failure.isStructural := by
  cases failure with
  | value fault =>
    cases documented
    exact id
  | _ => exact id

theorem Obstacle.IsTextual.isDocumented {obstacle : Obstacle} (textual : obstacle.IsTextual)
    {source : Source}
    (value : ∀ reason, obstacle.failure source = .value reason → reason = .tooManyDigits) :
    (obstacle.failure source).IsDocumented := by
  cases obstacle with
  | fault fault =>
    cases fault with
    | custom kind message => exact textual.elim
    | _ =>
      intro general
      cases general
  | value reason => exact value reason rfl

section Opened

variable {nilSymbol? : Option Value} {ready opened : Store} {line column : Int} {name : Option String}
  (creates : Context.create (conv.host table nilSymbol?) conv.bracketLists ready = .ok ctx opened)
  (sound : Position.Sound (.start ⟨opened, .ofText text line column name, #[]⟩) ctx conv table)

include creates sound

theorem Convention.isDocumented_of_readAll
    (hosts : (Store.reader table conv.interpretEscapes).withNilAlias conv.nilAlias store =
      .ok (conv.host table nilSymbol?) ready)
    (known : table.index < store.symbols.tables.size) {failure : Failure}
    (failed : (readAll (conv.host table nilSymbol?) ⟨conv.bracketLists, none⟩ ready
      (.ofText text line column name)).failure = some failure) : failure.IsDocumented := by
  let source : Source := .ofText text line column name
  have reads := ctx.readAll_eq_readOn creates none source
  obtain ⟨ds, obstacle, rest, all⟩ := ParsesAll.total conv source.remaining
  obtain ⟨values, final, means, -⟩ := Convention.reading_of_parsesAll all rfl known
  have same : readAll (conv.host table nilSymbol?) ⟨conv.bracketLists, none⟩ ready source =
      ⟨values, obstacle.map (·.failure final.source), final⟩ := by
    simpa only [Convention.reading, hosts] using means
  rw [same] at failed
  cases obstacle with
  | none => cases failed
  | some obstacle =>
    obtain rfl : obstacle.failure final.source = failure := Option.some.inj failed
    refine all.isTextual.isDocumented fun reason value => ?_
    have failed : (ctx.readOn none (.start ⟨opened, source, #[]⟩)).failure = some (.value reason) := by
      rw [← reads, same, ← value]
      rfl
    exact (sound.readOn_value_iff.mp failed).1

theorem Convention.readAll_recorded
    (other : ∀ e, (readAll (conv.host table nilSymbol?) ⟨conv.bracketLists, none⟩ ready
      (.ofText text line column name)).failure = some e → ¬e.isStructural) :
    let source : Source := .ofText text line column name
    let reading := readAll (conv.host table nilSymbol?) ⟨conv.bracketLists, none⟩ ready source
    let recorded := readAll (conv.host table nilSymbol?).recorded ⟨conv.bracketLists, none⟩
      ⟨ready, #[]⟩ source
    recorded.forms = reading.forms ∧ recorded.failure = reading.failure ∧
      ∀ record ∈ recorded.final.log, record.IsProper := by
  intro source reading recorded
  obtain ⟨ctx', calls, creates', records, alike, interned⟩ := Context.create_recorded creates
  let start' : Position (Recorded Store Value) Value := .start ⟨⟨opened, calls⟩, source, #[]⟩
  have records : ctx'.host = ctx.host.recorded := by
    rw [records, (Context.of_create creates).1]
  have begins : start'.Beside Recorded.Over (.start ⟨opened, source, #[]⟩) :=
    ⟨rfl, rfl, rfl, rfl, rfl, rfl⟩
  have same := Context.readOn_beside alike begins (Context.turn_simulates records rfl alike)
  have read : reading = ctx.readOn none _ := ctx.readAll_eq_readOn creates none source
  have reads : recorded = ctx'.readOn none start' := ctx'.readAll_eq_readOn creates' none source
  have proper : ∀ record ∈ start'.state.log, record.IsProper := by
    intro record member
    obtain ⟨name, call⟩ := interned record member
    rw [CallRecord.IsProper, call]
    trivial
  rw [← read, ← reads] at same
  refine ⟨same.forms, same.failure, ?_⟩
  rw [reads]
  refine Context.readOn_isProper records alike begins sound proper fun e failed => other e ?_
  rw [← failed, ← reads]
  exact same.failure.symm

end Opened

/-- Only documented failures escape a reading over a store, for every text and every convention. It
fails for a value exactly if it comes to an overlong decimal numeral, bare or behind `#d`. If the calls
of the host are recorded, then the reading is the same, only pairs get another rest, and only proper
lists become vectors. Every quote mark that a reading comes to is one of those that stand for a symbol. -/
theorem reading_failures (conv : Convention) (table : TableId) (store : Store)
    (known : table.index < store.symbols.tables.size) (text : List Char) (line column : Int)
    (name : Option String) :
    ∃ host ready ctx opened,
      (Store.reader table conv.interpretEscapes).withNilAlias conv.nilAlias store = .ok host ready ∧
      Context.create host conv.bracketLists ready = .ok ctx opened ∧
      let source : Source := .ofText text line column name
      let reading := readAll host ⟨conv.bracketLists, none⟩ ready source
      let recorded := readAll host.recorded ⟨conv.bracketLists, none⟩ ⟨ready, #[]⟩ source
      let start : Position Store Value := .start ⟨opened, source, #[]⟩
      (∀ failure, reading.failure = some failure → failure.IsDocumented) ∧
      (reading.failure = some (.value .tooManyDigits) ↔ ∃ p chars, ctx.Passes start p ∧
        p.ReachesDecimal conv.dialect chars ∧ Numeral.IsOverlong chars) ∧
      (recorded.forms = reading.forms ∧ recorded.failure = reading.failure ∧
        ∀ record ∈ recorded.final.log, record.IsProper) ∧
      ∀ p mark behind, ctx.Passes start p →
        conv.dialect.scanTurn p.stack.expected p.state.source.remaining =
          (.part (.opening (.quoted mark)), behind) →
        (∃ before, p.state.source.remaining = before ++ mark.text.toList ++ behind) ∧
          QuoteMark.ofText? mark.text = some mark ∧
          Denotes table p.state.host 0 0 (ctx.quoteSymbol mark) (.symbol mark.symbolName) := by
  obtain ⟨nilSymbol?, ready, hosts, nilAlias, -, known'⟩ := exists_host conv known
  obtain ⟨ctx, opened, creates, serves, -⟩ := exists_context known' nilAlias
  refine ⟨_, ready, ctx, opened, hosts, creates, ?_⟩
  intro source reading recorded start
  have sound : start.Sound ctx conv table := ⟨serves, rfl, [], .nil⟩
  have documented : ∀ failure, reading.failure = some failure → failure.IsDocumented :=
    fun _ => Convention.isDocumented_of_readAll creates sound hosts known
  refine ⟨documented, ?_, ?_, ?_⟩
  · rw [show reading = _ from ctx.readAll_eq_readOn creates none source, sound.readOn_value_iff]
    exact and_iff_right rfl
  · exact Convention.readAll_recorded creates sound fun e failed =>
      (documented e failed).not_isStructural
  · intro p mark behind passes found
    have spelt := conv.dialect.scanTurn_isSpelt p.stack.expected p.state.source.remaining
    rw [found] at spelt
    obtain ⟨_, split, before, rfl⟩ := spelt
    refine ⟨⟨before, split⟩, ?_, (passes.sound sound).serves.quotes mark⟩
    cases mark <;> rfl

/-- One digit more than are evaluated, and nothing else. -/
theorem reading_failures_overlong :
    let reading := readAll (Store.reader .shared false) ⟨true, none⟩ Store.initial
      (.ofText (List.replicate 4301 '1') 1 0 none)
    TableId.shared.index < Store.initial.symbols.tables.size ∧
      reading.failure = some (.value .tooManyDigits) ∧
      ∀ failure, reading.failure = some failure → failure.IsDocumented := by
  obtain ⟨host, ready, ctx, opened, hosts, -, documented, overlong, -⟩ :=
    reading_failures ⟨true, false, none⟩ .shared .initial (by decide) (List.replicate 4301 '1') 1 0 none
  cases hosts
  have digits (n : Nat) (p : Char → Bool) (one : p '1' = true) : (List.replicate n '1').all p = true := by
    simp [one]
  have scans : (⟨true, fun _ => true⟩ : Dialect).scan ('1' :: List.replicate 4300 '1' ++ []) =
      (.token ('1' :: List.replicate 4300 '1'), []) :=
    Dialect.scan_token (by decide) (digits 4300 _ (by decide)) (.nil _)
  rw [List.append_nil, ← List.replicate_succ] at scans
  refine ⟨by decide, overlong.mpr ⟨_, List.replicate 4301 '1', .refl, ⟨[], [], .inl ⟨?_, ?_⟩⟩, ?_⟩,
    documented⟩
  · exact congrArg (Prod.map Found.part id) scans
  · exact (List.append_nil _).symm
  · refine ⟨[], List.replicate 4301 '1', rfl, .inl rfl, digits 4301 _ (by decide), ?_⟩
    rw [List.length_replicate]
    decide

end SexprReader
