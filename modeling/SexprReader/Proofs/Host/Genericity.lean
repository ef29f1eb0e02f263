import SexprReader.Proofs.Host.Handles
import SexprReader.Proofs.Host.Tracking
import SexprReader.Proofs.Store.Incomplete

namespace SexprReader

open ReadM Store

variable {σ V α β : Type}

namespace Parallel

variable [DecidableEq V] {c : Parallel σ V} {meaning : V → Option Value}

structure Opens (c : Parallel σ V) (meaning : V → Option Value) (ctx : Context (Recorded σ V) V)
    (ctx' : Context Store Value) : Prop where
  left : ctx = c.left ctx.names
  right : ctx' = c.right ctx'.names
  names : ctx.names.Matches meaning ctx'.names

theorem create_tracks (bracketLists : Bool) :
    c.Tracks meaning (hosted (Context.create c.host.recorded bracketLists))
      (hosted (Context.create c.store bracketLists)) (fun ctx ctx' meaning => c.Opens meaning ctx ctx') := by
  have intern {meaning : V → Option Value} (name : String) :
      c.Tracks meaning (hosted (c.host.recorded.internSymbol name)) (hosted (c.store.internSymbol name))
        (fun v w meaning => Held meaning v w ∧ w.isNamed = true) := by
    refine (Tracks.hosted (R := fun w => w.isNamed = true) (.internSymbol name) rfl rfl rfl (by simp)
      ?_).mono ?_
    · intro store b store' made
      cases made
      rfl
    · intro v w meaning' holds
      refine ⟨⟨holds.1, ?_⟩, holds.2⟩
      rintro c' rfl
      cases holds.2
  unfold Context.create
  simp only [hosted_bind]
  apply Tracks.bind (intern _)
  intro dot dot' meaning₁ _ dots
  apply Tracks.bind (intern _)
  intro quote quote' meaning₂ more₁ quotes
  apply Tracks.bind (intern _)
  intro quasi quasi' meaning₃ more₂ quasis
  apply Tracks.bind (intern _)
  intro unquote unquote' meaning₄ more₃ unquotes
  apply Tracks.bind (intern _)
  intro splicing splicing' meaning₅ more₄ splicings
  -- What was looked up first has to be remembered through all later look-ups.
  have more₃ := more₃.trans more₄
  have more₂ := more₂.trans more₃
  have more₁ := more₁.trans more₂
  refine .pure (a := (_ : Context _ _)) ⟨rfl, rfl, rfl, dots.1.extend more₁, dots.2, fun mark => ?_⟩
  cases mark with
  | quote => exact quotes.1.extend more₂
  | quasiquote => exact quasis.1.extend more₃
  | unquote => exact unquotes.1.extend more₄
  | unquoteSplicing => exact splicings.1

/-- A handle stands for a value which may have been made anew in the meantime, if it is a character. -/
def Recalls (meaning : V → Option Value) (v : V) (w : Value) : Prop :=
  ∃ w', meaning v = some w' ∧ w.Alike w'

omit [DecidableEq V] in
theorem Recalls.extend {meaning' : V → Option Value} {v : V} {w : Value} (recalls : Recalls meaning v w)
    (extends_ : Extends meaning meaning') : Recalls meaning' v w := by
  obtain ⟨w', means, alike⟩ := recalls
  obtain ⟨w'', means', alike'⟩ := extends_ v w' means
  exact ⟨w'', means', alike.trans alike'⟩

inductive Agree (c : Parallel σ V) (reading : Reading (Recorded σ V) V)
    (reading' : Reading Store Value) : Prop
  | agree {meaning : V → Option Value} (failure : reading.failure = reading'.failure)
      (here : c.At meaning reading.final.host reading'.final.host)
      (forms : List.Forall₂ (Recalls meaning) reading.forms reading'.forms)
  | excused {e : Failure} (failure : reading'.failure = some e) (excused : e.isStructural)

/-- What the result of a read comes to leads both readings to an end, or to further reads. -/
theorem follow_agree {names : Names V} {names' : Names Value} {done : List V} {done' : List Value}
    (matched : names.Matches meaning names') (recalls : List.Forall₂ (Recalls meaning) done done')
    {s : ReadState (Recorded σ V)} {s' : ReadState Store} (source : s.source = s'.source)
    (here : c.At meaning s.host s'.host)
    {next : V → ReadState (Recorded σ V) → Reading (Recorded σ V) V}
    {next' : Value → ReadState Store → Reading Store Value}
    (goes : ∀ meaning' v w t t', Extends meaning meaning' → meaning' v = some w →
      t.source = t'.source → c.At meaning' t.host t'.host → c.Agree (next v t) (next' w t')) :
    c.Agree ((c.left names).follow done next ((c.left names).readForm none s))
      ((c.right names').follow done' next' ((c.right names').readForm none s')) := by
  have done_recalls {meaning' : V → Option Value} (more : Extends meaning meaning') :
      List.Forall₂ (Recalls meaning') done.reverse done'.reverse :=
    List.rel_reverse (recalls.imp fun _ _ recalls => recalls.extend more)
  have read := readForm_tracks matched s s' source here
  generalize (c.left names).readForm none s = result at read
  generalize (c.right names').readForm none s' = result' at read
  cases read with
  | @ok form form' t t' holds =>
    obtain ⟨source, meaning', more, here, means⟩ := holds
    have ends := here.mirrors.eq_iff means here.mirrors.endOfStream.means rfl
    by_cases ended : c.host.eq form c.host.endOfStream = true
    · have left : (c.left names).follow done next (.ok form t) = ⟨done.reverse, none, t⟩ := if_pos ended
      have right : (c.right names').follow done' next' (.ok form' t') = ⟨done'.reverse, none, t'⟩ :=
        if_pos (ends.mp ended)
      rw [left, right]
      exact .agree rfl here (done_recalls more)
    · have left : (c.left names).follow done next (.ok form t) = next form t := if_neg ended
      have right : (c.right names').follow done' next' (.ok form' t') = next' form' t' :=
        if_neg (mt ends.mpr ended)
      rw [left, right]
      exact goes meaning' form form' t t' more means source here
  | error holds =>
    obtain ⟨-, meaning', more, here, -⟩ := holds
    exact .agree rfl here (done_recalls more)
  | excused excused => exact .excused rfl excused

theorem readFormsWithin_agree {names : Names V} {names' : Names Value}
    (matched : names.Matches meaning names') (bound : List Char) {done : List V} {done' : List Value}
    (recalls : List.Forall₂ (Recalls meaning) done done') {s : ReadState (Recorded σ V)}
    {s' : ReadState Store} (source : s.source = s'.source) (here : c.At meaning s.host s'.host) :
    c.Agree ((c.left names).readFormsWithin none bound done s)
      ((c.right names').readFormsWithin none bound done' s') := by
  induction bound generalizing meaning done done' s s' with
  | nil =>
    rw [Context.readFormsWithin_nil, Context.readFormsWithin_nil]
    apply follow_agree matched recalls source here
    intro meaning' v w t t' more _ _ here
    exact .agree rfl here (List.rel_reverse (recalls.imp fun _ _ recalls => recalls.extend more))
  | cons _ bound ih =>
    rw [Context.readFormsWithin_cons, Context.readFormsWithin_cons]
    apply follow_agree matched recalls source here
    intro meaning' v w t t' more means source here
    have recalls := recalls.imp fun _ _ recalls => recalls.extend more
    exact ih (matched.extend more) (.cons ⟨w, means, .refl w⟩ recalls) source here

omit [DecidableEq V] in
theorem mem_constants {s : σ} (fit : c.valid s) {pair : V × Value}
    (member : pair ∈ c.host.constants.zip c.store.constants) :
    ∃ k, c.kind s pair.1 = some (.constant k) ∧ pair.2 = .sentinel k := by
  let sentinels : List Sentinel := [.nil, .false, .endOfStream, .true, .unspecified, .logicalEof]
  have right : c.store.constants = sentinels.map .sentinel := rfl
  have left : c.host.constants.map (c.kind s) = sentinels.map (some ∘ .constant) :=
    c.hides.constants s fit
  obtain ⟨i, inside, rfl⟩ := List.getElem_of_mem member
  have bound : i < sentinels.length := by
    have below := List.lt_length_right_of_zip inside
    rwa [right, List.length_map] at below
  refine ⟨sentinels[i], ?_, ?_⟩
  · have same := congrArg (fun kinds => kinds[i]?) left
    simpa [List.getElem?_eq_getElem, List.lt_length_left_of_zip inside, bound] using same
  · simp only [List.getElem_zip, right, List.getElem_map]

theorem At.start {initial : σ} (fit : c.valid initial)
    (known : c.table.index < c.origin.symbols.tables.size) :
    c.At (Replay.start c.host c.store c.origin).meaning ⟨initial, #[]⟩ c.origin where
  replays := rfl
  mirrors := by
    have stands (v : V) (w : Value) (found : (c.host.constants.zip c.store.constants).lookup v = some w) :
        (v, w) ∈ c.host.constants.zip c.store.constants := by
      obtain ⟨before, behind, split, -⟩ := List.lookup_eq_some_iff.mp found
      rw [split]
      simp
    refine ⟨fit, known, fun v w means => ?_, fun pair member => ?_⟩
    · obtain ⟨k, is, rfl⟩ := mem_constants fit (stands v w means)
      exact ⟨_, is, .sentinel k⟩
    · obtain ⟨k, is, same⟩ := mem_constants fit member
      obtain ⟨w, found⟩ : ∃ w, (c.host.constants.zip c.store.constants).lookup pair.1 = some w := by
        rw [← Option.isSome_iff_exists, List.lookup_isSome_iff]
        exact ⟨pair, member, by simp⟩
      obtain ⟨k', is', rfl⟩ := mem_constants fit (stands _ _ found)
      cases is.symm.trans is'
      exact ⟨found.trans (congrArg some same.symm), by simp [same]⟩

theorem readAll_agree {initial : σ} (fit : c.valid initial)
    (known : c.table.index < c.origin.symbols.tables.size) (bracketLists : Bool) (source : Source) :
    c.Agree (readAll c.host.recorded ⟨bracketLists, none⟩ ⟨initial, #[]⟩ source)
      (readAll c.store ⟨bracketLists, none⟩ c.origin source) := by
  have created := create_tracks bracketLists ⟨⟨initial, #[]⟩, source, #[]⟩ ⟨c.origin, source, #[]⟩ rfl
    (At.start fit known)
  unfold readAll
  -- Looking up the names fails on both sides or on neither, unless the reading is excused.
  cases left : Context.create c.host.recorded bracketLists ⟨initial, #[]⟩ with
  | ok ctx h =>
    rw [hosted_of_ok left] at created
    cases right : Context.create c.store bracketLists c.origin with
    | ok ctx' store =>
      rw [hosted_of_ok right] at created
      cases created with
      | ok holds =>
        obtain ⟨source, meaning, -, here, opens⟩ := holds
        dsimp only
        rw [opens.left, opens.right]
        exact readFormsWithin_agree opens.names _ .nil rfl here
    | error e store =>
      rw [hosted_of_error right] at created
      cases created with
      | excused excused => exact .excused rfl excused
  | error e h =>
    rw [hosted_of_error left] at created
    cases right : Context.create c.store bracketLists c.origin with
    | ok ctx' store =>
      rw [hosted_of_ok right] at created
      cases created
    | error e' store =>
      rw [hosted_of_error right] at created
      cases created with
      | error holds =>
        obtain ⟨-, meaning, -, here, -⟩ := holds
        exact .agree rfl here .nil
      | excused excused => exact .excused rfl excused

end Parallel

theorem Value.Alike.tree?_eq {w w' : Value} (alike : w.Alike w') (heap : Heap) :
    heap.tree? w = heap.tree? w' := by
  cases alike with
  | refl => rfl
  | character same => simp [Heap.tree?, Heap.treeWithin, same]

theorem parseInteger_error {text : String} {radix : Int} {reason : ValueFault}
    (error : parseInteger text radix = .error reason) :
    reason = .unusableRadix ∨ reason = .tooManyDigits := by
  unfold parseInteger at error
  dsimp only at error
  split at error
  · cases error
  · split at error
    · cases error
      exact .inl rfl
    · split at error
      · cases error
        exact .inr rfl
      · cases error

theorem Obstacle.IsTextual.not_isStructural {obstacle : Obstacle} (textual : obstacle.IsTextual)
    (source : Source) : ¬(obstacle.failure source).isStructural := by
  cases obstacle with
  | fault fault => exact id
  | value reason =>
    obtain ⟨text, radix, error⟩ := textual
    obtain rfl | rfl := parseInteger_error error <;> exact id

/-- The reader cannot tell a host of handles from a store. Over either of them a text comes to the
same forms and to the same error at the same place, where the forms over the handles are found by
making the recorded calls again on the store. -/
theorem readAll_replays [DecidableEq V] {host : Host σ V} {valid : σ → Prop}
    {kind : σ → V → Option Kind} (hides : host.Opaque valid kind) {initial : σ} (fit : valid initial)
    {table : TableId} {store : Store} (known : table.index < store.symbols.tables.size)
    (bracketLists interpretEscapes : Bool) (text : List Char) (line column : Int)
    (name : Option String) :
    let source : Source := .ofText text line column name
    let reading := readAll host.recorded ⟨bracketLists, none⟩ ⟨initial, #[]⟩ source
    let reading' := readAll (Store.reader table interpretEscapes) ⟨bracketLists, none⟩ store source
    reading.failure = reading'.failure ∧
      ∃ meaning, CallLog.replay host (Store.reader table interpretEscapes) store
          reading.final.host.calls.toList = some ⟨meaning, reading'.final.host⟩ ∧
        reading.forms.map (fun v => (meaning v).bind reading'.final.host.heap.tree?) =
          reading'.forms.map reading'.final.host.heap.tree? ∧
        ∀ w ∈ reading'.forms, (reading'.final.host.heap.tree? w).isSome := by
  intro source reading reading'
  let c : Parallel σ V := ⟨host, valid, kind, hides, table, interpretEscapes, store⟩
  have agree : c.Agree reading reading' := Parallel.readAll_agree fit known bracketLists source
  obtain ⟨ds, obstacle, rest, all⟩ :=
    ParsesAll.total ⟨bracketLists, interpretEscapes, none⟩ source.remaining
  obtain ⟨values, final, comes, -, denotes, -⟩ := Convention.reading_of_parsesAll all rfl known
  rw [Convention.reading_without_alias] at comes
  have comes : reading' = ⟨values, obstacle.map (·.failure final.source), final⟩ := comes
  cases agree with
  | @agree meaning failure here forms =>
    refine ⟨failure, meaning, here.replays, ?_, ?_⟩
    · have same (v : V) (w : Value) (recalls : Parallel.Recalls meaning v w) :
          (meaning v).bind reading'.final.host.heap.tree? = reading'.final.host.heap.tree? w := by
        obtain ⟨w', means, alike⟩ := recalls
        rw [means, Option.bind_some, alike.tree?_eq]
      rw [← List.forall₂_eq_eq_eq, List.forall₂_map_left_iff, List.forall₂_map_right_iff]
      exact forms.imp same
    · rw [comes]
      exact denotes.isSome_tree?
  | excused failure excused =>
    rw [comes] at failure
    obtain ⟨reason, rfl, rfl⟩ := Option.map_eq_some_iff.mp failure
    exact absurd excused (all.isTextual.not_isStructural _)

/-- A quote in a dotted list, a vector that holds a string, and a list that is never closed. -/
theorem readAll_replays_quote_vector :
    ∃ source reading reading', source = .ofText "('a . #\\x) #(1 \"s\" #\\x) (b".toList 1 0 none ∧
      reading = readAll (Handles.host ⟨.all, false, .raise⟩).recorded ⟨true, none⟩
        ⟨Handles.initial, #[]⟩ source ∧
      reading' = readAll (Store.reader .shared true) ⟨true, none⟩ Store.initial source ∧
      (Handles.host ⟨.all, false, .raise⟩).Opaque Handles.Distinct Handles.kind ∧
      Handles.Distinct Handles.initial ∧
      TableId.shared.index < Store.initial.symbols.tables.size ∧
      reading.forms = [.pair 2, .vector 0] ∧
      reading'.failure = some (.reading ⟨.endOfInput .list, some 1, some 26, none⟩) ∧
      reading.failure = reading'.failure ∧
      ∃ meaning, CallLog.replay (Handles.host ⟨.all, false, .raise⟩) (Store.reader .shared true)
          Store.initial reading.final.host.calls.toList = some ⟨meaning, reading'.final.host⟩ ∧
        reading.forms.map (fun v => (meaning v).bind reading'.final.host.heap.tree?) =
          reading'.forms.map reading'.final.host.heap.tree? ∧
        ∀ w ∈ reading'.forms, (reading'.final.host.heap.tree? w).isSome := by
  have known : TableId.shared.index < Store.initial.symbols.tables.size := by decide
  refine ⟨_, _, _, rfl, rfl, rfl, Handles.hides, Handles.distinct_initial, known, ?_, ?_, ?_⟩
  · decide +kernel
  · decide +kernel
  · exact readAll_replays Handles.hides Handles.distinct_initial known true true _ 1 0 none

end SexprReader
