import SexprReader.Proofs.Grammar.Unfinished
import SexprReader.Proofs.Reader.Moments
import SexprReader.Proofs.Reader.Lexing
import SexprReader.Proofs.Store.Readings

/-! The open forms of a reader over a store. The pairs of each form are above all pairs of the forms
around it, so that a turn, which changes the innermost form only, leaves the others what they are. -/

namespace SexprReader

open ReadM Store Unfinished

variable {ctx : Context Store Value} {conv : Convention} {table : TableId} {store store' : Store}
  {lo hi : Nat}

/-- A frame on the stack stands for an open form, and its pairs are between `lo` and `hi`. -/
inductive Frame.Holds (ctx : Context Store Value) (table : TableId) (store : Store) (lo hi : Nat) :
    Frame Value → Unfinished → Prop
  | members {bracket : Bracket} {spine : Spine Value} {before : List Datum}
      (holds : spine.Holds table store lo before) (below : spine.Below hi) :
      Holds ctx table store lo hi (.list bracket spine) (.members bracket before)
  | dotted {bracket : Bracket} {head last : Nat} {before : List Datum} (list : bracket ≠ .vector)
      (linked : Linked table store lo .nil last head before) (below : last < hi) :
      Holds ctx table store lo hi (.list bracket (.dotted (.pair head) (.pair last)))
        (.dotted bracket before)
  | sealed {bracket : Bracket} {head last : Nat} {rest : Value} {before : List Datum} {tail : Datum}
      (list : bracket ≠ .vector) (linked : Linked table store lo rest last head before)
      (below : last < hi) (tails : Denotes table store lo hi rest tail) :
      Holds ctx table store lo hi (.list bracket (.sealed (.pair head) (.pair last)))
        (.sealed bracket before tail)
  | quoted (mark : QuoteMark) :
      Holds ctx table store lo hi (.quoted mark (ctx.quoteSymbol mark)) (.quoted mark)
  | discarded : Holds ctx table store lo hi .datumComment .discarded

inductive Stack.Holds (ctx : Context Store Value) (table : TableId) (store : Store) :
    (hi : Nat) → Stack Value → List Unfinished → Prop
  | nil {hi : Nat} : Holds ctx table store hi [] []
  | cons {lo hi : Nat} {frame : Frame Value} {form : Unfinished} {stack : Stack Value}
      {frames : List Unfinished} (order : lo ≤ hi) (holds : frame.Holds ctx table store lo hi form)
      (outer : Holds ctx table store lo stack frames) :
      Holds ctx table store hi (frame :: stack) (form :: frames)

theorem Frame.Holds.agrees {frame : Frame Value} {form : Unfinished}
    (holds : frame.Holds ctx table store lo hi form) (agrees : Agrees lo hi store store') :
    frame.Holds ctx table store' lo hi form := by
  cases holds with
  | members holds below =>
    cases holds with
    | empty => exact .members .empty trivial
    | growing linked =>
      exact .members (.growing (linked.agrees (agrees.narrow (Nat.le_refl _) below))) below
  | dotted list linked below =>
    exact .dotted list (linked.agrees (agrees.narrow (Nat.le_refl _) below)) below
  | sealed list linked below tails =>
    exact .sealed list (linked.agrees (agrees.narrow (Nat.le_refl _) below)) below
      (tails.agrees agrees)
  | quoted mark => exact .quoted mark
  | discarded => exact .discarded

theorem Spine.Below.mono {spine : Spine Value} {hi' : Nat} (below : spine.Below hi) (le : hi ≤ hi') :
    spine.Below hi' := by
  unfold Spine.Below at below ⊢
  split at below
  · exact Nat.lt_of_lt_of_le below le
  · trivial

theorem Frame.Holds.widen {frame : Frame Value} {form : Unfinished} {hi' : Nat}
    (holds : frame.Holds ctx table store lo hi form) (le : hi ≤ hi') :
    frame.Holds ctx table store lo hi' form := by
  cases holds with
  | members holds below => exact .members holds (below.mono le)
  | dotted list linked below => exact .dotted list linked (by omega)
  | sealed list linked below tails =>
    exact .sealed list linked (by omega) (tails.widen (Nat.le_refl _) le)
  | quoted mark => exact .quoted mark
  | discarded => exact .discarded

namespace Stack.Holds

variable {stack : Stack Value} {frames : List Unfinished}

theorem agrees (holds : stack.Holds ctx table store hi frames) (agrees : Agrees 0 hi store store') :
    stack.Holds ctx table store' hi frames := by
  induction holds with
  | nil => exact .nil
  | cons order frame _ ih =>
    exact .cons order (frame.agrees (agrees.narrow (Nat.zero_le _) (Nat.le_refl _)))
      (ih (agrees.narrow (Nat.le_refl _) order))

theorem widen {hi' : Nat} (holds : stack.Holds ctx table store hi frames) (le : hi ≤ hi') :
    stack.Holds ctx table store hi' frames := by
  cases holds with
  | nil => exact .nil
  | cons order frame outer => exact .cons (by omega) (frame.widen le) outer

end Stack.Holds

def Context.settle {σ V α : Type} (ctx : Context σ V) : Except Obstacle α → ReadM σ α
  | .ok a => pure a
  | .error (.fault fault) => ctx.fail fault
  | .error (.value fault) => throw (.value fault)

theorem Context.settle_error {σ V α β : Type} (ctx : Context σ V) (obstacle : Obstacle)
    (f : α → ReadM σ β) :
    ctx.settle (.error obstacle) >>= f = ctx.settle (.error obstacle) := by
  cases obstacle with
  | fault fault => exact ctx.fail_bind fault f
  | value fault => rfl

theorem Context.conclude_eq_settle {σ V α : Type} (ctx : Context σ V) (reply : Item V → ReadM σ α)
    (obstacle : Obstacle) : ctx.conclude reply (.error obstacle) = ctx.settle (.error obstacle) := by
  cases obstacle <;> rfl

inductive Attains (ctx : Context Store Value) (table : TableId) (store : Store) :
    Except Obstacle (Progress Value) → Turn → Prop
  | pending {stack : Stack Value} {frames : List Unfinished}
      (holds : stack.Holds ctx table store store.heap.pairs.size frames) :
      Attains ctx table store (.ok (.pending stack)) (.pending frames)
  | finished {v : Value} {d : Datum} (denotes : Denotes table store 0 store.heap.pairs.size v d)
      (other : d ≠ .sentinel .endOfStream) :
      Attains ctx table store (.ok (.finished (some v))) (.finished (some d))
  | ended : Attains ctx table store (.ok (.finished none)) (.finished none)
  | stopped (obstacle : Obstacle) : Attains ctx table store (.error obstacle) (.stopped obstacle)

def Enacts (ctx : Context Store Value) (table : TableId) (m : ReadM Store (Progress Value))
    (store : Store) (text : List Char) (turn : Turn) (rest : List Char) : Prop :=
  ∃ answer store', Agrees 0 0 store store' ∧ Attains ctx table store' answer turn ∧
    m.Becomes store text (ctx.settle answer) store' rest

namespace Enacts

variable {m m' : ReadM Store (Progress Value)} {text inner rest : List Char} {turn : Turn}

theorem after (first : m.Becomes store text m' store' inner) (agrees : Agrees 0 0 store store')
    (enacts : Enacts ctx table m' store' inner turn rest) :
    Enacts ctx table m store text turn rest := by
  obtain ⟨answer, store'', agrees', attains, becomes⟩ := enacts
  exact ⟨answer, store'', agrees.trans agrees', attains, first.trans becomes⟩

theorem pending {stack : Stack Value} {frames : List Unfinished}
    (holds : stack.Holds ctx table store store.heap.pairs.size frames) (text : List Char) :
    Enacts ctx table (pure (.pending stack)) store text (.pending frames) text :=
  ⟨.ok (.pending stack), store, .refl _ _ _, .pending holds, .refl _ _ _⟩

theorem stopped (ctx : Context Store Value) (table : TableId) (store : Store) (text : List Char)
    (obstacle : Obstacle) :
    Enacts ctx table (ctx.settle (.error obstacle)) store text (.stopped obstacle) text :=
  ⟨.error obstacle, store, .refl _ _ _, .stopped obstacle, .refl _ _ _⟩

end Enacts

section Complete

variable {stack outer : Stack Value} {frames : List Unfinished} {bracket : Bracket}
  {before : List Datum} {v : Value} {d : Datum}

theorem complete_none_enacts (holds : stack.Holds ctx table store hi frames) (text : List Char) :
    Enacts ctx table (ctx.complete stack none) store text (complete frames none) text := by
  induction holds with
  | nil => exact ⟨.ok (.finished none), store, .refl _ _ _, .ended, .refl _ _ _⟩
  | cons _ frame _ ih =>
    cases frame with
    | members => exact .stopped ctx table store text (.fault _)
    | dotted => exact .stopped ctx table store text (.fault _)
    | sealed => exact .stopped ctx table store text (.fault _)
    | quoted => exact .stopped ctx table store text (.fault _)
    | discarded => exact ih

variable {mid : Nat} (serves : Serves ctx conv table store)
  (within : mid ≤ store.heap.pairs.size)
  (denotes : Denotes table store mid store.heap.pairs.size v d)

include serves within denotes

theorem append_member_enacts {spine : Spine Value} (order : lo ≤ mid)
    (holds : spine.Holds table store lo before) (below : spine.Below mid)
    (others : outer.Holds ctx table store lo frames) (text : List Char) :
    Enacts ctx table (ctx.complete (.list bracket spine :: outer) (some v)) store text
      (complete (.members bracket before :: frames) (some d)) text := by
  have equal := serves.eq_dot denotes
  by_cases dot : d.isDot = true
  · rw [dot] at equal
    simp only [complete, if_pos dot]
    cases holds with
    | empty =>
      simp only [Context.complete, Context.append, equal, if_true, ctx.fail_bind]
      exact .stopped ctx table store text (.fault .nothingBeforeDot)
    | growing linked =>
      have some : before.isEmpty = false := by simpa using linked.ne_nil
      simp only [Context.complete, Context.append, equal, if_true, some]
      by_cases vector : bracket = .vector
      · simp only [if_pos vector, ctx.fail_bind]
        exact .stopped ctx table store text (.fault .dotInVector)
      · simp only [if_neg vector, pure_bind]
        exact .pending (.cons (by omega) (.dotted vector linked linked.last_lt) others) text
  · obtain ⟨spine', store', agrees, holds', becomes⟩ :=
      serves.append_becomes bracket holds below order within denotes (by simpa using dot) text
    simp only [complete, if_neg dot]
    refine .after (becomes.pure_bind (.refl _ _ _)) agrees.apart_from_pairs ?_
    have room := agrees.size
    exact .pending (.cons (by omega) (.members holds' holds'.below) (others.agrees agrees)) text

theorem append_tail_enacts {head last : Nat} (order : lo ≤ mid) (list : bracket ≠ .vector)
    (linked : Linked table store lo .nil last head before) (below : last < mid)
    (others : outer.Holds ctx table store lo frames) (text : List Char) :
    Enacts ctx table
      (ctx.complete (.list bracket (.dotted (.pair head) (.pair last)) :: outer) (some v)) store text
      (complete (.dotted bracket before :: frames) (some d)) text := by
  let changed := store.changeRest last v
  have inside := linked.last_lt
  have tails : Denotes table changed lo changed.heap.pairs.size v d := by
    rw [size_changeRest]
    exact (denotes.agrees (store.agrees_changeRest v (.inl below))).widen order (Nat.le_refl _)
  have kept : outer.Holds ctx table changed lo frames :=
    others.agrees (store.agrees_changeRest v (.inr linked.above))
  have set := hosted_becomes (serves.setRest last v) text
  simp only [Context.complete, Context.append, complete, bind_assoc, pure_bind]
  refine .after (set.pure_bind (.refl _ _ _)) (store.agrees_changeRest v (.inr (Nat.zero_le _))) ?_
  apply Enacts.pending (.cons ?_ (.sealed list (linked.changeRest v) ?_ tails) kept)
  · rw [size_changeRest]
    omega
  · rw [size_changeRest]
    exact inside

end Complete

/-- A form is handed to the innermost open form, which takes it as its part or is complete with it. -/
theorem complete_enacts {stack : Stack Value} {frames : List Unfinished} {mid : Nat} {v : Value}
    {d : Datum} (serves : Serves ctx conv table store)
    (holds : stack.Holds ctx table store mid frames) (within : mid ≤ store.heap.pairs.size)
    (denotes : Denotes table store mid store.heap.pairs.size v d)
    (other : d ≠ .sentinel .endOfStream) (text : List Char) :
    Enacts ctx table (ctx.complete stack (some v)) store text (complete frames (some d)) text := by
  induction stack generalizing store frames v d with
  | nil =>
    cases holds
    exact ⟨.ok (.finished (some v)), store, .refl _ _ _,
      .finished (denotes.widen (Nat.zero_le _) (Nat.le_refl _)) other, .refl _ _ _⟩
  | cons frame outer ih =>
    cases holds with
    | cons order frame others =>
      cases frame with
      | members holds below =>
        exact append_member_enacts serves within denotes order holds below others text
      | dotted list linked below =>
        exact append_tail_enacts serves within denotes order list linked below others text
      | sealed list linked below tails =>
        have kept := (Stack.Holds.cons order (.sealed list linked below tails) others).widen within
        simp only [Context.complete, Context.append, pure_bind]
        exact .pending kept text
      | quoted mark =>
        have first := serves.makePair v .nil
        have pushed := store.agrees_pushPair 0 v .nil
        have serves' := serves.agrees pushed
        have second := serves'.makePair (ctx.quoteSymbol mark) (.pair store.heap.pairs.size)
        have pushed' := (store.pushPair v .nil).agrees_pushPair 0 (ctx.quoteSymbol mark)
          (.pair store.heap.pairs.size)
        have both := pushed.trans (pushed'.narrow (Nat.le_refl _) pushed.size)
        simp only [Context.complete, complete, serves.nil_eq]
        refine .after ((hosted_becomes first text).pure_bind ((hosted_becomes second text).pure_bind
          (.refl _ _ _))) both.apart_from_pairs ?_
        -- The quoted form is itself handed to the form around it.
        exact ih (serves.agrees both)
          ((others.widen order).agrees (both.narrow (Nat.le_refl _) within))
          (Nat.le_trans within both.size) (serves.denotes_quoted mark denotes within)
          (by simp [Datum.quoted])
      | discarded =>
        refine .after ((report_becomes store text .discardedDatum).pure_bind (.refl _ _ _))
          (.refl _ _ _) ?_
        exact .pending (others.widen (by omega)) text

section Turn

variable {stack : Stack Value} {frames : List Unfinished} {text rest : List Char}

theorem readPart_opening (serves : Serves ctx conv table store)
    (holds : stack.Holds ctx table store store.heap.pairs.size frames) {start : Opening}
    (scans : conv.dialect.scan text = (.opening start, rest)) :
    Enacts ctx table (ctx.readPart none (throw .stalled) stack) store text
      (.pending (ofOpening start :: frames)) rest := by
  have datum := ctx.readDatum_becomes store (throw .stalled) text
  rw [serves.dialect_eq, scans] at datum
  rw [ctx.readPart_eq]
  refine .after (datum.pure_bind (.refl _ _ _)) (.refl _ _ _) ?_
  apply Enacts.pending (.cons (Nat.le_refl _) ?_ holds)
  cases start with
  | quoted mark => exact .quoted mark
  | list bracket => exact .members .empty trivial
  | datumComment => exact .discarded

theorem readPart_atom (serves : Serves ctx conv table store)
    (holds : stack.Holds ctx table store store.heap.pairs.size frames) {lexeme : Lexeme}
    {outcome : Outcome} (scans : conv.dialect.scan text = (lexeme, rest))
    (means : conv.atom lexeme = some outcome) :
    Enacts ctx table (ctx.readPart none (throw .stalled) stack) store text (deliver frames outcome)
      rest := by
  have datum := ctx.readDatum_becomes store (throw .stalled) text
  rw [serves.dialect_eq, scans] at datum
  obtain ⟨few, answer, store', agrees, matched, performs⟩ := serves.performs means rest
  have becomes := (datum.trans (performs few (Nat.le_refl _))).bind (ctx.finishPart stack)
  have kept := holds.agrees agrees
  rw [ctx.readPart_eq]
  refine .after becomes agrees.apart_from_pairs ?_
  cases matched with
  | form denotes =>
    exact complete_enacts (serves.agrees agrees) kept agrees.size denotes
      (Convention.atom_ne_endOfStream means) rest
  | comment => exact .pending (kept.widen agrees.size) rest
  | endOfInput => exact complete_none_enacts kept rest
  | error obstacle =>
    rw [ctx.conclude_eq_settle, ctx.settle_error]
    exact .stopped ctx table store' rest obstacle

theorem turn_of_ready (holds : stack.Holds ctx table store hi frames) (ready : Ready text frames) :
    ∃ text', behindBlanks false text' = behindBlanks false text ∧
      (ctx.turn stack).Becomes store text (ctx.readPart none (throw .stalled) stack) store text' := by
  have anything (takes : stack.TakesAnything) :
      (ctx.turn stack).Becomes store text (ctx.readPart none (throw .stalled) stack) store text := by
    rw [Context.turn_of_takesAnything takes]
    exact .refl _ _ _
  cases holds with
  | nil => exact ⟨text, rfl, anything trivial⟩
  | @cons _ _ _ _ outer _ _ frame _ =>
    cases frame with
    | @members bracket spine before holds below =>
      obtain ⟨c, inner, blanks, other⟩ := ready
      have takes : spine.TakesMembers := by
        cases holds <;> trivial
      refine ⟨behindBlanks false text, behindBlanks_idem text, ?_⟩
      rw [Context.turn_of_takesMembers bracket outer takes]
      refine (Context.skipBlanks_becomes store text).pure_bind ?_
      simp only [blanks, List.head?_cons, beq_iff_eq, other, if_false]
      exact .refl _ _ _
    | dotted => exact ⟨text, rfl, anything trivial⟩
    | sealed => exact ready.elim
    | quoted => exact ⟨text, rfl, anything trivial⟩
    | discarded => exact ⟨text, rfl, anything trivial⟩

theorem turn_close (serves : Serves ctx conv table store) {bracket : Bracket} {before : List Datum}
    {outer : List Unfinished}
    (holds : stack.Holds ctx table store store.heap.pairs.size (.members bracket before :: outer))
    (closer : behindBlanks false text = bracket.closer :: rest) :
    Enacts ctx table (ctx.turn stack) store text
      (complete outer (some (bracket.enclose before .nil))) rest := by
  cases holds with
  | @cons _ _ _ _ stack _ order frame others =>
    cases frame with
    | @members _ spine _ holds below =>
      have takes : spine.TakesMembers := by
        cases holds <;> trivial
      obtain ⟨v, store', agrees, denotes, becomes⟩ := serves.close_becomes bracket holds rest
      rw [Context.turn_of_takesMembers bracket stack takes]
      refine .after ((Context.skipBlanks_becomes store text).pure_bind ?_) agrees.apart_from_pairs
        (complete_enacts (serves.agrees agrees) (others.agrees agrees)
          (Nat.le_trans order agrees.size) denotes (Bracket.enclose_ne_endOfStream (.inr rfl)) rest)
      simp only [closer, List.head?_cons, beq_self_eq_true, if_true]
      exact (nextChar_becomes store rest bracket.closer).pure_bind (becomes.pure_bind (.refl _ _ _))

theorem turn_closeTail (serves : Serves ctx conv table store) {bracket : Bracket}
    {before : List Datum} {tail : Datum} {outer : List Unfinished} {outcome : Outcome}
    (holds : stack.Holds ctx table store store.heap.pairs.size
      (.sealed bracket before tail :: outer))
    (ends : bracket.afterTail before tail text = (outcome, rest)) :
    Enacts ctx table (ctx.turn stack) store text (deliver outer outcome) rest := by
  cases holds with
  | @cons lo _ _ _ stack _ order frame others =>
    cases frame with
    | @sealed _ head last _ _ _ list linked below tails =>
      have value : Denotes table store lo store.heap.pairs.size (.pair head)
          (bracket.enclose before tail) := by
        rw [Bracket.enclose_of_ne_vector list]
        exact linked.denotes tails below
      let finish := ctx.close bracket (.sealed (.pair head) (.pair last)) >>= fun v =>
        ctx.complete stack (some v)
      rw [Context.turn_sealed]
      obtain ⟨rfl, closes⟩ | ⟨fault, rfl, fails⟩ := readCloser_cases ctx store ends
      · refine .after (closes.pure_bind (.refl _ _ _)) (.refl _ _ _) ?_
        rw [ctx.close_sealed list, pure_bind]
        exact complete_enacts serves others order value
          (Bracket.enclose_ne_endOfStream (.inl linked.ne_nil)) rest
      · have failed := fails.bind fun _ => finish
        rw [ctx.fail_bind] at failed
        exact .after failed (.refl _ _ _) (.stopped ctx table store rest (.fault fault))

theorem Turns.enacts {turn : Turn} (turns : Turns conv frames text turn rest)
    (serves : Serves ctx conv table store)
    (holds : stack.Holds ctx table store store.heap.pairs.size frames) :
    Enacts ctx table (ctx.turn stack) store text turn rest := by
  cases turns with
  | opening ready scans =>
    obtain ⟨text', same, becomes⟩ := turn_of_ready holds ready
    rw [← Dialect.scan_of_behindBlanks same] at scans
    exact .after becomes (.refl _ _ _) (readPart_opening serves holds scans)
  | atom ready scans means =>
    obtain ⟨text', same, becomes⟩ := turn_of_ready holds ready
    rw [← Dialect.scan_of_behindBlanks same] at scans
    exact .after becomes (.refl _ _ _) (readPart_atom serves holds scans means)
  | @unclosed _ _ bracket before blank =>
    cases holds with
    | @cons _ _ _ _ outer _ _ frame _ =>
      cases frame with
      | @members _ spine _ holds below =>
        have takes : spine.TakesMembers := by
          cases holds <;> trivial
        have skipped := Context.skipBlanks_becomes store text
        rw [blank] at skipped
        rw [Context.turn_of_takesMembers bracket outer takes]
        exact .after (skipped.pure_bind (.refl _ _ _)) (.refl _ _ _)
          (.stopped ctx table store [] (.fault _))
  | close closer => exact turn_close serves holds closer
  | closeTail ends => exact turn_closeTail serves holds ends

def settledAt {α : Type} (s : ReadState Store) :
    Except Obstacle α → EStateM.Result Failure (ReadState Store) α
  | .ok a => .ok a s
  | .error obstacle => .error (obstacle.failure s.source) s

theorem Serves.settle_apply {α : Type} (serves : Serves ctx conv table store)
    (answer : Except Obstacle α) (s : ReadState Store) :
    ∃ s', s'.host = s.host ∧ s'.source = s.source ∧ ctx.settle answer s = settledAt s' answer := by
  match answer with
  | .ok a => exact ⟨s, rfl, rfl, rfl⟩
  | .error (.fault fault) =>
    obtain ⟨trace, fails⟩ := serves.fail_apply fault s
    exact ⟨{ s with trace }, rfl, rfl, fails⟩
  | .error (.value fault) => exact ⟨s, rfl, rfl, rfl⟩

theorem Turns.turn_eq {turn : Turn} (turns : Turns conv frames text turn rest)
    (serves : Serves ctx conv table store)
    (holds : stack.Holds ctx table store store.heap.pairs.size frames) {s : ReadState Store}
    (stands : s.Stands store text) :
    ∃ answer s', Agrees 0 0 store s'.host ∧ s'.Stands s'.host rest ∧
      Attains ctx table s'.host answer turn ∧ ctx.turn stack s = settledAt s' answer := by
  obtain ⟨answer, store', agrees, attains, becomes⟩ := turns.enacts serves holds
  obtain ⟨s₁, stands₁, turned⟩ := becomes s stands
  obtain ⟨s', host, source, settled⟩ := serves.settle_apply answer s₁
  obtain rfl : s'.host = store' := host.trans stands₁.host
  refine ⟨answer, s', agrees, ⟨rfl, ?_, ?_⟩, attains, turned.trans settled⟩
  · rw [source]
    exact stands₁.remaining
  · rw [source]
    exact stands₁.ending

theorem Finishes.leads {outcome : Outcome} (finishes : Finishes conv frames text outcome rest)
    {store : Store} (serves : Serves ctx conv table store) {stack : Stack Value}
    (holds : stack.Holds ctx table store store.heap.pairs.size frames) {s : ReadState Store}
    (stands : s.Stands store text) :
    ∃ s', s'.Stands s'.host rest ∧ Serves ctx conv table s'.host ∧
      match outcome with
      | .ok (.form d) => d ≠ .sentinel .endOfStream ∧ ∃ v,
          Denotes table s'.host 0 s'.host.heap.pairs.size v d ∧
            ctx.Leads (.ok (.finished (some v)) s') (ctx.turn stack s)
      | .ok _ => ctx.Leads (.ok (.finished none) s') (ctx.turn stack s)
      | .error obstacle =>
          ctx.Leads (.error (obstacle.failure s'.source) s') (ctx.turn stack s) := by
  induction finishes generalizing store stack s with
  | form turns =>
    obtain ⟨answer, s', agrees, stands', attains, turned⟩ := turns.turn_eq serves holds stands
    cases attains with
    | @finished v _ denotes other =>
      rw [turned]
      exact ⟨s', stands', serves.agrees agrees, other, v, denotes, .refl⟩
  | end_ turns =>
    obtain ⟨answer, s', agrees, stands', attains, turned⟩ := turns.turn_eq serves holds stands
    cases attains
    rw [turned]
    exact ⟨s', stands', serves.agrees agrees, .refl⟩
  | stop turns =>
    obtain ⟨answer, s', agrees, stands', attains, turned⟩ := turns.turn_eq serves holds stands
    cases attains
    rw [turned]
    exact ⟨s', stands', serves.agrees agrees, .refl⟩
  | turn turns _ ih =>
    obtain ⟨answer, s₁, agrees, stands₁, attains, turned⟩ := turns.turn_eq serves holds stands
    cases attains with
    | pending holds₁ =>
      obtain ⟨s', stands', serves', comes⟩ := ih (serves.agrees agrees) holds₁ stands₁
      refine ⟨s', stands', serves', ?_⟩
      rw [turned]
      split at comes
      · obtain ⟨other, v, denotes, leads⟩ := comes
        exact ⟨other, v, denotes, .turn leads⟩
      · exact .turn comes
      · exact .turn comes

/-- Reading on from open forms, or from where the loop leads to them, gives what the text means. -/
theorem FinishesAll.resume {ds : List Datum} {obstacle : Option Obstacle}
    (all : FinishesAll conv frames text ds obstacle rest) (serves : Serves ctx conv table store)
    (holds : stack.Holds ctx table store store.heap.pairs.size frames) {s : ReadState Store}
    (stands : s.Stands store text) {earlier : Stack Value} {start : ReadState Store}
    (way : ctx.Leads (ctx.turn stack s) (ctx.turn earlier start))
    (longer : text.length ≤ start.source.remaining.length) :
    ∃ values final, DenotesAll table final.host 0 final.host.heap.pairs.size values ds ∧
      ctx.resume earlier start = ⟨values, obstacle.map (·.failure final.source), final⟩ := by
  cases all with
  | stop end_ =>
    obtain ⟨s', -, -, leads⟩ := end_.leads serves holds stands
    refine ⟨[], s', .nil, ?_⟩
    rw [Context.resume_of_leads (way.trans leads)]
    simp [Context.readBehind, serves.eq_apply]
  | fail error =>
    obtain ⟨s', -, -, leads⟩ := error.leads serves holds stands
    exact ⟨[], s', .nil, Context.resume_of_leads_error (way.trans leads)⟩
  | form first others =>
    obtain ⟨s₁, stands₁, serves₁, other, v, denotes, leads⟩ := first.leads serves holds stands
    have shorter := first.length_lt
    obtain ⟨c, bound, remaining⟩ : ∃ c bound, start.source.remaining = c :: bound := by
      apply List.exists_cons_of_length_pos
      omega
    rw [remaining, List.length_cons] at longer
    obtain ⟨values, final, reached, denoted, reads⟩ := readFormsWithin_of_parsesAll others serves₁
      stands₁ (Nat.le_of_lt_succ (Nat.lt_of_lt_of_le shorter longer)) [v]
    refine ⟨v :: values, final, .cons ?_ (denoted.imp fun _ _ later => ?_), ?_⟩
    · exact (denotes.agrees reached.agrees).widen (Nat.le_refl _) reached.agrees.size
    · exact later.widen (Nat.zero_le _) (Nat.le_refl _)
    · rw [Context.resume_of_leads (way.trans leads)]
      simp only [Context.readBehind, Option.getD_some, serves₁.eq_endOfStream denotes other, remaining]
      exact reads

end Turn

structure Moment.Sound (ctx : Context Store Value) (conv : Convention) (table : TableId)
    (moment : Moment Store Value) : Prop where
  serves : Serves ctx conv table moment.state.host
  ending : moment.state.source.ending = .endOfInput
  holds : ∃ frames, moment.stack.Holds ctx table moment.state.host
    moment.state.host.heap.pairs.size frames

theorem Moment.Sound.next {moment : Moment Store Value} (sound : moment.Sound ctx conv table) :
    (ctx.next moment).Sound ctx conv table := by
  obtain ⟨serves, ending, frames, holds⟩ := sound
  obtain ⟨turn, rest, turns⟩ := Turns.exists_turn conv frames moment.state.source.remaining
  obtain ⟨answer, s', agrees, stands, attains, turned⟩ :=
    turns.turn_eq serves holds ⟨rfl, rfl, ending⟩
  unfold Context.next
  rw [turned]
  cases attains with
  | pending holds' => exact ⟨serves.agrees agrees, stands.ending, _, holds'⟩
  | finished => exact ⟨serves.agrees agrees, stands.ending, [], .nil⟩
  | ended => exact ⟨serves.agrees agrees, stands.ending, [], .nil⟩
  | stopped => exact ⟨serves.agrees agrees, stands.ending, [], .nil⟩

theorem Serves.moment_sound {start : ReadState Store} (serves : Serves ctx conv table start.host)
    (ending : start.source.ending = .endOfInput) (turns : Nat) :
    (ctx.moment start turns).Sound ctx conv table := by
  induction turns with
  | zero => exact ⟨serves, ending, [], .nil⟩
  | succ turns ih => exact ih.next

end SexprReader
