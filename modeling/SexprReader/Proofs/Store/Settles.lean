import SexprReader.Proofs.Reader.Descent
import SexprReader.Proofs.Reader.Lexing
import SexprReader.Proofs.Store.Serves

/-! What a text means is what a reader over a store makes of it: along a derivation, each call of the
recursive reader comes to an answer that stands for the outcome. -/

namespace SexprReader

open ReadM Store Context.Recursive

def formReply {σ V : Type} : Item V → ReadM σ (Option V)
  | .form v => pure (some v)
  | _ => pure none

def listReply {σ V : Type} : Item V → ReadM σ V
  | .form v => pure v
  | _ => throw .stalled

inductive Spine.Holds (table : TableId) (store : Store) (lo : Nat) : Spine Value → List Datum → Prop
  | empty : Holds table store lo .empty []
  | growing {head last : Nat} {ds : List Datum} (linked : Linked table store lo .nil last head ds) :
      Holds table store lo (.growing (.pair head) (.pair last)) ds

def Task.Settled (ctx : Context Store Value) (conv : Convention) (table : TableId)
    (text : List Char) (outcome : Outcome) (rest : List Char) : Task → Prop
  | .item => ∀ store text', Serves ctx conv table store →
      behindBlanks false text' = behindBlanks false text →
      Settles ctx table store.heap.pairs.size pure (Context.Recursive.item ctx) store text' outcome
        rest
  | .form => ∀ store, Serves ctx conv table store →
      Settles ctx table store.heap.pairs.size formReply (Context.Recursive.form ctx) store text
        outcome rest
  | .members bracket before => ∀ store lo spine, Serves ctx conv table store →
      lo ≤ store.heap.pairs.size → spine.Holds table store lo before →
      Settles ctx table lo listReply (items ctx · bracket spine) store text outcome rest

section

variable {α β : Type} {ctx : Context Store Value} {conv : Convention} {table : TableId}
  {lo : Nat} {store : Store} {text inner rest rest' : List Char} {outcome outcome' : Outcome}

theorem Context.conclude_error (ctx : Context Store Value) (reply reply' : Item Value → ReadM Store α)
    (obstacle : Obstacle) :
    ctx.conclude reply (.error obstacle) = ctx.conclude reply' (.error obstacle) := by
  cases obstacle <;> rfl

namespace Settles

variable {reply : Item Value → ReadM Store α} {reply' : Item Value → ReadM Store β}

theorem later {m m' : Nat → ReadM Store α}
    (first : ∀ n, (m (n + 1)).Becomes store text (m' n) store inner)
    (settles : Settles ctx table lo reply m' store inner outcome rest) :
    Settles ctx table lo reply m store text outcome rest := by
  obtain ⟨few, answer, store', agrees, same, becomes⟩ := settles
  refine ⟨few + 1, answer, store', agrees, same, fun n enough => ?_⟩
  obtain ⟨n, rfl⟩ : ∃ less, n = less + 1 := ⟨n - 1, by omega⟩
  exact (first n).trans (becomes n (by omega))

theorem after {store' : Store} {m m' : Nat → ReadM Store α}
    (first : ∀ n, (m n).Becomes store text (m' n) store' inner) (agrees : Agrees 0 lo store store')
    (settles : Settles ctx table lo reply m' store' inner outcome rest) :
    Settles ctx table lo reply m store text outcome rest := by
  obtain ⟨few, answer, store'', agrees', same, becomes⟩ := settles
  exact ⟨few, answer, store'', agrees.trans agrees', same,
    fun n enough => (first n).trans (becomes n enough)⟩

theorem bind {lo' : Nat} {m : Nat → ReadM Store α} {f : Nat → α → ReadM Store β}
    (settles : Settles ctx table lo' reply m store text outcome rest) (within : lo ≤ lo')
    (next : ∀ answer store', Agrees 0 lo' store store' →
      Matches table store' lo' store'.heap.pairs.size answer outcome →
      Settles ctx table lo reply' (fun n => ctx.conclude (fun item => reply item >>= f n) answer)
        store' rest outcome' rest') :
    Settles ctx table lo reply' (fun n => m n >>= f n) store text outcome' rest' := by
  obtain ⟨few, answer, store', agrees, same, becomes⟩ := settles
  obtain ⟨few', answer', store'', agrees', same', becomes'⟩ := next answer store' agrees same
  refine ⟨max few few', answer', store'',
    (agrees.narrow (Nat.le_refl _) within).trans agrees', same', fun n enough => ?_⟩
  have first := (becomes n (by omega)).bind (f n)
  rw [ctx.conclude_bind] at first
  exact first.trans (becomes' n (by omega))

theorem widen {lo' : Nat} {m : Nat → ReadM Store α}
    (settles : Settles ctx table lo' reply m store text outcome rest) (within : lo ≤ lo') :
    Settles ctx table lo reply m store text outcome rest := by
  obtain ⟨few, answer, store', agrees, same, becomes⟩ := settles
  exact ⟨few, answer, store', agrees.narrow (Nat.le_refl _) within,
    same.widen within (Nat.le_refl _), becomes⟩

theorem error (ctx : Context Store Value) (table : TableId) (lo : Nat)
    (reply : Item Value → ReadM Store α) (reply' : Nat → Item Value → ReadM Store α)
    (store : Store) (text : List Char) (obstacle : Obstacle) :
    Settles ctx table lo reply (fun n => ctx.conclude (reply' n) (.error obstacle)) store text
      (.error obstacle) text := by
  refine ⟨0, .error obstacle, store, .refl _ _ _, .error _, fun n _ => ?_⟩
  have same := ctx.conclude_error (reply' n) reply obstacle
  exact same ▸ .refl _ _ _

theorem fail (ctx : Context Store Value) (table : TableId) (lo : Nat)
    (reply : Item Value → ReadM Store α) (store : Store) (text : List Char) (fault : ReadFault) :
    Settles ctx table lo reply (fun _ => ctx.fail fault) store text (.error (.fault fault)) text :=
  error ctx table lo reply (fun _ => reply) store text (.fault fault)

end Settles

theorem finishItem_start (n : Nat) (result : Item Value) :
    (pure result.start >>= finishItem ctx n : ReadM Store (Item Value)) = pure result := by
  cases result <;> rfl

namespace Serves

variable (serves : Serves ctx conv table store)

include serves

theorem item_becomes {lexeme : Lexeme} {text' : List Char}
    (scans : conv.dialect.scan text = (lexeme, inner))
    (same : behindBlanks false text' = behindBlanks false text) (n : Nat) :
    (item ctx (n + 1)).Becomes store text' (ctx.perform lexeme >>= finishItem ctx n) store inner := by
  have scan : conv.dialect.scan text' = (lexeme, inner) := by
    rw [Dialect.scan, same, ← scans]
    rfl
  have becomes := (ctx.readDatum_becomes store (throw .stalled) text').bind (finishItem ctx n)
  rw [serves.dialect_eq, scan] at becomes
  rw [item_succ]
  exact becomes

theorem settles_atom {lexeme : Lexeme} {text' : List Char}
    (scans : conv.dialect.scan text = (lexeme, rest)) (means : conv.atom lexeme = some outcome)
    (same : behindBlanks false text' = behindBlanks false text) :
    Settles ctx table store.heap.pairs.size pure (item ctx) store text' outcome rest := by
  refine .later (serves.item_becomes scans same) ?_
  refine (serves.performs means rest).bind (Nat.le_refl _) fun answer store' agrees matched => ?_
  simp only [finishItem_start]
  exact ⟨0, answer, store', .refl _ _ _, matched, fun _ _ => .refl _ _ _⟩

theorem settles_discarded {text' : List Char}
    (scans : conv.dialect.scan text = (.opening .datumComment, inner))
    (same : behindBlanks false text' = behindBlanks false text)
    (form : Settles ctx table store.heap.pairs.size formReply (form ctx) store inner outcome rest)
    (there : outcome ≠ .ok .comment) :
    Settles ctx table store.heap.pairs.size pure (item ctx) store text' outcome.discarded rest := by
  refine .later (serves.item_becomes scans same) ?_
  refine form.bind (Nat.le_refl _) fun answer store' agrees matched => ?_
  cases matched with
  | form denotes =>
    refine ⟨0, .ok .comment, store', .refl _ _ _, .comment, fun _ _ => ?_⟩
    change (do report .discardedDatum; return .comment : ReadM Store (Item Value)).Becomes _ _ _ _ _
    exact (report_becomes store' rest .discardedDatum).pure_bind (.refl _ _ _)
  | comment => exact absurd rfl there
  | endOfInput =>
    exact ⟨0, .ok .endOfInput, store', .refl _ _ _, .endOfInput, fun _ _ => .refl _ _ _⟩
  | error obstacle => exact .error ctx table _ _ _ store' rest obstacle

theorem denotes_quoted (mark : QuoteMark) {lo : Nat} {v : Value} {d : Datum}
    (denotes : Denotes table store lo store.heap.pairs.size v d)
    (above : lo ≤ store.heap.pairs.size) :
    let store' := (store.pushPair v .nil).pushPair (ctx.quoteSymbol mark)
      (.pair store.heap.pairs.size)
    Denotes table store' lo store'.heap.pairs.size (.pair (store.pushPair v .nil).heap.pairs.size)
      (d.quoted mark) := by
  have first := store.agrees_pushPair lo v .nil
  have second := (store.pushPair v .nil).agrees_pushPair lo (ctx.quoteSymbol mark)
    (.pair store.heap.pairs.size)
  rw [size_pushPair] at second
  have both := first.trans (second.narrow (Nat.le_refl _) (by omega))
  have inner := (second.cells store.heap.pairs.size above (by omega)).trans
    (store.pushPair_self v .nil)
  have outer := (store.pushPair v .nil).pushPair_self (ctx.quoteSymbol mark)
    (.pair store.heap.pairs.size)
  have symbol := (serves.quotes mark).agrees both.apart_from_pairs
  intro store'
  have size : store'.heap.pairs.size = store.heap.pairs.size + 2 := by
    rw [size_pushPair, size_pushPair]
  rw [size, size_pushPair] at *
  refine .pair outer (by omega) (by omega) (symbol.symbol_anywhere _ _) ?_
  refine .pair inner above (by omega) ?_ (.sentinel .nil)
  exact (denotes.agrees both).widen (Nat.le_refl _) (by omega)

theorem settles_quoted {mark : QuoteMark} {text' : List Char}
    (scans : conv.dialect.scan text = (.opening (.quoted mark), inner))
    (same : behindBlanks false text' = behindBlanks false text)
    (form : Settles ctx table store.heap.pairs.size formReply (form ctx) store inner outcome rest) :
    Settles ctx table store.heap.pairs.size pure (item ctx) store text' (outcome.quoted mark)
      rest := by
  refine .later (serves.item_becomes scans same) ?_
  refine form.bind (Nat.le_refl _) fun answer store' agrees matched => ?_
  cases matched with
  | @form v d denotes =>
    have serves' := serves.agrees agrees
    have serves'' := serves'.agrees (store'.agrees_pushPair 0 v .nil)
    have first := serves'.makePair v .nil
    have second := serves''.makePair (ctx.quoteSymbol mark) (.pair store'.heap.pairs.size)
    refine ⟨0, .ok (.form _), _, ?_, .form (serves'.denotes_quoted mark denotes agrees.size),
      fun _ _ => ?_⟩
    · exact ((store'.agrees_pushPair 0 v .nil).narrow (Nat.le_refl _) agrees.size).trans
        ((agrees_pushPair _ 0 _ _).narrow (Nat.le_refl _) (by simp; exact agrees.size.step))
    · change (do
        let rest ← hosted (ctx.host.makePair v ctx.host.nil)
        return .form (← hosted (ctx.host.makePair (ctx.quoteSymbol mark) rest)) :
          ReadM Store (Item Value)).Becomes _ _ _ _ _
      rw [serves.nil_eq]
      exact (hosted_becomes first rest).pure_bind ((hosted_becomes second rest).pure_bind
        (.refl _ _ _))
  | comment => exact .fail ctx table _ _ store' rest (.endOfInput (.quoted mark))
  | endOfInput => exact .fail ctx table _ _ store' rest (.endOfInput (.quoted mark))
  | error obstacle => exact .error ctx table _ _ _ store' rest obstacle

theorem settles_list {bracket : Bracket} {text' : List Char}
    (scans : conv.dialect.scan text = (.opening (.list bracket), inner))
    (same : behindBlanks false text' = behindBlanks false text)
    (members : Settles ctx table store.heap.pairs.size listReply (items ctx · bracket .empty) store
      inner outcome rest)
    (proper : ∀ item, outcome = .ok item → ∃ d, item = .form d) :
    Settles ctx table store.heap.pairs.size pure (item ctx) store text' outcome rest := by
  refine .later (serves.item_becomes scans same) ?_
  refine members.bind (f := fun _ v => (pure (.form v) : ReadM Store (Item Value))) (Nat.le_refl _)
    fun answer store' agrees matched => ?_
  cases matched with
  | @form v d denotes =>
    exact ⟨0, .ok (.form v), store', .refl _ _ _, .form denotes, fun _ _ => .refl _ _ _⟩
  | comment =>
    obtain ⟨d, same⟩ := proper _ rfl
    cases same
  | endOfInput =>
    obtain ⟨d, same⟩ := proper _ rfl
    cases same
  | error obstacle => exact .error ctx table _ _ _ store' rest obstacle

end Serves

def finishForm (ctx : Context Store Value) (n : Nat) : Item Value → ReadM Store (Option Value)
  | .form v => pure (some v)
  | .endOfInput => pure none
  | .comment => form ctx n

theorem form_becomes (ctx : Context Store Value) (store : Store) (text : List Char) (n : Nat) :
    (form ctx (n + 1)).Becomes store text (item ctx n >>= finishForm ctx n) store text := by
  have same : form ctx (n + 1) = item ctx n >>= finishForm ctx n := by
    rw [form]
    congr 1
    funext result
    cases result <;> rfl
  rw [same]
  exact .refl _ _ _

theorem settles_stop (there : outcome ≠ .ok .comment)
    (item : Settles ctx table store.heap.pairs.size pure (item ctx) store text outcome rest) :
    Settles ctx table store.heap.pairs.size formReply (form ctx) store text outcome rest := by
  refine .later (form_becomes ctx store text) ?_
  refine item.bind (Nat.le_refl _) fun answer store' agrees matched => ?_
  cases matched with
  | @form v d denotes =>
    exact ⟨0, .ok (.form v), store', .refl _ _ _, .form denotes, fun _ _ => .refl _ _ _⟩
  | comment => exact absurd rfl there
  | endOfInput =>
    exact ⟨0, .ok .endOfInput, store', .refl _ _ _, .endOfInput, fun _ _ => .refl _ _ _⟩
  | error obstacle => exact .error ctx table _ _ _ store' rest obstacle

theorem settles_skip (serves : Serves ctx conv table store)
    (comment : Settles ctx table store.heap.pairs.size pure (item ctx) store text (.ok .comment)
      inner)
    (form : ∀ store, Serves ctx conv table store →
      Settles ctx table store.heap.pairs.size formReply (form ctx) store inner outcome rest) :
    Settles ctx table store.heap.pairs.size formReply (Context.Recursive.form ctx) store text outcome
      rest := by
  refine .later (form_becomes ctx store text) ?_
  refine comment.bind (Nat.le_refl _) fun answer store' agrees matched => ?_
  cases matched with
  | comment => exact (form store' (serves.agrees agrees)).widen agrees.size

theorem Spine.Holds.agrees {store' : Store} {spine : Spine Value} {before : List Datum}
    (holds : spine.Holds table store lo before)
    (agrees : Agrees 0 store.heap.pairs.size store store') :
    spine.Holds table store' lo before := by
  cases holds with
  | empty => exact .empty
  | growing linked =>
    exact .growing (linked.agrees (agrees.narrow (Nat.zero_le _) linked.last_lt))

def Spine.Below (hi : Nat) : Spine Value → Prop
  | .growing _ (.pair last) => last < hi
  | _ => True

theorem Spine.Holds.below {spine : Spine Value} {before : List Datum}
    (holds : spine.Holds table store lo before) : spine.Below store.heap.pairs.size := by
  cases holds with
  | empty => trivial
  | growing linked => exact linked.last_lt

theorem Spine.Holds.finishMember_eq {spine : Spine Value} {before : List Datum}
    (holds : spine.Holds table store lo before) (ctx : Context Store Value) (n : Nat)
    (bracket : Bracket) :
    finishMember ctx n bracket spine = items ctx n bracket spine := by
  cases holds with
  | empty => rfl
  | growing => rfl

namespace Serves

variable {bracket : Bracket} {spine : Spine Value} {before : List Datum}

theorem listToVector_becomes (serves : Serves ctx conv table store) {list : Value}
    {values : List Value} {hi : Nat} (members : store.heap.vectorMembers list = .ok values)
    (all : DenotesAll table store lo hi values before) (below : hi ≤ store.heap.pairs.size)
    (text : List Char) :
    ∃ v store', Agrees 0 lo store store' ∧
      Denotes table store' lo store'.heap.pairs.size v (.vector before) ∧
      (hosted (ctx.host.listToVector list)).Becomes store text (pure v) store' text := by
  have pushed := store.agrees_pushVector lo hi values
  refine ⟨_, store.pushVector values, store.agrees_pushVector _ _ values, ?_,
    hosted_becomes (serves.listToVector members) text⟩
  refine .vector_of_all (by simp [pushVector, Heap.makeVector]) (all.imp fun v d denotes => ?_)
  exact (denotes.agrees pushed).widen (Nat.le_refl _) below

theorem close_becomes (serves : Serves ctx conv table store) (bracket : Bracket)
    (holds : spine.Holds table store lo before) (text : List Char) :
    ∃ v store', Agrees 0 lo store store' ∧
      Denotes table store' lo store'.heap.pairs.size v (bracket.enclose before .nil) ∧
      (ctx.close bracket spine).Becomes store text (pure v) store' text := by
  cases holds with
  | empty =>
    have nothing : store.heap.vectorMembers .nil = .ok [] := rfl
    have empty := (Denotes.sentinel .nil : Denotes table store lo store.heap.pairs.size _ _)
    simp only [Context.close, serves.nil_eq]
    cases bracket with
    | vector => exact serves.listToVector_becomes nothing .nil (Nat.zero_le _) text
    | round => exact ⟨_, store, .refl _ _ _, empty, .refl _ _ _⟩
    | square => exact ⟨_, store, .refl _ _ _, empty, .refl _ _ _⟩
  | growing linked =>
    obtain ⟨values, members, all⟩ := linked.vectorMembers
    have list := linked.denotes (.sentinel .nil) linked.last_lt
    cases bracket with
    | vector => exact serves.listToVector_becomes members all (Nat.le_of_lt linked.last_lt) text
    | round => exact ⟨_, store, .refl _ _ _, list, .refl _ _ _⟩
    | square => exact ⟨_, store, .refl _ _ _, list, .refl _ _ _⟩

theorem append_becomes (serves : Serves ctx conv table store) (bracket : Bracket) {mid : Nat}
    (holds : spine.Holds table store lo before) (order : spine.Below mid) (above : lo ≤ mid)
    (within : mid ≤ store.heap.pairs.size) {v : Value} {d : Datum}
    (denotes : Denotes table store mid store.heap.pairs.size v d) (plain : d.isDot = false)
    (text : List Char) :
    ∃ spine' store', Agrees 0 lo store store' ∧ spine'.Holds table store' lo (before ++ [d]) ∧
      (ctx.append bracket spine v).Becomes store text (pure spine') store' text := by
  have other : ctx.host.eq v ctx.dot = false := (serves.eq_dot denotes).trans plain
  have first := serves.makePair v .nil
  have pushed := store.agrees_pushPair lo v .nil
  cases holds with
  | empty =>
    let made : Value := .pair store.heap.pairs.size
    refine ⟨.growing made made, _,
      (store.agrees_pushPair 0 v .nil).narrow (Nat.le_refl _) (by omega), ?_, ?_⟩
    · exact .growing (.single (store.pushPair_self v .nil) (by omega)
        ((denotes.widen above (Nat.le_refl _)).agrees pushed))
    · simp only [Context.append, other, serves.nil_eq]
      exact (hosted_becomes first text).pure_bind (.refl _ _ _)
  | @growing head last _ linked =>
    have inside := linked.last_lt
    have above' := linked.above
    let next := store.heap.pairs.size
    let extended := store.pushPair v .nil
    have second := (serves.agrees pushed).setRest last (.pair next)
    have apart {lo hi : Nat} (outside : last < lo ∨ hi ≤ last) :=
      extended.agrees_changeRest (.pair next) outside
    have kept := linked.agrees (pushed.narrow (Nat.le_refl _) (by omega))
    have behind : Agrees next (next + 1) extended (extended.changeRest last (.pair next)) :=
      apart (.inl (by omega))
    have cell : (extended.changeRest last (.pair next)).heap.pairs[next]? = some ⟨v, .nil⟩ :=
      (behind.cells next (Nat.le_refl _) (by omega)).trans (store.pushPair_self v .nil)
    have member : Denotes table (extended.changeRest last (.pair next)) lo next v d :=
      ((denotes.agrees (store.agrees_pushPair _ v .nil)).agrees (apart (.inl order))).widen above
        (Nat.le_refl _)
    refine ⟨.growing (.pair head) (.pair next), extended.changeRest last (.pair next), ?_, ?_, ?_⟩
    · exact ((store.agrees_pushPair 0 v .nil).narrow (Nat.le_refl _) (by omega)).trans
        (apart (.inr above'))
    · exact .growing ((kept.changeRest (.pair next)).snoc (by omega) cell member)
    · simp only [Context.append, other, serves.nil_eq]
      exact (hosted_becomes first text).pure_bind ((hosted_becomes second text).pure_bind
        (.refl _ _ _))

end Serves

section Members

variable {bracket : Bracket} {spine : Spine Value} {before members : List Datum}

theorem items_becomes (ctx : Context Store Value) (store : Store) (text : List Char)
    (bracket : Bracket) (spine : Spine Value) (n : Nat) :
    (items ctx (n + 1) bracket spine).Becomes store text
      (enterItems ctx n bracket spine (behindBlanks false text).head?) store
      (behindBlanks false text) := by
  rw [items_succ]
  exact (Context.skipBlanks_becomes store text).pure_bind (.refl _ _ _)

theorem items_open (unclosed : bracket.Unclosed text) (n : Nat) :
    (items ctx (n + 1) bracket spine).Becomes store text
      (item ctx n >>= finishItems ctx n bracket spine) store (behindBlanks false text) := by
  obtain ⟨c, behind, blanks, other⟩ := unclosed
  have becomes := items_becomes ctx store text bracket spine n
  rw [blanks] at becomes ⊢
  simpa [enterItems, other] using becomes

theorem settles_unclosed (blank : behindBlanks false text = []) :
    Settles ctx table lo listReply (items ctx · bracket spine) store text
      (.error (.fault (.endOfInput bracket.openForm))) [] := by
  refine .later (items_becomes ctx store text bracket spine) ?_
  rw [blank]
  exact .fail ctx table lo listReply store [] _

theorem settles_close (serves : Serves ctx conv table store)
    (holds : spine.Holds table store lo before)
    (closer : behindBlanks false text = bracket.closer :: rest) :
    Settles ctx table lo listReply (items ctx · bracket spine) store text
      (.ok (.form (bracket.enclose before .nil))) rest := by
  refine .later (items_becomes ctx store text bracket spine) ?_
  obtain ⟨v, store', agrees, denotes, becomes⟩ :=
    serves.close_becomes bracket holds rest
  refine ⟨0, .ok (.form v), store', agrees, .form denotes, fun _ _ => ?_⟩
  rw [closer]
  simp only [List.head?_cons, enterItems, beq_self_eq_true, if_true]
  exact (nextChar_becomes store rest bracket.closer).pure_bind becomes

theorem append_of_stops {v : Value} {d : Datum} {reason : Outcome}
    (holds : spine.Holds table store lo before) (dot : ctx.host.eq v ctx.dot = d.isDot)
    (effect : bracket.effect before (.ok (.form d)) = .stops reason) :
    ∃ fault, reason = .error (.fault fault) ∧ ctx.append bracket spine v = ctx.fail fault := by
  obtain ⟨_, form, -⟩ | ⟨form, -⟩ | ⟨_, fault, form, is_dot, rfl, misplaced⟩ :=
    Bracket.stops_cases effect
  · cases form
  · cases form
  · cases form
    rw [is_dot] at dot
    refine ⟨fault, rfl, ?_⟩
    obtain ⟨rfl, none⟩ | ⟨rfl, some, vector⟩ := misplaced
    · cases holds with
      | empty => simp [Context.append, dot]
      | growing linked => exact absurd none linked.ne_nil
    · cases holds with
      | empty => exact absurd rfl some
      | growing => simp [Context.append, dot, vector]

theorem append_of_expectsTail {v : Value} {d : Datum}
    (holds : spine.Holds table store lo before) (dot : ctx.host.eq v ctx.dot = d.isDot)
    (effect : bracket.effect before (.ok (.form d)) = .expectsTail) :
    ∃ head last, spine = .growing (.pair head) (.pair last) ∧ bracket ≠ .vector ∧
      Linked table store lo .nil last head before ∧
      ctx.append bracket spine v = pure (.dotted (.pair head) (.pair last)) := by
  obtain ⟨_, form, is_dot, some, list⟩ := Bracket.expectsTail_cases effect
  cases form
  rw [is_dot] at dot
  cases holds with
  | empty => exact absurd rfl some
  | @growing head last _ linked =>
    exact ⟨head, last, rfl, list, linked, by simp [Context.append, dot, list]⟩

theorem Context.close_sealed (ctx : Context Store Value) (list : bracket ≠ .vector)
    (head last : Value) : ctx.close bracket (.sealed head last) = pure head := by
  cases bracket with
  | vector => exact absurd rfl list
  | round => rfl
  | square => rfl

theorem readCloser_cases {reason : Outcome} {tail : Datum} (ctx : Context Store Value)
    (store : Store) (ends : bracket.afterTail before tail text = (reason, rest)) :
    (reason = .ok (.form (bracket.enclose before tail)) ∧
        (readCloser ctx bracket).Becomes store text (pure ()) store rest) ∨
      ∃ fault, reason = .error (.fault fault) ∧
        (readCloser ctx bracket).Becomes store text (ctx.fail fault) store rest := by
  have skips := Context.skipBlanks_becomes store text
  obtain ⟨blank, rfl, rfl⟩ | ⟨behind, rfl⟩ | ⟨c, behind, other, rfl⟩ := Bracket.afterTail_cases ends
  · rw [blank] at skips
    exact .inr ⟨_, rfl, skips.pure_bind (.refl _ _ _)⟩
  · rw [behind] at skips
    refine .inl ⟨rfl, skips.pure_bind ((nextChar_becomes store rest bracket.closer).pure_bind ?_)⟩
    rw [if_pos (beq_self_eq_true _)]
    exact .refl _ _ _
  · rw [behind] at skips
    refine .inr ⟨_, rfl, skips.pure_bind ((nextChar_becomes store rest c).pure_bind ?_)⟩
    rw [if_neg (by simpa using other)]
    exact .refl _ _ _

variable {reason : Outcome}

theorem settles_afterTail (serves : Serves ctx conv table store) {head last mid : Nat} {v : Value}
    {tail : Datum} (linked : Linked table store lo .nil last head before) (list : bracket ≠ .vector)
    (apart : last < mid) (within : lo ≤ mid)
    (denotes : Denotes table store mid store.heap.pairs.size v tail)
    (ends : bracket.afterTail before tail inner = (reason, rest)) :
    Settles ctx table lo listReply
      (fun _ => do
        let spine ← ctx.append bracket (.dotted (.pair head) (.pair last)) v
        readCloser ctx bracket
        ctx.close bracket spine) store inner reason rest := by
  let changed := store.changeRest last v
  have inside := linked.last_lt
  have value : Denotes table changed lo changed.heap.pairs.size (.pair head)
      (bracket.enclose before tail) := by
    have tails := denotes.agrees (store.agrees_changeRest v (.inl apart))
    rw [size_changeRest, Bracket.enclose_of_ne_vector list]
    exact (linked.changeRest v).denotes (tails.widen within (Nat.le_refl _)) inside
  have set : (ctx.append bracket (.dotted (.pair head) (.pair last)) v).Becomes store inner
      (pure (.sealed (.pair head) (.pair last))) changed inner :=
    (hosted_becomes (serves.setRest last v) inner).pure_bind (.refl _ _ _)
  refine .after (fun _ => set.pure_bind (.refl _ _ _))
    (store.agrees_changeRest v (.inr linked.above)) ?_
  obtain ⟨rfl, closes⟩ | ⟨fault, rfl, fails⟩ := readCloser_cases ctx changed ends
  · refine ⟨0, .ok (.form (.pair head)), changed, .refl _ _ _, .form value, fun _ _ => ?_⟩
    exact closes.pure_bind (ctx.close_sealed list (.pair head) (.pair last) ▸ .refl _ _ _)
  · have failed := fails.bind fun _ => ctx.close bracket (.sealed (.pair head) (.pair last))
    rw [ctx.fail_bind] at failed
    exact .after (fun _ => failed) (.refl _ _ _) (.fail ctx table lo listReply changed rest fault)

variable (serves : Serves ctx conv table store)
  (above : lo ≤ store.heap.pairs.size) (holds : spine.Holds table store lo before)
  (unclosed : bracket.Unclosed text)
  (item : Settles ctx table store.heap.pairs.size pure (item ctx) store
    (behindBlanks false text) outcome inner)

include serves above holds unclosed item

theorem settles_cut (effect : bracket.effect before outcome = .stops reason) :
    Settles ctx table lo listReply (items ctx · bracket spine) store text reason inner := by
  refine .later (items_open unclosed) ?_
  refine item.bind above fun answer store' agrees matched => ?_
  cases matched with
  | @form v d denotes =>
    have dot := (serves.agrees agrees).eq_dot denotes
    obtain ⟨fault, rfl, fails⟩ := append_of_stops (holds.agrees agrees) dot effect
    have same (n : Nat) : ctx.conclude (fun item => pure item >>= finishItems ctx n bracket spine)
        (.ok (.form v)) = ctx.fail fault := by
      change ctx.append bracket spine v >>= finishMember ctx n bracket = _
      rw [fails, ctx.fail_bind]
    simp only [same]
    exact .fail ctx table lo listReply store' inner fault
  | comment => cases effect
  | endOfInput =>
    cases effect
    exact .fail ctx table lo listReply store' inner _
  | error obstacle =>
    cases effect
    exact .error ctx table lo _ _ store' inner obstacle

theorem settles_more (effect : bracket.effect before outcome = .continues members)
    (others : ∀ store lo spine, Serves ctx conv table store → lo ≤ store.heap.pairs.size →
      spine.Holds table store lo members →
      Settles ctx table lo listReply (items ctx · bracket spine) store inner reason rest) :
    Settles ctx table lo listReply (items ctx · bracket spine) store text reason rest := by
  refine .later (items_open unclosed) ?_
  refine item.bind above fun answer store' agrees matched => ?_
  have serves' := serves.agrees agrees
  have room := agrees.size
  cases matched with
  | @form v d denotes =>
    obtain ⟨plain, rfl⟩ := Bracket.plain_of_continues effect
    obtain ⟨spine', store'', agrees', holds', becomes⟩ :=
      serves'.append_becomes bracket (holds.agrees agrees) holds.below above room denotes plain inner
    have appended (n : Nat) : (ctx.append bracket spine v >>= finishMember ctx n bracket).Becomes
        store' inner (items ctx n bracket spine') store'' inner := by
      rw [← holds'.finishMember_eq]
      exact becomes.pure_bind (.refl _ _ _)
    have room' := agrees'.size
    exact .after appended agrees' (others store'' lo spine' (serves'.agrees agrees') (by omega) holds')
  | comment =>
    cases effect
    exact others store' lo spine serves' (by omega) (holds.agrees agrees)
  | endOfInput => cases effect
  | error obstacle => cases effect

theorem settles_dot (effect : bracket.effect before outcome = .expectsTail)
    (tails : ∀ store head last, Serves ctx conv table store →
      Linked table store lo .nil last head before → bracket ≠ .vector →
      Settles ctx table lo listReply (finishDotted ctx · bracket (.pair head) (.pair last)) store
        inner reason rest) :
    Settles ctx table lo listReply (items ctx · bracket spine) store text reason rest := by
  refine .later (items_open unclosed) ?_
  refine item.bind above fun answer store' agrees matched => ?_
  have serves' := serves.agrees agrees
  cases matched with
  | @form v d denotes =>
    obtain ⟨head, last, rfl, list, linked, dotted⟩ :=
      append_of_expectsTail (holds.agrees agrees) (serves'.eq_dot denotes) effect
    have announced (n : Nat) : (ctx.append bracket (.growing (.pair head) (.pair last)) v >>=
        finishMember ctx n bracket).Becomes store' inner
        (finishDotted ctx n bracket (.pair head) (.pair last)) store' inner := by
      rw [dotted]
      exact .refl _ _ _
    exact .after announced (.refl _ _ _) (tails store' head last serves' linked list)
  | comment => cases effect
  | endOfInput => cases effect
  | error obstacle => cases effect

theorem settles_tail {behind : List Char} {tail : Datum}
    (effect : bracket.effect before outcome = .expectsTail)
    (form : ∀ store, Serves ctx conv table store →
      Settles ctx table store.heap.pairs.size formReply (form ctx) store inner (.ok (.form tail))
        behind)
    (ends : bracket.afterTail before tail behind = (reason, rest)) :
    Settles ctx table lo listReply (items ctx · bracket spine) store text reason rest := by
  refine settles_dot serves above holds unclosed item effect
    fun store' head last serves' linked list => ?_
  have room : lo ≤ store'.heap.pairs.size := Nat.le_trans linked.above (Nat.le_of_lt linked.last_lt)
  refine (form store' serves').bind room fun answer store'' agrees matched => ?_
  cases matched with
  | @form v tail denotes =>
    have linked' := linked.agrees (agrees.narrow (Nat.zero_le _) linked.last_lt)
    exact settles_afterTail (serves'.agrees agrees) linked' list linked.last_lt room denotes ends

theorem settles_tailCut {cut : Outcome} (effect : bracket.effect before outcome = .expectsTail)
    (form : ∀ store, Serves ctx conv table store →
      Settles ctx table store.heap.pairs.size formReply (form ctx) store inner cut rest)
    (without : ∀ d, cut ≠ .ok (.form d)) (stops : bracket.effect before cut = .stops reason) :
    Settles ctx table lo listReply (items ctx · bracket spine) store text reason rest := by
  refine settles_dot serves above holds unclosed item effect
    fun store' head last serves' linked _ => ?_
  have room : lo ≤ store'.heap.pairs.size := Nat.le_trans linked.above (Nat.le_of_lt linked.last_lt)
  refine (form store' serves').bind room fun answer store'' agrees matched => ?_
  cases matched with
  | form denotes => exact absurd rfl (without _)
  | comment => cases stops
  | endOfInput =>
    cases stops
    exact .fail ctx table lo listReply store'' rest _
  | error obstacle =>
    cases stops
    exact .error ctx table lo _ _ store'' rest obstacle

end Members

theorem Parses.settled {task : Task} (parses : Parses conv task text outcome rest) :
    task.Settled ctx conv table text outcome rest := by
  -- The items of a list are read again from behind the blanks in front of them.
  have behind (text : List Char) := behindBlanks_idem text
  induction parses with
  | atom scans means =>
    intro store text' serves same
    exact serves.settles_atom scans means same
  | quoted scans _ form =>
    intro store text' serves same
    exact serves.settles_quoted scans same (form store serves)
  | discarded scans parses form =>
    intro store text' serves same
    exact serves.settles_discarded scans same (form store serves) parses.ne_comment
  | list scans parses members =>
    intro store text' serves same
    exact serves.settles_list scans same (members store _ .empty serves (Nat.le_refl _) .empty)
      fun _ ok => parses.members_outcome ok
  | skip _ _ comment form =>
    intro store serves
    exact settles_skip serves (comment store _ serves rfl) form
  | stop _ there item =>
    intro store serves
    exact settles_stop there (item store _ serves rfl)
  | unclosed blank =>
    intro store lo spine serves above holds
    exact settles_unclosed blank
  | close closer =>
    intro store lo spine serves above holds
    exact settles_close serves holds closer
  | cut unclosed _ effect item =>
    intro store lo spine serves above holds
    exact settles_cut serves above holds unclosed (item store _ serves (behind _)) effect
  | more unclosed _ effect _ item others =>
    intro store lo spine serves above holds
    exact settles_more serves above holds unclosed (item store _ serves (behind _)) effect others
  | tail unclosed _ effect _ ends dot form =>
    intro store lo spine serves above holds
    exact settles_tail serves above holds unclosed (dot store _ serves (behind _)) effect form ends
  | tailCut unclosed _ effect _ without stops dot form =>
    intro store lo spine serves above holds
    exact settles_tailCut serves above holds unclosed (dot store _ serves (behind _)) effect form
      without stops

end

end SexprReader
