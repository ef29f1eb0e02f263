import SexprReader.Proofs.Host.Ensures
import SexprReader.Proofs.Reader.Moments
import SexprReader.Proofs.Store.Serves
import SexprReader.Proofs.Store.Spans

/-! A reader over a store grows trees. The pairs of each open form are above those of the forms around
it, and whatever was read before stays as it is. -/

namespace SexprReader

open ReadM Store

variable {σ V α β : Type}

/-- A reader whose values are made in a store. It quotes by atoms. -/
structure Context.Stores (ctx : Context Store Value) (options : StoreOptions) : Prop where
  host : ctx.host = { Store.host options with nilSymbol? := ctx.host.nilSymbol? }
  quotes : ∀ mark, (ctx.quoteSymbol mark).IsAtom

inductive Spine.OfPairs : Spine Value → Prop
  | empty : OfPairs .empty
  | growing (head last : Nat) : OfPairs (.growing (.pair head) (.pair last))
  | dotted (head last : Nat) : OfPairs (.dotted (.pair head) (.pair last))
  | sealed (head last : Nat) : OfPairs (.sealed (.pair head) (.pair last))

inductive Context.Appends (ctx : Context Store Value) (bracket : Bracket) (form : Value)
    (store : Store) : Spine Value → Spine Value → Store → Prop
  | first (plain : ctx.host.eq form ctx.dot = false) :
      Appends ctx bracket form store .empty
        (.growing (.pair store.heap.pairs.size) (.pair store.heap.pairs.size))
        (store.pushPair form .nil)
  | next {head last : Nat} (plain : ctx.host.eq form ctx.dot = false) :
      Appends ctx bracket form store (.growing (.pair head) (.pair last))
        (.growing (.pair head) (.pair store.heap.pairs.size))
        ((store.pushPair form .nil).changeRest last (.pair store.heap.pairs.size))
  | dot {head last : Nat} (dot : ctx.host.eq form ctx.dot = true) (list : bracket ≠ .vector) :
      Appends ctx bracket form store (.growing (.pair head) (.pair last))
        (.dotted (.pair head) (.pair last)) store
  | tail (head last : Nat) :
      Appends ctx bracket form store (.dotted (.pair head) (.pair last))
        (.sealed (.pair head) (.pair last)) (store.changeRest last form)
  | sealed (head last : Nat) :
      Appends ctx bracket form store (.sealed (.pair head) (.pair last))
        (.sealed (.pair head) (.pair last)) store

inductive Frame.Planted (h : Heap) (lo hi : Nat) : Frame Value → Prop
  | empty (bracket : Bracket) : Planted h lo hi (.list bracket .empty)
  | growing {bracket : Bracket} {head last : Nat} (strung : h.Strung .nil last lo head)
      (below : last < hi) : Planted h lo hi (.list bracket (.growing (.pair head) (.pair last)))
  | dotted {bracket : Bracket} {head last : Nat} (list : bracket ≠ .vector)
      (strung : h.Strung .nil last lo head) (below : last < hi) :
      Planted h lo hi (.list bracket (.dotted (.pair head) (.pair last)))
  | sealed {bracket : Bracket} {head last : Nat} {rest : Value} (list : bracket ≠ .vector)
      (strung : h.Strung rest last lo head) (tail : h.Spans (last + 1) hi rest) (below : last < hi) :
      Planted h lo hi (.list bracket (.sealed (.pair head) (.pair last)))
  | quoted {mark : QuoteMark} {symbol : Value} (atom : symbol.IsAtom) :
      Planted h lo hi (.quoted mark symbol)
  | datumComment : Planted h lo hi .datumComment

/-- The pairs of the open forms are from `base` up to `hi`, those of each above all of its outer forms. -/
inductive Stack.Planted (h : Heap) (base : Nat) : (hi : Nat) → Stack Value → Prop
  | nil {hi : Nat} (order : base ≤ hi) : Planted h base hi []
  | cons {lo hi : Nat} {frame : Frame Value} {stack : Stack Value} (order : lo ≤ hi)
      (top : frame.Planted h lo hi) (outer : Planted h base lo stack) :
      Planted h base hi (frame :: stack)

theorem Frame.Planted.agrees {store store' : Store} {lo hi : Nat} {frame : Frame Value}
    (planted : frame.Planted store.heap lo hi) (agrees : Agrees lo hi store store') :
    frame.Planted store'.heap lo hi := by
  cases planted with
  | empty bracket => exact .empty bracket
  | growing strung below =>
    exact .growing (strung.agrees (agrees.narrow (Nat.le_refl _) below)) below
  | dotted list strung below =>
    exact .dotted list (strung.agrees (agrees.narrow (Nat.le_refl _) below)) below
  | sealed list strung tail below =>
    have inside := strung.le_last
    exact .sealed list (strung.agrees (agrees.narrow (Nat.le_refl _) below))
      (tail.agrees (agrees.narrow (by omega) (Nat.le_refl _))) below
  | quoted atom => exact .quoted atom
  | datumComment => exact .datumComment

theorem Frame.Planted.widen {h : Heap} {lo hi hi' : Nat} {frame : Frame Value}
    (planted : frame.Planted h lo hi) (le : hi ≤ hi') : frame.Planted h lo hi' := by
  cases planted with
  | empty bracket => exact .empty bracket
  | growing strung below => exact .growing strung (Nat.lt_of_lt_of_le below le)
  | dotted list strung below => exact .dotted list strung (Nat.lt_of_lt_of_le below le)
  | sealed list strung tail below =>
    exact .sealed list strung (tail.widen (Nat.le_refl _) le) (Nat.lt_of_lt_of_le below le)
  | quoted atom => exact .quoted atom
  | datumComment => exact .datumComment

namespace Stack.Planted

variable {store store' : Store} {h : Heap} {base hi hi' : Nat} {stack : Stack Value}

theorem le (planted : stack.Planted h base hi) : base ≤ hi := by
  induction planted with
  | nil order => exact order
  | cons order _ _ ih => exact Nat.le_trans ih order

theorem agrees (planted : stack.Planted store.heap base hi) (agrees : Agrees base hi store store') :
    stack.Planted store'.heap base hi := by
  induction planted with
  | nil order => exact .nil order
  | cons order top outer ih =>
    exact .cons order (top.agrees (agrees.narrow outer.le (Nat.le_refl _)))
      (ih (agrees.narrow (Nat.le_refl _) order))

theorem widen (planted : stack.Planted h base hi) (le : hi ≤ hi') : stack.Planted h base hi' := by
  cases planted with
  | nil order => exact .nil (Nat.le_trans order le)
  | cons order top outer => exact .cons (Nat.le_trans order le) (top.widen le) outer

end Stack.Planted

structure Grown (start : Store) (base : Nat) (stack : Stack Value) (store : Store) : Prop where
  kept : Agrees 0 base start store
  planted : stack.Planted store.heap base store.heap.pairs.size

structure GrownWith (start : Store) (base : Nat) (stack : Stack Value) (v : Value) (store : Store) :
    Prop where
  kept : Agrees 0 base start store
  spans : ∃ mid, mid ≤ store.heap.pairs.size ∧ stack.Planted store.heap base mid ∧
    store.heap.Spans mid store.heap.pairs.size v

def FormStart.Grown (start : Store) (base : Nat) (stack : Stack Value) :
    FormStart Value → Store → Prop
  | .whole v, store => GrownWith start base stack v store
  | .opening frame, store =>
    SexprReader.Grown start base stack store ∧ ∀ lo hi, frame.Planted store.heap lo hi
  | .comment, store | .endOfInput, store => SexprReader.Grown start base stack store

def Progress.Grown (start : Store) (base : Nat) : Progress Value → Store → Prop
  | .pending stack, store => SexprReader.Grown start base stack store
  | .finished (some v), store => GrownWith start base [] v store
  | .finished none, store => SexprReader.Grown start base [] store

section

variable {start store store' : Store} {base : Nat} {stack outer : Stack Value} {v : Value}

theorem Grown.with_atom (grown : Grown start base stack store) (atom : v.IsAtom) :
    GrownWith start base stack v store :=
  ⟨grown.kept, store.heap.pairs.size, Nat.le_refl _, grown.planted, .atom atom⟩

theorem GrownWith.grown (grown : GrownWith start base stack v store) : Grown start base stack store := by
  obtain ⟨kept, mid, le, planted, -⟩ := grown
  exact ⟨kept, planted.widen le⟩

theorem Grown.ofPairs {bracket : Bracket} {spine : Spine Value}
    (grown : Grown start base (.list bracket spine :: stack) store) : spine.OfPairs := by
  obtain ⟨-, planted⟩ := grown
  cases planted with
  | cons _ top _ => cases top <;> constructor

theorem Grown.agrees (grown : Grown start base stack store)
    (agrees : ∀ lo hi, Agrees lo hi store store')
    (size : store'.heap.pairs.size = store.heap.pairs.size) : Grown start base stack store' := by
  refine ⟨grown.kept.trans (agrees _ _), ?_⟩
  rw [size]
  exact grown.planted.agrees (agrees _ _)

end

namespace GrownWith

variable {start store : Store} {base head last : Nat} {stack : Stack Value} {v w : Value}
  {bracket : Bracket}

theorem first (grown : GrownWith start base (.list bracket .empty :: stack) v store) :
    let pair : Value := .pair store.heap.pairs.size
    Grown start base (.list bracket (.growing pair pair) :: stack) (store.pushPair v .nil) := by
  obtain ⟨kept, mid, within, planted, spans⟩ := grown
  cases planted with
  | @cons lo _ _ _ order _ outer =>
    have above := outer.le
    have pushed (lo : Nat) := store.agrees_pushPair lo v .nil
    refine ⟨kept.trans ((pushed 0).narrow (Nat.le_refl _) (by omega)), ?_⟩
    have kept' := outer.agrees ((pushed base).narrow (Nat.le_refl _) (by omega))
    rw [size_pushPair]
    apply Stack.Planted.cons (by omega) ?_ kept'
    apply Frame.Planted.growing (.single (store.pushPair_self v .nil) (by omega) ?_) (Nat.lt_succ_self _)
    exact (spans.agrees (pushed mid)).widen order (Nat.le_refl _)

theorem next (grown : GrownWith start base
      (.list bracket (.growing (.pair head) (.pair last)) :: stack) v store) :
    let pair : Value := .pair store.heap.pairs.size
    Grown start base (.list bracket (.growing (.pair head) pair) :: stack)
      ((store.pushPair v .nil).changeRest last pair) := by
  obtain ⟨kept, mid, within, planted, spans⟩ := grown
  cases planted with
  | @cons lo _ _ _ order top outer =>
    cases top with
    | growing strung below =>
      intro pair
      have above := outer.le
      have inside := strung.le_last
      let pushed := store.pushPair v .nil
      have pushes (lo : Nat) : Agrees lo store.heap.pairs.size store pushed :=
        store.agrees_pushPair lo v .nil
      -- The changed pair is above all outer forms, and below what was read behind it.
      have changes {lo hi : Nat} (outside : last < lo ∨ hi ≤ last) :
          Agrees lo hi pushed (pushed.changeRest last pair) := pushed.agrees_changeRest pair outside
      have both {lo hi : Nat} (outside : last < lo ∨ hi ≤ last) (room : hi ≤ store.heap.pairs.size) :=
        ((pushes lo).narrow (Nat.le_refl _) room).trans (changes outside)
      refine ⟨kept.trans (both (.inr (by omega)) (by omega)), ?_⟩
      have kept' := outer.agrees (both (.inr (by omega)) (by omega))
      have chain := (strung.agrees ((pushes lo).narrow (Nat.le_refl _) (by omega))).changeRest pair
      have cell : (pushed.changeRest last pair).heap.pairs[store.heap.pairs.size]? =
          some ⟨v, .nil⟩ := by
        have other : Agrees (last + 1) (store.heap.pairs.size + 1) pushed _ :=
          changes (.inl (Nat.lt_succ_self _))
        rw [other.cells _ (by omega) (Nat.lt_succ_self _)]
        exact store.pushPair_self v .nil
      rw [size_changeRest, size_pushPair]
      apply Stack.Planted.cons (by omega) ?_ kept'
      apply Frame.Planted.growing (chain.snoc (by omega) cell ?_) (Nat.lt_succ_self _)
      exact (spans.agrees (both (.inl below) (Nat.le_refl _))).widen below (Nat.le_refl _)

theorem dot (list : bracket ≠ .vector) (grown : GrownWith start base
      (.list bracket (.growing (.pair head) (.pair last)) :: stack) v store) :
    Grown start base (.list bracket (.dotted (.pair head) (.pair last)) :: stack) store := by
  obtain ⟨kept, planted⟩ := grown.grown
  refine ⟨kept, ?_⟩
  cases planted with
  | cons order top outer =>
    cases top with
    | growing strung below => exact .cons order (.dotted list strung below) outer

theorem tail (grown : GrownWith start base
      (.list bracket (.dotted (.pair head) (.pair last)) :: stack) v store) :
    Grown start base (.list bracket (.sealed (.pair head) (.pair last)) :: stack)
      (store.changeRest last v) := by
  obtain ⟨kept, mid, within, planted, spans⟩ := grown
  cases planted with
  | @cons lo _ _ _ order top outer =>
    cases top with
    | dotted list strung below =>
      have above := outer.le
      have inside := strung.le_last
      have changes {lo hi : Nat} (outside : last < lo ∨ hi ≤ last) :
          Agrees lo hi store (store.changeRest last v) := store.agrees_changeRest v outside
      refine ⟨kept.trans (changes (.inr (by omega))), ?_⟩
      have kept' := outer.agrees (changes (.inr (by omega)))
      rw [size_changeRest]
      apply Stack.Planted.cons (by omega) ?_ kept'
      apply Frame.Planted.sealed list (strung.changeRest v) ?_ (Nat.lt_of_lt_of_le below within)
      exact (spans.agrees (changes (.inl below))).widen below (Nat.le_refl _)

theorem quote {mark : QuoteMark} {symbol : Value}
    (grown : GrownWith start base (.quoted mark symbol :: stack) v store) :
    let inner := store.pushPair v .nil
    GrownWith start base stack (.pair inner.heap.pairs.size)
      (inner.pushPair symbol (.pair store.heap.pairs.size)) := by
  obtain ⟨kept, mid, within, planted, spans⟩ := grown
  cases planted with
  | @cons lo _ _ _ order top outer =>
    cases top with
    | quoted atom =>
      intro inner
      have above := outer.le
      let whole := inner.pushPair symbol (.pair store.heap.pairs.size)
      have size : inner.heap.pairs.size = store.heap.pairs.size + 1 := store.size_pushPair v .nil
      have first (lo : Nat) : Agrees lo store.heap.pairs.size store inner :=
        store.agrees_pushPair lo v .nil
      have second (lo : Nat) : Agrees lo (store.heap.pairs.size + 1) inner whole :=
        size ▸ inner.agrees_pushPair lo symbol (.pair store.heap.pairs.size)
      have both (lo : Nat) := (first lo).trans ((second lo).narrow (Nat.le_refl _) (Nat.le_succ _))
      refine ⟨kept.trans ((both 0).narrow (Nat.le_refl _) (by omega)), mid, ?_, ?_, ?_⟩
      · rw [size_pushPair, size]
        omega
      · exact (outer.widen order).agrees ((both base).narrow (Nat.le_refl _) within)
      · have rest : inner.heap.Spans mid (store.heap.pairs.size + 1) (.pair store.heap.pairs.size) :=
          .pair (store.pushPair_self v .nil) (spans.agrees (first mid))
            (.atom trivial : inner.heap.Spans (store.heap.pairs.size + 1) _ .nil)
            within (Nat.lt_succ_self _) (Nat.le_refl _) (.inl (Nat.lt_succ_self _)) (Nat.le_succ _)
            (by omega) (Nat.le_refl _)
        rw [size_pushPair]
        exact .pair (inner.pushPair_self _ _) (.atom atom : whole.heap.Spans mid mid _)
          (rest.agrees (second mid)) (by omega) (Nat.lt_succ_self _) (by omega) (.inr (by omega))
          (Nat.le_refl _) (Nat.le_refl _) (by omega)

end GrownWith

theorem Grown.atom_ensures {start : Store} {base : Nat} {stack : Stack Value}
    {work : HostM Store Value} (answers : ∀ store, match work store with
      | .ok v store' => v.IsAtom ∧ (∀ lo hi, Agrees lo hi store store') ∧
        store'.heap.pairs.size = store.heap.pairs.size
      | .error _ store' => store' = store) :
    Ensures (Grown start base stack) (hosted work)
      (fun v store => Grown start base stack store ∧ v.IsAtom) (Agrees 0 base start) := by
  refine .hosted fun store grown => ?_
  have answer := answers store
  cases result : work store with
  | ok v store' =>
    rw [result] at answer
    obtain ⟨atom, agrees, size⟩ := answer
    exact ⟨grown.agrees agrees size, atom⟩
  | error e store' =>
    rw [result] at answer
    rw [answer]
    exact grown.kept

namespace Context.Stores

variable {ctx : Context Store Value} {options : StoreOptions} (stores : ctx.Stores options)

include stores

theorem makePair (first rest : Value) (store : Store) :
    ctx.host.makePair first rest store =
      .ok (.pair store.heap.pairs.size) (store.pushPair first rest) := by
  rw [stores.host]
  rfl

theorem setRest (address : Nat) (value : Value) (store : Store) :
    ctx.host.setRest (.pair address) value store = .ok () (store.changeRest address value) := by
  rw [stores.host]
  rfl

theorem listToVector (list : Value) : ctx.host.listToVector list = Store.listToVector list := by
  rw [stores.host]
  rfl

theorem nil_eq : ctx.host.nil = .nil := by
  rw [stores.host]
  rfl

theorem constant_atom (kind : Constant) : ((ctx.host.constant? kind).getD ctx.host.false).IsAtom := by
  rw [stores.host]
  cases kind with
  | false => trivial
  | true =>
    dsimp only [Host.constant?, Store.host]
    cases options.capabilities.true <;> trivial
  | unspecified =>
    dsimp only [Host.constant?, Store.host]
    cases options.capabilities.unspecified <;> trivial
  | logicalEof =>
    dsimp only [Host.constant?, Store.host]
    cases options.capabilities.logicalEof <;> trivial

variable {start : Store} {base : Nat} {stack : Stack Value}

theorem parseNumber_ensures (text : String) (radix : Nat) :
    Ensures (Grown start base stack) (hosted (ctx.host.parseNumber text radix))
      (fun v store => Grown start base stack store ∧ v.IsAtom) (Agrees 0 base start) := by
  refine Grown.atom_ensures fun store => ?_
  rw [stores.host]
  dsimp only [Store.host]
  cases options.numbers with
  | false => exact ⟨trivial, fun lo hi => .refl lo hi store, rfl⟩
  | true =>
    rw [if_pos rfl, Store.parseNumber]
    cases parseInteger text radix with
    | error fault => rfl
    | ok number => cases number <;> exact ⟨trivial, fun lo hi => .refl lo hi store, rfl⟩

theorem internSymbol_ensures (name : String) :
    Ensures (Grown start base stack) (hosted (ctx.host.internSymbol name))
      (fun v store => Grown start base stack store ∧ v.IsAtom) (Agrees 0 base start) := by
  refine Grown.atom_ensures fun store => ?_
  rw [stores.host]
  exact ⟨trivial, fun lo hi => store.agrees_learn lo hi options.table name, rfl⟩

theorem makeCharacter_ensures (codePoint : Nat) :
    Ensures (Grown start base stack) (hosted (ctx.host.makeCharacter codePoint))
      (fun v store => Grown start base stack store ∧ v.IsAtom) (Agrees 0 base start) := by
  refine Grown.atom_ensures fun store => ?_
  rw [stores.host]
  exact ⟨trivial, fun lo hi => store.agrees_pushCharacter lo hi codePoint, rfl⟩

theorem makeString_ensures (literal : String) :
    Ensures (Grown start base stack) (ctx.makeString literal)
      (fun v store => Grown start base stack store ∧ v.IsAtom) (Agrees 0 base start) := by
  have made : Ensures (Grown start base stack) (hosted (ctx.host.makeString literal))
      (fun v store => Grown start base stack store ∧ v.IsAtom) (Agrees 0 base start) := by
    refine Grown.atom_ensures fun store => ?_
    rw [stores.host]
    exact ⟨trivial, fun lo hi => .refl lo hi store, rfl⟩
  refine made.bind fun v => .of_fact (fun _ grown => grown.2) fun atom => ?_
  refine .of_imp (fun _ grown => grown.1) (Grown.atom_ensures fun store => ?_)
  rw [stores.host]
  refine ⟨?_, fun lo hi => .refl lo hi store, rfl⟩
  split
  · cases v <;> trivial
  · exact atom

theorem makeSymbol_ensures (name : String) :
    Ensures (Grown start base stack) (ctx.makeSymbol name)
      (fun v store => Grown start base stack store ∧ v.IsAtom) (Agrees 0 base start) := by
  refine .bind (stores.internSymbol_ensures name) fun symbol => ?_
  split
  · refine .pure fun store grown => ⟨grown.1, ?_⟩
    split
    · rw [stores.nil_eq]
      trivial
    · exact grown.2
  · exact .pure fun store grown => grown

theorem makeToken_ensures (token : String) :
    Ensures (Grown start base stack) (ctx.makeToken token)
      (fun v store => Grown start base stack store ∧ v.IsAtom) (Agrees 0 base start) := by
  refine .bind (stores.parseNumber_ensures token 10) fun number => ?_
  exact .ite (.of_imp (fun _ grown => grown.1) (stores.makeSymbol_ensures token))
    (.pure fun _ grown => grown)

theorem fail_ensures (fault : ReadFault) {Q : α → Store → Prop} :
    Ensures (Grown start base stack) (ctx.fail fault : ReadM Store α) Q (Agrees 0 base start) := by
  refine .of_imp (fun _ grown => grown.kept) (.fail fun e _ store kept => ?_)
  rw [stores.host]
  dsimp only [Store.host]
  cases options.signal <;> exact kept

theorem makeNumber_ensures (radix : Nat) (digits : String) :
    Ensures (Grown start base stack) (ctx.makeNumber radix digits)
      (fun v store => Grown start base stack store ∧ v.IsAtom) (Agrees 0 base start) := by
  refine .bind (stores.parseNumber_ensures digits radix) fun number => ?_
  exact .ite (.of_imp (fun _ grown => grown.1) (stores.fail_ensures _)) (.pure fun _ grown => grown)

theorem perform_ensures (lexeme : Lexeme) :
    Ensures (Grown start base stack) (ctx.perform lexeme)
      (FormStart.Grown start base stack) (Agrees 0 base start) := by
  have whole {m : ReadM Store Value} (atoms : Ensures (Grown start base stack) m
      (fun v store => Grown start base stack store ∧ v.IsAtom) (Agrees 0 base start)) :
      Ensures (Grown start base stack) (m >>= fun v => pure (FormStart.whole v))
        (FormStart.Grown start base stack) (Agrees 0 base start) :=
    .bind atoms fun v => .pure fun _ grown => grown.1.with_atom grown.2
  cases lexeme with
  | endOfInput => exact .pure fun _ grown => grown
  | comment => exact .pure fun _ grown => grown
  | opening opening =>
    refine .pure fun store grown => ⟨grown, fun lo hi => ?_⟩
    cases opening with
    | quoted mark => exact .quoted (stores.quotes mark)
    | list bracket => exact .empty bracket
    | datumComment => exact .datumComment
  | constant kind => exact .pure fun _ grown => grown.with_atom (stores.constant_atom kind)
  | token text => exact whole (stores.makeToken_ensures _)
  | number radix digits => exact whole (stores.makeNumber_ensures _ _)
  | string literal => exact whole (stores.makeString_ensures _)
  | character c => exact whole (stores.makeCharacter_ensures _)
  | fault reason => exact stores.fail_ensures reason

/-- A list of pairs takes a form, unless the form is a dot that is out of place. -/
theorem append_cases (bracket : Bracket) {spine : Spine Value} (pairs : spine.OfPairs) (form : Value)
    (s : ReadState Store) :
    (∃ fault, ctx.append bracket spine form = ctx.fail fault) ∨
      ∃ longer store, ctx.Appends bracket form s.host spine longer store ∧
        ctx.append bracket spine form s = .ok longer { s with host := store } := by
  obtain ⟨store, source, trace⟩ := s
  have made : hosted (ctx.host.makePair form ctx.host.nil) ⟨store, source, trace⟩ =
      .ok (.pair store.heap.pairs.size) ⟨store.pushPair form .nil, source, trace⟩ := by
    rw [stores.nil_eq, hosted_apply, stores.makePair]
  have set (address : Nat) (value : Value) (store : Store) :
      hosted (ctx.host.setRest (.pair address) value) ⟨store, source, trace⟩ =
        .ok () ⟨store.changeRest address value, source, trace⟩ := by
    rw [hosted_apply, stores.setRest]
  cases pairs with
  | empty =>
    cases dot : ctx.host.eq form ctx.dot with
    | true => exact .inl ⟨.nothingBeforeDot, by simp only [Context.append, dot, if_true]⟩
    | false =>
      refine .inr ⟨_, _, .first dot, ?_⟩
      simp only [Context.append, dot, Bool.false_eq_true, if_false]
      rw [bind_of_ok made]
      rfl
  | growing head last =>
    cases dot : ctx.host.eq form ctx.dot with
    | true =>
      by_cases vector : bracket = .vector
      · exact .inl ⟨.dotInVector, by simp only [Context.append, dot, vector, if_true]⟩
      · refine .inr ⟨_, _, .dot dot vector, ?_⟩
        simp only [Context.append, dot, vector, if_true, if_false]
        rfl
    | false =>
      refine .inr ⟨_, _, .next dot, ?_⟩
      simp only [Context.append, dot, Bool.false_eq_true, if_false]
      rw [bind_of_ok made, bind_of_ok (set _ _ _)]
      rfl
  | dotted head last =>
    refine .inr ⟨_, _, .tail head last, ?_⟩
    unfold Context.append
    dsimp only
    rw [bind_of_ok (set _ _ _)]
    rfl
  | «sealed» head last => exact .inr ⟨_, _, .sealed head last, rfl⟩

theorem append_ensures (bracket : Bracket) (spine : Spine Value) (v : Value) :
    Ensures (GrownWith start base (.list bracket spine :: stack) v) (ctx.append bracket spine v)
      (fun spine => Grown start base (.list bracket spine :: stack)) (Agrees 0 base start) := by
  intro s given
  obtain ⟨fault, fails⟩ | ⟨longer, store, appends, same⟩ :=
    stores.append_cases bracket given.grown.ofPairs v s
  · rw [fails]
    exact stores.fail_ensures fault s given.grown
  · rw [same]
    cases appends with
    | first => exact given.first
    | next => exact given.next
    | dot _ list => exact given.dot list
    | tail => exact given.tail
    | «sealed» => exact given.grown

theorem complete_ensures (stack : Stack Value) (v : Value) :
    Ensures (GrownWith start base stack v) (ctx.complete stack (some v)) (Progress.Grown start base)
      (Agrees 0 base start) := by
  induction stack generalizing v with
  | nil => exact .pure fun _ grown => grown
  | cons frame outer ih =>
    cases frame with
    | list bracket spine =>
      exact .bind (stores.append_ensures bracket spine v) fun spine => .pure fun _ grown => grown
    | quoted mark symbol =>
      intro ⟨store, source, trace⟩ given
      have made (first rest : Value) (store : Store) :
          hosted (ctx.host.makePair first rest) ⟨store, source, trace⟩ =
            .ok (.pair store.heap.pairs.size) ⟨store.pushPair first rest, source, trace⟩ := by
        rw [hosted_apply, stores.makePair]
      unfold Context.complete
      rw [stores.nil_eq, bind_of_ok (made _ _ _), bind_of_ok (made _ _ _)]
      exact ih _ _ given.quote
    | datumComment =>
      refine .bind (.hostFree (.report _) (fun _ _ grown => grown) fun _ grown => grown.kept) fun _ => ?_
      refine .pure fun store grown => ?_
      obtain ⟨kept, planted⟩ := grown.grown
      cases planted with
      | cons order _ outer => exact ⟨kept, outer.widen order⟩

theorem complete_none_ensures (stack : Stack Value) :
    Ensures (Grown start base stack) (ctx.complete stack none) (Progress.Grown start base)
      (Agrees 0 base start) := by
  induction stack with
  | nil => exact .pure fun _ grown => grown
  | cons frame outer ih =>
    cases frame with
    | list bracket spine => exact stores.fail_ensures _
    | quoted mark symbol => exact stores.fail_ensures _
    | datumComment =>
      refine .of_imp (fun store grown => ?_) ih
      obtain ⟨kept, planted⟩ := grown
      cases planted with
      | cons order _ outer => exact ⟨kept, outer.widen order⟩

theorem close_ensures (bracket : Bracket) (spine : Spine Value) :
    Ensures (Grown start base (.list bracket spine :: stack)) (ctx.close bracket spine)
      (GrownWith start base stack) (Agrees 0 base start) := by
  rw [Context.close_eq, stores.nil_eq]
  split
  next vector =>
    subst vector
    refine .hosted fun store grown => ?_
    have ⟨kept, planted⟩ := grown
    rw [stores.listToVector]
    cases members : store.heap.vectorMembers (spine.head .nil) with
    | error fault =>
      rw [listToVector_of_error members]
      exact kept
    | ok values =>
      rw [listToVector_of_ok members]
      have pushed (lo hi : Nat) := store.agrees_pushVector lo hi values
      have elements : (store.pushVector values).heap.vectors[store.heap.vectors.size]? =
          some values := by
        simp [pushVector, Heap.makeVector]
      cases planted with
      | @cons lo _ _ _ order top outer =>
        have each : store.heap.SpansEach lo store.heap.pairs.size values := by
          cases top with
          | empty =>
            cases members
            exact .nil order
          | growing strung below =>
            exact (strung.spansEach_of_vectorMembers members).widen (Nat.le_refl _) (Nat.le_of_lt below)
          -- A vector has no dot, so it is no dotted list.
          | dotted list => exact absurd rfl list
          | «sealed» list => exact absurd rfl list
        exact ⟨kept.trans (pushed _ _), lo, order, outer.agrees (pushed _ _),
          (each.agrees (pushed _ _)).vector elements⟩
  next list =>
    refine .pure fun store grown => ?_
    obtain ⟨kept, planted⟩ := grown
    cases planted with
    | @cons lo _ _ _ order top outer =>
      refine ⟨kept, lo, order, outer, ?_⟩
      cases top with
      | empty => exact .atom trivial
      | growing strung below => exact strung.spans (.atom trivial) below
      | dotted _ strung below => exact strung.spans (.atom trivial) below
      | «sealed» _ strung tail below => exact strung.spans tail below

theorem answer_ensures (stack : Stack Value) (found : Found) :
    Ensures (Grown start base stack) (ctx.answer stack found) (Progress.Grown start base)
      (Agrees 0 base start) := by
  match found, stack with
  | .part lexeme, stack =>
    refine .bind (stores.perform_ensures lexeme) fun form => ?_
    cases form with
    | whole v => exact stores.complete_ensures stack v
    | comment => exact .pure fun _ grown => grown
    | endOfInput => exact stores.complete_none_ensures stack
    | opening frame =>
      refine .pure fun store given => ?_
      obtain ⟨⟨kept, planted⟩, opens⟩ := given
      exact ⟨kept, .cons (Nat.le_refl _) (opens _ _) planted⟩
  | .fault reason, _ => exact stores.fail_ensures reason
  | .closer, .list bracket spine :: outer =>
    exact .bind (stores.close_ensures bracket spine) fun v => stores.complete_ensures outer v
  | .closer, [] => exact .pure fun _ grown => grown
  | .closer, .quoted _ _ :: _ => exact .pure fun _ grown => grown
  | .closer, .datumComment :: _ => exact .pure fun _ grown => grown

theorem turn_ensures (stack : Stack Value) :
    Ensures (Grown start base stack) (ctx.turn stack) (Progress.Grown start base)
      (Agrees 0 base start) := by
  rw [Context.turn_eq]
  refine .bind (.hostFree (ctx.dialect.takeTurn_hostFree _) (fun _ _ grown => grown)
    fun _ grown => grown.kept) fun found => stores.answer_ensures stack found

theorem run_ensures (readForm : ReadM Store Value) (bound : List Char) (stack : Stack Value) :
    Ensures (Grown start base stack) (ctx.run none readForm bound stack)
      (fun form => Progress.Grown start base (.finished form)) (Agrees 0 base start) := by
  induction bound generalizing stack with
  | nil =>
    unfold Context.run
    rw [Context.step_eq_turn]
    refine .bind (stores.turn_ensures stack) fun progress => ?_
    cases progress with
    | finished form => exact .pure fun _ grown => grown
    | pending stack' => exact .throw fun _ grown => grown.kept
  | cons _ bound ih =>
    unfold Context.run
    rw [Context.step_eq_turn]
    refine .bind (stores.turn_ensures stack) fun progress => ?_
    cases progress with
    | finished form => exact .pure fun _ grown => grown
    | pending stack' => exact ih stack'

/-- A read changes no pair that was there before. The pairs of the form that it returns are new. -/
theorem readForm_ensures :
    Ensures (· = start) (ctx.readForm none)
      (fun v store => Agrees 0 start.heap.pairs.size start store ∧
        store.heap.Spans start.heap.pairs.size store.heap.pairs.size v)
      (Agrees 0 start.heap.pairs.size start) := by
  intro s same
  subst same
  rw [Context.readForm_eq_run]
  have returns (form : Option Value) :
      Ensures (Progress.Grown s.host s.host.heap.pairs.size (.finished form))
        (pure (form.getD ctx.host.endOfStream) : ReadM Store Value)
        (fun v store => Agrees 0 s.host.heap.pairs.size s.host store ∧
          store.heap.Spans s.host.heap.pairs.size store.heap.pairs.size v)
        (Agrees 0 s.host.heap.pairs.size s.host) := by
    refine .pure fun store grown => ?_
    cases form with
    | none =>
      refine ⟨grown.kept, .atom ?_⟩
      rw [Option.getD_none, stores.host]
      trivial
    | some v =>
      obtain ⟨kept, mid, within, planted, spans⟩ := grown
      exact ⟨kept, spans.widen planted.le (Nat.le_refl _)⟩
  have runs : Ensures (Grown s.host s.host.heap.pairs.size []) _ _ _ :=
    stores.run_ensures (throw .stalled) s.source.remaining []
  exact runs.bind returns s ⟨.refl _ _ _, .nil (Nat.le_refl _)⟩

end Context.Stores

end SexprReader
