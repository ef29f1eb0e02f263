import SexprReader.Proofs.Reader.Fillings
import SexprReader.Proofs.Store.Separate
import SexprReader.Proofs.Value.Chains

namespace SexprReader

open ReadM Store

variable {V : Type}

def Spine.tail? : Spine V → Option V
  | .empty => none
  | .growing _ last | .dotted _ last | .sealed _ last => some last

def Spine.IsSealed : Spine V → Prop
  | .sealed _ _ => True
  | _ => False

def Frame.IsSealed : Frame V → Prop
  | .list _ spine => spine.IsSealed
  | _ => False

namespace Heap

variable {h : Heap} {addresses : List Nat} {firsts : List Value} {v w : Value} {address : Nat}

theorem Links.setRest_last (links : h.Links addresses firsts v w) (distinct : addresses.Nodup)
    (last : addresses.getLast? = some address) (value : Value) :
    (h.setRest address value).Links addresses firsts v value := by
  induction links with
  | here => cases last
  | @next first more _ cell _ found onward ih =>
    obtain ⟨outside, distinct⟩ := List.nodup_cons.mp distinct
    have now := h.cell?_setRest address first value
    rw [found, Option.map_some] at now
    cases more with
    | nil =>
      obtain rfl : first = address := Option.some.inj last
      cases onward
      rw [if_pos rfl] at now
      exact @Links.next _ _ _ _ ⟨cell.first, value⟩ _ now (.here value)
    | cons second more =>
      rw [List.getLast?_cons_cons] at last
      have apart : address ≠ first := fun same => outside (same ▸ List.mem_of_getLast? last)
      rw [if_neg apart] at now
      exact .next now (ih distinct last)

theorem Links.rest_last (links : h.Links addresses firsts v w) (last : addresses.getLast? = some address) :
    h.rest (.pair address) = .ok w := by
  induction links with
  | here => cases last
  | @next first more _ cell _ found onward ih =>
    cases more with
    | nil =>
      obtain rfl : first = address := Option.some.inj last
      cases onward
      rw [rest, found]
    | cons second more => exact ih (List.getLast?_cons_cons ▸ last)

theorem Links.firsts_ne_nil (links : h.Links addresses firsts v w) (more : addresses ≠ []) :
    firsts ≠ [] := by
  cases links with
  | here => exact absurd rfl more
  | next => exact List.cons_ne_nil _ _

theorem Links.vectorMembers (links : h.Links addresses firsts v .nil) : h.vectorMembers v = .ok firsts := by
  cases links with
  | here => rfl
  | next found onward =>
    have iterates := (Links.next found onward).iterate_proper
    simp [Heap.vectorMembers, toList, iterates]

end Heap

inductive Filled.Chained (h : Heap) : List Nat → Filled Value → Prop
  | empty (bracket : Bracket) : Chained h [] ⟨.list bracket .empty, ⟨[], none⟩⟩
  | growing {bracket : Bracket} {addresses : List Nat} {members : List Value} {head last : Nat}
      (links : h.Links addresses members (.pair head) .nil) (ends : addresses.getLast? = some last) :
      Chained h addresses ⟨.list bracket (.growing (.pair head) (.pair last)), ⟨members, none⟩⟩
  | dotted {bracket : Bracket} {addresses : List Nat} {members : List Value} {head last : Nat}
      (list : bracket ≠ .vector) (links : h.Links addresses members (.pair head) .nil)
      (ends : addresses.getLast? = some last) :
      Chained h addresses ⟨.list bracket (.dotted (.pair head) (.pair last)), ⟨members, none⟩⟩
  | sealed {bracket : Bracket} {addresses : List Nat} {members : List Value} {head last : Nat}
      {tail : Value} (list : bracket ≠ .vector) (links : h.Links addresses members (.pair head) tail)
      (ends : addresses.getLast? = some last) :
      Chained h addresses ⟨.list bracket (.sealed (.pair head) (.pair last)), ⟨members, some tail⟩⟩
  | quoted (mark : QuoteMark) (symbol : Value) (filling : Filling Value) :
      Chained h [] ⟨.quoted mark symbol, filling⟩
  | datumComment (filling : Filling Value) : Chained h [] ⟨.datumComment, filling⟩

section

variable {h h' : Heap} {addresses : List Nat} {filled : Filled Value} {chains : List (List Nat)}
  {stack : List (Filled Value)}

theorem Filled.Chained.lt_size (chained : filled.Chained h addresses) :
    ∀ address ∈ addresses, address < h.pairs.size := by
  cases chained with
  | growing links => exact links.lt_size
  | dotted _ links => exact links.lt_size
  | «sealed» _ links => exact links.lt_size
  | _ => exact List.forall_mem_nil _

theorem Filled.Chained.of_cells (chained : filled.Chained h addresses)
    (same : ∀ address ∈ addresses, h'.cell? (.pair address) = h.cell? (.pair address)) :
    filled.Chained h' addresses := by
  cases chained with
  | empty bracket => exact .empty bracket
  | growing links ends => exact .growing (links.of_cells same) ends
  | dotted list links ends => exact .dotted list (links.of_cells same) ends
  | «sealed» list links ends => exact .sealed list (links.of_cells same) ends
  | quoted mark symbol filling => exact .quoted mark symbol filling
  | datumComment filling => exact .datumComment filling

theorem chained_lt_size (all : List.Forall₂ (Filled.Chained h) chains stack) :
    ∀ addresses ∈ chains, ∀ address ∈ addresses, address < h.pairs.size := by
  induction all with
  | nil => exact List.forall_mem_nil _
  | cons chained _ ih => exact List.forall_mem_cons.mpr ⟨chained.lt_size, ih⟩

theorem chained_of_cells (all : List.Forall₂ (Filled.Chained h) chains stack)
    (same : ∀ addresses ∈ chains, ∀ address ∈ addresses,
      h'.cell? (.pair address) = h.cell? (.pair address)) :
    List.Forall₂ (Filled.Chained h') chains stack := by
  induction all with
  | nil => exact .nil
  | cons chained _ ih =>
    obtain ⟨one, others⟩ := List.forall_mem_cons.mp same
    exact .cons (chained.of_cells one) (ih others)

end

def Chains (stack : List (Filled Value)) (store : Store) : Prop :=
  ∃ chains, List.Forall₂ (Filled.Chained store.heap) chains stack ∧ chains.Pairwise List.Disjoint

namespace Chains

variable {stack others : List (Filled Value)} {filled : Filled Value} {store store' : Store}

theorem nil (store : Store) : Chains [] store := ⟨[], .nil, .nil⟩

theorem agrees (chains : Chains stack store) (agrees : Agrees 0 store.heap.pairs.size store store') :
    Chains stack store' := by
  obtain ⟨chains, all, apart⟩ := chains
  refine ⟨chains, chained_of_cells all fun addresses inside address member => ?_, apart⟩
  exact agrees.cells address (Nat.zero_le _) (chained_lt_size all addresses inside address member)

theorem outer (chains : Chains (filled :: others) store) : Chains others store := by
  obtain ⟨_, all, apart⟩ := chains
  cases all with
  | cons _ all => exact ⟨_, all, (List.pairwise_cons.mp apart).2⟩

theorem push (chains : Chains stack store) (chained : filled.Chained store.heap []) :
    Chains (filled :: stack) store := by
  obtain ⟨chains, all, apart⟩ := chains
  exact ⟨[] :: chains, .cons chained all, List.pairwise_cons.mpr ⟨fun _ _ => List.disjoint_nil_left _, apart⟩⟩

theorem exists_top (chains : Chains (filled :: others) store) : ∃ addresses,
    filled.Chained store.heap addresses ∧
      ∀ store' addresses' (filled' : Filled Value), filled'.Chained store'.heap addresses' →
        (∀ address ∈ addresses', address ∈ addresses ∨ store.heap.pairs.size ≤ address) →
        (∀ address < store.heap.pairs.size, address ∉ addresses →
          store'.heap.cell? (.pair address) = store.heap.cell? (.pair address)) →
        Chains (filled' :: others) store' := by
  obtain ⟨_, all, apart⟩ := chains
  cases all with
  | @cons addresses _ rest _ chained all =>
    obtain ⟨separate, apart⟩ := List.pairwise_cons.mp apart
    have old := chained_lt_size all
    refine ⟨addresses, chained, fun store' addresses' filled' chained' own kept =>
      ⟨addresses' :: rest, .cons chained' ?_, List.pairwise_cons.mpr ⟨fun other inside => ?_, apart⟩⟩⟩
    · exact chained_of_cells all fun other inside address member =>
        kept address (old other inside address member) fun mine => separate other inside mine member
    · intro address mine member
      rcases own address mine with before | new
      · exact separate other inside before member
      · exact Nat.not_lt.mpr new (old other inside address member)

theorem ofPairs {bracket : Bracket} {spine : Spine Value} {filling : Filling Value}
    (chains : Chains (⟨.list bracket spine, filling⟩ :: others) store) : spine.OfPairs := by
  obtain ⟨_, chained, -⟩ := chains.exists_top
  cases chained <;> constructor

section

variable {bracket : Bracket} {head form : Value} {last : Nat} {filling : Filling Value}

theorem first (chains : Chains (⟨.list bracket .empty, filling⟩ :: others) store) :
    let pair : Value := .pair store.heap.pairs.size
    Chains (⟨.list bracket (.growing pair pair), { filling with members := filling.members ++ [form] }⟩ :: others)
      (store.pushPair form .nil) := by
  obtain ⟨addresses, chained, update⟩ := chains.exists_top
  cases chained
  have made : (store.pushPair form .nil).heap.Links [store.heap.pairs.size] [form]
      (.pair store.heap.pairs.size) .nil :=
    @Heap.Links.next _ _ _ _ ⟨form, .nil⟩ _ (store.pushPair_self form .nil) (.here .nil)
  refine update _ [store.heap.pairs.size] _ (.growing made rfl) ?_ fun address old _ => ?_
  · exact List.forall_mem_singleton.mpr (.inr (Nat.le_refl _))
  · exact Heap.cell?_cons_of_lt old form .nil

theorem next (chains : Chains (⟨.list bracket (.growing head (.pair last)), filling⟩ :: others) store) :
    let pair : Value := .pair store.heap.pairs.size
    Chains (⟨.list bracket (.growing head pair), { filling with members := filling.members ++ [form] }⟩ :: others)
      ((store.pushPair form .nil).changeRest last pair) := by
  obtain ⟨addresses, chained, update⟩ := chains.exists_top
  cases chained with
  | @growing _ _ members _ _ links ends =>
    intro pair
    let pushed := store.pushPair form .nil
    let changed := pushed.changeRest last pair
    have old := links.lt_size last (List.mem_of_getLast? ends)
    have longer : pushed.heap.Links addresses members _ .nil :=
      links.of_cells fun address member => Heap.cell?_cons_of_lt (links.lt_size address member) form .nil
    have behind : changed.heap.Links [store.heap.pairs.size] [form] pair .nil := by
      have cell : changed.heap.cell? pair = some ⟨form, .nil⟩ := by
        refine (pushed.heap.cell?_setRest last _ pair).trans ?_
        rw [Heap.cell?, show pushed.heap.pairs[_]? = _ from store.pushPair_self form .nil]
        simp [Nat.ne_of_lt old]
      exact @Heap.Links.next _ _ _ _ ⟨form, .nil⟩ _ cell (.here .nil)
    have linked : changed.heap.Links (addresses ++ [store.heap.pairs.size]) (members ++ [form]) _ .nil :=
      (longer.setRest_last (links.nodup rfl) ends pair).append behind
    refine update changed _ _ (.growing linked (by simp)) (fun address mine => ?_) fun address kept outside => ?_
    · rcases List.mem_append.mp mine with before | new
      · exact .inl before
      · exact .inr (Nat.le_of_eq (List.mem_singleton.mp new).symm)
    · have apart : last ≠ address := fun same => outside (same ▸ List.mem_of_getLast? ends)
      refine (pushed.heap.cell?_setRest last address pair).trans ?_
      rw [show pushed.heap.cell? _ = _ from Heap.cell?_cons_of_lt kept form .nil]
      simp [apart]

theorem dot (list : bracket ≠ .vector)
    (chains : Chains (⟨.list bracket (.growing head (.pair last)), filling⟩ :: others) store) :
    Chains (⟨.list bracket (.dotted head (.pair last)), filling⟩ :: others) store := by
  obtain ⟨addresses, chained, update⟩ := chains.exists_top
  cases chained with
  | growing links ends =>
    exact update store addresses _ (.dotted list links ends) (fun _ mine => .inl mine) fun _ _ _ => rfl

theorem tail (chains : Chains (⟨.list bracket (.dotted head (.pair last)), filling⟩ :: others) store) :
    Chains (⟨.list bracket (.sealed head (.pair last)), { filling with tail := some form }⟩ :: others)
      (store.changeRest last form) := by
  obtain ⟨addresses, chained, update⟩ := chains.exists_top
  cases chained with
  | dotted list links ends =>
    have linked := links.setRest_last (links.nodup rfl) ends form
    refine update _ addresses _ (.sealed list linked ends) (fun _ mine => .inl mine) fun address _ outside => ?_
    have apart : last ≠ address := fun same => outside (same ▸ List.mem_of_getLast? ends)
    refine (store.heap.cell?_setRest last address form).trans ?_
    simp [apart]

end

end Chains

/-- The open forms have pairs of their own, and only the innermost of them may wait for nothing but its
closing bracket. -/
structure Sound (stack : List (Filled Value)) (store : Store) : Prop where
  chains : Chains stack store
  unsealed : ∀ filled ∈ stack.tail, ¬ filled.frame.IsSealed

def FormStart.OpensEmpty : FormStart Value → Store → Prop
  | .opening frame, store => (Filled.fresh frame).Chained store.heap []
  | _, _ => True

def FilledProgress.Sound : FilledProgress Value → Store → Prop
  | .pending stack, store => SexprReader.Sound stack store
  | .finished _, _ => True

theorem Dialect.takeTurn_closer_yields {σ : Type} (dialect : Dialect) (bracket : Bracket) :
    Yields (dialect.takeTurn (.closer bracket) : ReadM σ Found) fun found => ∀ lexeme, found ≠ .part lexeme := by
  refine .bind fun next => ?_
  cases next with
  | none => exact .pure nofun
  | some c => exact .bind fun _ => .ite (.pure nofun) (.pure nofun)

namespace Context.Stores

variable {ctx : Context Store Value} {options : StoreOptions} (stores : ctx.Stores options)
  {outer : List (Filled Value)}

include stores

theorem append_chains {bracket : Bracket} {spine : Spine Value} {filling : Filling Value} (form : Value)
    (unsealed : ¬ spine.IsSealed) :
    Ensures (Chains (⟨.list bracket spine, filling⟩ :: outer)) (ctx.append bracket spine form)
      (fun longer => Chains (⟨.list bracket longer, ctx.give filling spine form⟩ :: outer))
      (fun _ => True) := by
  intro s given
  obtain ⟨fault, fails⟩ | ⟨longer, store, appends, same⟩ :=
    stores.append_cases bracket given.ofPairs form s
  · rw [fails]
    exact Ensures.fails ctx fault s given
  · rw [same]
    cases appends with
    | first plain =>
      simp only [Context.give, plain, Bool.false_eq_true, if_false]
      exact given.first
    | next plain =>
      simp only [Context.give, plain, Bool.false_eq_true, if_false]
      exact given.next
    | dot dot list =>
      simp only [Context.give, dot, if_true]
      exact given.dot list
    | tail => exact given.tail
    | «sealed» => exact absurd trivial unsealed

theorem makePair_chains {stack : List (Filled Value)} (first rest : Value) :
    Ensures (Chains stack) (hosted (ctx.host.makePair first rest)) (fun _ => Chains stack)
      (fun _ => True) := by
  refine .hosted fun store chains => ?_
  rw [stores.makePair]
  exact chains.agrees (store.agrees_pushPair 0 first rest)

theorem close_chains {stack : List (Filled Value)} (bracket : Bracket) (spine : Spine Value) :
    Ensures (Chains stack) (ctx.close bracket spine) (fun _ => Chains stack) (fun _ => True) := by
  rw [Context.close_eq]
  refine .ite (.hosted fun store chains => ?_) (.pure fun _ chains => chains)
  rw [stores.listToVector]
  cases members : store.heap.vectorMembers (spine.head ctx.host.nil) with
  | error fault =>
    rw [listToVector_of_error members]
    trivial
  | ok values =>
    rw [listToVector_of_ok members]
    exact chains.agrees (store.agrees_pushVector 0 _ values)

/-- What the host makes of a lexeme leaves the open lists alone. A form that it opens is empty. -/
theorem perform_chains {stack : List (Filled Value)} (lexeme : Lexeme) :
    Ensures (Chains stack) (ctx.perform lexeme)
      (fun form store => Chains stack store ∧ form.OpensEmpty store) (fun _ => True) := by
  intro s chains
  have performed := stores.perform_ensures lexeme s
    (⟨.refl _ _ _, .nil (Nat.le_refl _)⟩ : Grown s.host s.host.heap.pairs.size [] s.host)
  cases made : ctx.perform lexeme s with
  | error e s' => trivial
  | ok form s' =>
    rw [made] at performed
    cases form with
    | whole v => exact ⟨chains.agrees performed.kept, trivial⟩
    | comment => exact ⟨chains.agrees performed.kept, trivial⟩
    | endOfInput => exact ⟨chains.agrees performed.kept, trivial⟩
    | opening frame =>
      refine ⟨chains.agrees performed.1.kept, ?_⟩
      -- In a range without addresses there is room for an empty list only.
      cases performed.2 0 0 with
      | empty bracket => exact .empty bracket
      | quoted => exact .quoted _ _ _
      | datumComment => exact .datumComment _
      | growing _ below => exact absurd below (Nat.not_lt_zero _)
      | dotted _ _ below => exact absurd below (Nat.not_lt_zero _)
      | «sealed» _ _ _ below => exact absurd below (Nat.not_lt_zero _)

theorem completeFilled_sound {stack : List (Filled Value)} (form : Option Value)
    (unsealed : ∀ filled ∈ stack, ¬ filled.frame.IsSealed) :
    Ensures (Chains stack) (ctx.completeFilled stack form) FilledProgress.Sound (fun _ => True) := by
  induction stack generalizing form with
  | nil => exact .pure fun _ _ => trivial
  | cons filled outer ih =>
    obtain ⟨top, outside⟩ := List.forall_mem_cons.mp unsealed
    match filled, form with
    | ⟨.datumComment, _⟩, none => exact .of_imp (fun _ chains => chains.outer) (ih none outside)
    | ⟨.datumComment, _⟩, some _ =>
      refine .bind (.hostFree (.report _) (fun _ _ chains => chains) fun _ _ => trivial) fun _ => ?_
      exact .pure fun _ chains => ⟨chains.outer, fun filled among => outside filled (List.mem_of_mem_tail among)⟩
    | ⟨.quoted mark _, _⟩, none => exact Ensures.fails ctx _
    | ⟨.quoted _ symbol, _⟩, some form =>
      refine .of_imp (fun _ chains => chains.outer) ?_
      exact .bind (stores.makePair_chains _ _) fun rest => .bind (stores.makePair_chains _ _) fun pair =>
        ih (some pair) outside
    | ⟨.list bracket _, _⟩, none => exact Ensures.fails ctx _
    | ⟨.list bracket spine, filling⟩, some form =>
      exact .bind (stores.append_chains form top) fun longer => .pure fun _ chains => ⟨chains, outside⟩

theorem answerFilled_sound {stack : List (Filled Value)} (found : Found)
    (takes : ∀ lexeme, found = .part lexeme → ∀ filled ∈ stack, ¬ filled.frame.IsSealed) :
    Ensures (Sound stack) (ctx.answerFilled stack found) FilledProgress.Sound (fun _ => True) := by
  match found, stack with
  | .part lexeme, stack =>
    have unsealed := takes lexeme rfl
    refine .bind (.of_imp (fun _ sound => sound.chains) (stores.perform_chains lexeme)) fun form => ?_
    cases form with
    | whole v => exact .of_imp (fun _ known => known.1) (stores.completeFilled_sound _ unsealed)
    | endOfInput => exact .of_imp (fun _ known => known.1) (stores.completeFilled_sound _ unsealed)
    | comment =>
      exact .pure fun _ known => ⟨known.1, fun filled among => unsealed filled (List.mem_of_mem_tail among)⟩
    | opening frame => exact .pure fun _ known => ⟨known.1.push known.2, unsealed⟩
  | .fault reason, _ => exact Ensures.fails ctx reason
  | .closer, ⟨.list bracket spine, _⟩ :: outer =>
    refine .of_fact (fun _ sound => sound.unsealed) fun unsealed => ?_
    exact .bind (.of_imp (fun _ sound => sound.chains.outer) (stores.close_chains bracket spine)) fun v =>
      stores.completeFilled_sound _ unsealed
  | .closer, [] => exact .pure fun _ sound => sound
  | .closer, ⟨.quoted _ _, _⟩ :: _ => exact .pure fun _ sound => sound
  | .closer, ⟨.datumComment, _⟩ :: _ => exact .pure fun _ sound => sound

/-- One turn of a reader. Where the innermost list waits for its closing bracket, no part is found, so that
nothing is opened inside it. -/
theorem turnFilled_sound (stack : List (Filled Value)) :
    Ensures (Sound stack) (ctx.turnFilled stack) FilledProgress.Sound (fun _ => True) := by
  have free : Ensures (Sound stack) (ctx.dialect.takeTurn (Stack.expected (stack.map Filled.frame)))
      (fun _ => Sound stack) (fun _ => True) :=
    .hostFree (ctx.dialect.takeTurn_hostFree _) (fun _ _ sound => sound) fun _ _ => trivial
  refine .of_fact (fun _ sound => sound.unsealed) fun outside => ?_
  match stack with
  | ⟨.list bracket (.sealed head last), filling⟩ :: outer =>
    refine .bind (.of_yields (ctx.dialect.takeTurn_closer_yields bracket) free) fun found => ?_
    refine .of_fact (fun _ known => known.1) fun other => .of_imp (fun _ known => known.2) ?_
    exact stores.answerFilled_sound found fun lexeme part => absurd part (other lexeme)
  | [] => exact .bind free fun found => stores.answerFilled_sound found fun _ _ => List.forall_mem_nil _
  | ⟨.list _ .empty, _⟩ :: outer | ⟨.list _ (.growing _ _), _⟩ :: outer | ⟨.list _ (.dotted _ _), _⟩ :: outer
  | ⟨.quoted _ _, _⟩ :: outer | ⟨.datumComment, _⟩ :: outer =>
    exact .bind free fun found => stores.answerFilled_sound found fun _ _ =>
      List.forall_mem_cons.mpr ⟨not_false, outside⟩

theorem filledMoment_sound (start : ReadState Store) (turns : Nat) :
    Sound (ctx.filledMoment start turns).1 (ctx.filledMoment start turns).2.host := by
  have nothing (store : Store) : Sound [] store := ⟨.nil store, List.forall_mem_nil _⟩
  induction turns with
  | zero => exact nothing _
  | succ turns ih =>
    have sound := stores.turnFilled_sound (ctx.filledMoment start turns).1 _ ih
    unfold Context.filledMoment
    dsimp only
    cases turned : ctx.turnFilled (ctx.filledMoment start turns).1 (ctx.filledMoment start turns).2 with
    | error e s => exact nothing _
    | ok progress s =>
      rw [turned] at sound
      cases progress with
      | pending stack => exact sound
      | finished form => exact nothing _

end Context.Stores

/-- What an open list holds. From its first pair the rests lead through its pairs to the last of them, past
its members in order; and this is what becomes the list, or the vector, as soon as it is closed. -/
structure Context.Threads (ctx : Context Store Value) (store : Store) (addresses : List Nat)
    (bracket : Bracket) (spine : Spine Value) (filling : Filling Value) : Prop where
  last_none : spine.tail? = none ↔ filling.members = []
  head_nil : spine.head .nil = .nil ↔ filling.members = []
  links : store.heap.Links addresses filling.members (spine.head .nil) (filling.tail.getD .nil)
  last : spine.tail? = addresses.getLast?.map .pair
  rest : ∀ last, spine.tail? = some last → store.heap.rest last = .ok (filling.tail.getD .nil)
  tail : filling.tail.isSome ↔ spine.IsSealed
  dotted : ¬ spine.TakesMembers → spine.tail?.isSome ∧ bracket ≠ .vector
  closes : ∀ s : ReadState Store, s.host = store → ∃ v s', ctx.close bracket spine s = .ok v s' ∧
    if bracket = .vector then filling.tail = none ∧ s'.host.heap.elements? v = some filling.members
    else s' = s ∧ store.heap.Links addresses filling.members v (filling.tail.getD .nil)

namespace Context.Stores

variable {ctx : Context Store Value} {options : StoreOptions} (stores : ctx.Stores options)

include stores

theorem close_links {store : Store} {addresses : List Nat} {members : List Value} {tail : Option Value}
    {bracket : Bracket} {spine : Spine Value}
    (links : store.heap.Links addresses members (spine.head .nil) (tail.getD .nil))
    (proper : bracket = .vector → tail = none) (s : ReadState Store) (same : s.host = store) :
    ∃ v s', ctx.close bracket spine s = .ok v s' ∧
      if bracket = .vector then tail = none ∧ s'.host.heap.elements? v = some members
      else s' = s ∧ store.heap.Links addresses members v (tail.getD .nil) := by
  subst same
  rw [Context.close_eq, stores.nil_eq]
  by_cases vector : bracket = .vector
  · cases proper vector
    have made := Store.listToVector_of_ok links.vectorMembers
    refine ⟨.vector s.host.heap.vectors.size, { s with host := s.host.pushVector members }, ?_, ?_⟩
    · rw [if_pos vector, hosted_apply, stores.listToVector, made]
    · rw [if_pos vector]
      exact ⟨rfl, Heap.elements?_makeVector_self s.host.heap members⟩
  · simp only [if_neg vector]
    exact ⟨_, s, rfl, rfl, links⟩

theorem threads_of_pairs {store : Store} {addresses : List Nat} {members : List Value} {tail : Option Value}
    {bracket : Bracket} {spine : Spine Value} {head last : Nat}
    (begins : spine.head .nil = .pair head) (ends : spine.tail? = some (.pair last))
    (links : store.heap.Links addresses members (.pair head) (tail.getD .nil))
    (last : addresses.getLast? = some last) (dotted : tail.isSome ↔ spine.IsSealed)
    (list : ¬ spine.TakesMembers → bracket ≠ .vector) (proper : bracket = .vector → tail = none) :
    ctx.Threads store addresses bracket spine ⟨members, tail⟩ := by
  have others : members ≠ [] := links.firsts_ne_nil (List.ne_nil_of_mem (List.mem_of_getLast? last))
  refine ⟨by simp [ends, others], by simp [begins, others], begins ▸ links, ?_, fun value found => ?_, dotted,
    fun behind => ⟨Option.isSome_of_eq_some ends, list behind⟩, stores.close_links (begins ▸ links) proper⟩
  · rw [ends, last, Option.map_some]
  · cases ends.symm.trans found
    exact links.rest_last last

theorem threads {store : Store} {addresses : List Nat} {bracket : Bracket} {spine : Spine Value}
    {filling : Filling Value}
    (chained : Filled.Chained store.heap addresses ⟨.list bracket spine, filling⟩) :
    ctx.Threads store addresses bracket spine filling := by
  cases chained with
  | empty =>
    exact ⟨iff_of_true rfl rfl, iff_of_true rfl rfl, .here .nil, rfl, nofun, iff_of_false nofun not_false,
      absurd trivial, stores.close_links (.here .nil) fun _ => rfl⟩
  | growing links ends =>
    exact stores.threads_of_pairs rfl rfl links ends (iff_of_false nofun not_false) (absurd trivial) fun _ => rfl
  | dotted list links ends =>
    exact stores.threads_of_pairs rfl rfl links ends (iff_of_false nofun not_false) (fun _ => list) fun _ => rfl
  | «sealed» list links ends =>
    exact stores.threads_of_pairs rfl rfl links ends (iff_of_true rfl trivial) (fun _ => list) fun vector =>
      absurd vector list

end Context.Stores

/-- At every moment of a reading each open list has a last pair, and a first one, exactly if it has been given
a member. From the first the rests lead to the last, past all its members in order, and from there to the form
behind the dot, if there is one, or to the empty list. No pair belongs to two open lists. A list that waits
for nothing but its closing bracket is the innermost of them. A list that is closed becomes a list of all its
members with that form behind them, or the vector of its members. -/
theorem open_lists_threaded (options : StoreOptions) (nilAlias : Option String) (bracketLists : Bool)
    (store : Store) {ready opened : Store} {host : Host Store Value} {ctx : Context Store Value}
    (hosts : (Store.host options).withNilAlias nilAlias store = .ok host ready)
    (opens : Context.create host bracketLists ready = .ok ctx opened) (source : Source)
    (trace : Array Event) (turns : Nat) :
    let start : ReadState Store := ⟨opened, source, trace⟩
    let stack := (ctx.filledMoment start turns).1
    let s := (ctx.filledMoment start turns).2
    (ctx.moment start turns).stack = stack.map Filled.frame ∧ (ctx.moment start turns).state = s ∧
    (∀ found s', ctx.dialect.takeTurn (ctx.moment start turns).stack.expected s = .ok found s' →
      s'.host = s.host) ∧
    ∃ chains : List (List Nat), chains.length = stack.length ∧ chains.Pairwise List.Disjoint ∧
      ∀ i bracket spine filling addresses, stack[i]? = some ⟨.list bracket spine, filling⟩ →
        chains[i]? = some addresses →
          ctx.Threads s.host addresses bracket spine filling ∧ (spine.IsSealed → i = 0) := by
  intro start stack s
  have stores := Context.stores_of_create hosts opens
  obtain ⟨frames, states⟩ := ctx.filledMoment_eq start turns
  obtain ⟨⟨chains, all, apart⟩, unsealed⟩ := stores.filledMoment_sound start turns
  refine ⟨frames.symm, states.symm, fun found s' took => ?_, chains, all.length_eq, apart, ?_⟩
  · have same := (ctx.dialect.takeTurn_hostFree (ctx.moment start turns).stack.expected).host_eq s
    rw [took] at same
    exact same
  · intro i bracket spine filling addresses frame chain
    obtain ⟨inside, frame'⟩ := List.getElem?_eq_some_iff.mp frame
    obtain ⟨inside', chain'⟩ := List.getElem?_eq_some_iff.mp chain
    have chained := (List.forall₂_iff_get.mp all).2 i inside' inside
    rw [List.get_eq_getElem, List.get_eq_getElem, frame', chain'] at chained
    refine ⟨stores.threads chained, fun isSealed => ?_⟩
    cases i with
    | zero => rfl
    | succ i =>
      have among : ⟨.list bracket spine, filling⟩ ∈ stack.tail :=
        List.mem_of_getElem? (List.getElem?_tail.trans frame)
      exact absurd isSealed (unsealed _ among)

/-- A list with its tail in place, behind the dot of another. -/
theorem open_lists_threaded_behind_dot :
    ∃ host ctx opened, (Store.host .standard).withNilAlias none Store.initial =
        .ok host Store.initial ∧
      Context.create host true Store.initial = .ok ctx opened ∧
      let start : ReadState Store := ⟨opened, .ofText "(1 #(2) . (3 . 4".toList 1 0 none, #[]⟩
      let s := (ctx.filledMoment start 10).2
      (ctx.filledMoment start 10).1 =
        [⟨.list .round (.sealed (.pair 3) (.pair 3)), ⟨[.integer 3], some (.integer 4)⟩⟩,
          ⟨.list .round (.dotted (.pair 0) (.pair 2)), ⟨[.integer 1, .vector 0], none⟩⟩] ∧
      ∃ inner outer, List.Disjoint inner outer ∧
        s.host.heap.Links inner [.integer 3] (.pair 3) (.integer 4) ∧
        s.host.heap.Links outer [.integer 1, .vector 0] (.pair 0) .nil ∧
        s.host.heap.rest (.pair 3) = .ok (.integer 4) ∧ s.host.heap.rest (.pair 2) = .ok .nil ∧
        ∃ v, ctx.close .round (.sealed (.pair 3) (.pair 3)) s = .ok v s ∧
          s.host.heap.Links inner [.integer 3] v (.integer 4) := by
  refine ⟨_, _, _, rfl, rfl, ?_⟩
  obtain ⟨-, -, -, chains, length, apart, lists⟩ := open_lists_threaded .standard none true .initial rfl rfl
    (.ofText "(1 #(2) . (3 . 4".toList 1 0 none) #[] 10
  refine (fun stack => ⟨stack, ?_⟩) (by decide +kernel)
  rw [stack] at length lists
  obtain ⟨inner, outer, rfl⟩ := List.length_eq_two.mp length
  have top := (lists 0 _ _ _ _ rfl rfl).1
  have below := (lists 1 _ _ _ _ rfl rfl).1
  obtain ⟨v, _, closed, same, links⟩ := top.closes _ rfl
  rw [same] at closed
  have disjoint := (List.pairwise_cons.mp apart).1 outer (List.mem_singleton.mpr rfl)
  exact ⟨inner, outer, disjoint, top.links, below.links, top.rest _ rfl, below.rest _ rfl, v, closed, links⟩

end SexprReader
