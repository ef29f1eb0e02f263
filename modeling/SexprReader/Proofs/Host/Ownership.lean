import Mathlib.Data.List.Pairwise
import SexprReader.Proofs.Host.CallLog

/-! A reader builds a list by setting the rest of its last pair. Each pair is changed once at most,
and only as long as nobody but the reader has the list. The invariant ties the lists that are open
to the calls made so far: the reader has handed over neither head nor last pair of an open list. -/

namespace SexprReader

open ReadM CallLog

variable {σ V : Type}

structure OpenList (V : Type) where
  head : V
  last : V
  isSealed : Bool

def OpenList.Has (list : OpenList V) (v : V) : Prop := v = list.head ∨ v = list.last

def OpenList.Apart (list other : OpenList V) : Prop := ∀ v, list.Has v → ¬other.Has v

instance : Std.Symm (@OpenList.Apart V) := ⟨fun _ _ apart v has has' => apart v has' has⟩

def Spine.lists : Spine V → List (OpenList V)
  | .empty => []
  | .growing head last | .dotted head last => [⟨head, last, false⟩]
  | .sealed head last => [⟨head, last, true⟩]

def Frame.lists : Frame V → List (OpenList V)
  | .list _ spine => spine.lists
  | .quoted _ _ | .datumComment => []

def Stack.lists (stack : Stack V) : List (OpenList V) := stack.flatMap Frame.lists

/-- What has been seen of a reader so far. -/
structure Past (V : Type) where
  /-- A list with this head was open when its last pair was this one. -/
  lists : V → V → Prop
  returned : V → Nat → Prop

/-- What the calls so far have done with an open list: nothing that leaves it to others. -/
structure Owned (nil : V) (past : Past V) (log : CallLog V) (list : OpenList V) : Prop where
  head_made : MadeOver log nil list.head
  head_kept : ¬HandedOver log list.head
  head_unreturned : ∀ count, ¬past.returned list.head count
  last_made : MadeOver log nil list.last
  last_unpaired : ∀ first result, ⟨.makePair first list.last, result⟩ ∉ log
  last_unchanged : list.isSealed = false → ¬Changed log list.last
  head_eq : ∀ head, past.lists head list.last → head = list.head

structure OwnsAll (nil : V) (past : Past V) (log : CallLog V) (lists : List (OpenList V)) : Prop where
  owned : ∀ list ∈ lists, Owned nil past log list
  apart : lists.Pairwise OpenList.Apart

structure Loose (constants : List V) (log : CallLog V) (lists : List (OpenList V)) (v : V) : Prop where
  known : Known constants log v
  free : ∀ list ∈ lists, ¬list.Has v

structure Untouched (nil : V) (past : Past V) (log : CallLog V) (pair : V) : Prop where
  made : MadeOver log nil pair
  kept : ¬HandedOver log pair
  unchanged : ¬Changed log pair
  unreturned : ∀ count, ¬past.returned pair count
  unlisted : ∀ head, ¬past.lists head pair

structure Orderly (ctx : Context σ V) (past : Past V) (log : CallLog V) : Prop where
  arguments : ∀ record ∈ log, ∀ v ∈ record.call.arguments, Known ctx.host.constants log v
  symbols : ∀ mark, ∃ name, ⟨.internSymbol name, some (ctx.quoteSymbol mark)⟩ ∈ log
  returned : ∀ v count, past.returned v count → Known ctx.host.constants log v
  listed : ∀ head last, past.lists head last → Known ctx.host.constants log last
  unique : ∀ head head' last, past.lists head last → past.lists head' last → head = head'
  /-- A pair is changed for the first time, when its list has not been left to others. -/
  sets : ∀ (i : Nat) (pair rest : V) (result : Option V),
    log[i]? = some ⟨.setRest pair rest, result⟩ →
      MadeOver (log.take i) ctx.host.nil pair ∧ ¬Changed (log.take i) pair ∧
        ∃ head, past.lists head pair ∧ ¬HandedOver (log.take i) head ∧
          ∀ count, past.returned head count → i < count
  /-- Only a quote makes a pair over another, and that other pair is never changed. -/
  quotes : ∀ (first rest : V) (result : Option V), ⟨.makePair first rest, result⟩ ∈ log →
    rest ≠ ctx.host.nil →
      (∃ mark, first = ctx.quoteSymbol mark) ∧ MadeOver log ctx.host.nil rest ∧ ¬Changed log rest

section

variable {nil : V} {past : Past V} {log : CallLog V} {record : CallRecord V}

namespace Owned

variable {list : OpenList V}

theorem made_of_has {v : V} (owned : Owned nil past log list) (has : list.Has v) : Made log v := by
  obtain rfl | rfl := has
  · exact owned.head_made.made
  · exact owned.last_made.made

theorem concat (owned : Owned nil past log list)
    (spared : ∀ v ∈ record.call.arguments, ¬list.Has v) :
    Owned nil past (log ++ [record]) list where
  head_made := owned.head_made.grow (List.prefix_append _ _)
  head_kept := by
    rw [handedOver_concat]
    rintro (earlier | now)
    · exact owned.head_kept earlier
    · exact spared _ (Call.mem_arguments_of_handsOver now) (.inl rfl)
  head_unreturned := owned.head_unreturned
  last_made := owned.last_made.grow (List.prefix_append _ _)
  last_unpaired first result member := by
    obtain earlier | now := List.mem_append.mp member
    · exact owned.last_unpaired first result earlier
    · cases List.mem_singleton.mp now
      exact spared list.last (by simp [Call.arguments]) (.inr rfl)
  last_unchanged unsealed := by
    rw [changed_concat]
    rintro (earlier | ⟨rest, now⟩)
    · exact owned.last_unchanged unsealed earlier
    · exact spared list.last (by simp [now, Call.arguments]) (.inr rfl)
  head_eq := owned.head_eq

end Owned

namespace OwnsAll

variable {lists : List (OpenList V)} {list : OpenList V}

theorem concat (owns : OwnsAll nil past log lists)
    (spared : ∀ v ∈ record.call.arguments, ∀ list ∈ lists, ¬list.Has v) :
    OwnsAll nil past (log ++ [record]) lists where
  owned list member := (owns.owned list member).concat fun v argument => spared v argument list member
  apart := owns.apart

theorem none_open (nil : V) (past : Past V) (log : CallLog V) : OwnsAll nil past log [] :=
  ⟨nofun, .nil⟩

theorem cons (owned : Owned nil past log list) (owns : OwnsAll nil past log lists)
    (apart : ∀ other ∈ lists, list.Apart other) : OwnsAll nil past log (list :: lists) where
  owned := List.forall_mem_cons.mpr ⟨owned, owns.owned⟩
  apart := List.pairwise_cons.mpr ⟨apart, owns.apart⟩

theorem head (owns : OwnsAll nil past log (list :: lists)) : Owned nil past log list :=
  owns.owned list List.mem_cons_self

theorem head_apart (owns : OwnsAll nil past log (list :: lists)) :
    ∀ other ∈ lists, list.Apart other := (List.pairwise_cons.mp owns.apart).1

theorem tail (owns : OwnsAll nil past log (list :: lists)) : OwnsAll nil past log lists where
  owned other member := owns.owned other (List.mem_cons_of_mem _ member)
  apart := (List.pairwise_cons.mp owns.apart).2

theorem eq_of_last (owns : OwnsAll nil past log lists) {other : OpenList V} (member : list ∈ lists)
    (member' : other ∈ lists) (same : list.last = other.last) : list = other := by
  by_contra different
  exact owns.apart.forall member member' different list.last (.inr rfl) (.inr same)

end OwnsAll

theorem Untouched.owned {pair : V} (untouched : Untouched nil past log pair) :
    Owned nil past log ⟨pair, pair, false⟩ where
  head_made := untouched.made
  head_kept := untouched.kept
  head_unreturned := untouched.unreturned
  last_made := untouched.made
  last_unpaired first result member :=
    untouched.kept ⟨_, member, by simp [Call.handsOver]⟩
  last_unchanged _ := untouched.unchanged
  head_eq head listed := absurd listed (untouched.unlisted head)

end

section

variable {ctx : Context σ V} {past : Past V} {log : CallLog V} {lists : List (OpenList V)}

namespace Orderly

theorem concat (orderly : Orderly ctx past log) {record : CallRecord V}
    (known : ∀ v ∈ record.call.arguments, Known ctx.host.constants log v)
    (sets : ∀ pair rest, record.call = .setRest pair rest →
      ∃ head, past.lists head pair ∧ Owned ctx.host.nil past log ⟨head, pair, false⟩)
    (quotes : ∀ first rest, record.call = .makePair first rest → rest ≠ ctx.host.nil →
      (∃ mark, first = ctx.quoteSymbol mark) ∧ MadeOver log ctx.host.nil rest ∧ ¬Changed log rest) :
    Orderly ctx past (log ++ [record]) where
  arguments other member v argument := by
    have grows : log <+: log ++ [record] := List.prefix_append _ _
    obtain earlier | now := List.mem_append.mp member
    · exact (orderly.arguments other earlier v argument).grow grows
    · cases List.mem_singleton.mp now
      exact (known v argument).grow grows
  symbols mark := by
    obtain ⟨name, member⟩ := orderly.symbols mark
    exact ⟨name, List.mem_append_left _ member⟩
  returned v count was := (orderly.returned v count was).grow (List.prefix_append _ _)
  listed head last was := (orderly.listed head last was).grow (List.prefix_append _ _)
  unique := orderly.unique
  sets i pair rest result found := by
    -- The change of a rest is an earlier call, or it is the new one behind the whole log.
    obtain inside | outside := Nat.lt_or_ge i log.length
    · rw [List.getElem?_append_left inside] at found
      rw [List.take_append_of_le_length (Nat.le_of_lt inside)]
      exact orderly.sets i pair rest result found
    · rw [List.getElem?_append_right outside] at found
      obtain ⟨at_end, rfl⟩ : i - log.length = 0 ∧ record = ⟨.setRest pair rest, result⟩ := by
        simpa [List.getElem?_singleton] using found
      obtain ⟨head, listed, owned⟩ := sets pair rest rfl
      have all : i = log.length := by omega
      subst all
      rw [List.take_left]
      exact ⟨owned.last_made, owned.last_unchanged rfl, head, listed, owned.head_kept,
        fun count was => absurd was (owned.head_unreturned count)⟩
  quotes first rest result member linked := by
    have grows : log <+: log ++ [record] := List.prefix_append _ _
    obtain earlier | now := List.mem_append.mp member
    · obtain ⟨mark, made, unchanged⟩ := orderly.quotes first rest result earlier linked
      refine ⟨mark, made.grow grows, ?_⟩
      rw [changed_concat]
      rintro (changed | ⟨new, call⟩)
      · exact unchanged changed
      · obtain ⟨head, -, owned⟩ := sets rest new call
        exact owned.last_unpaired first result earlier
    · cases List.mem_singleton.mp now
      obtain ⟨mark, made, unchanged⟩ := quotes first rest rfl linked
      refine ⟨mark, made.grow grows, ?_⟩
      rw [changed_concat]
      rintro (changed | ⟨new, call⟩)
      · exact unchanged changed
      · cases call

end Orderly

end

structure Safe (ctx : Context σ V) (past : Past V) (lists : List (OpenList V)) (log : CallLog V) :
    Prop where
  orderly : Orderly ctx past log
  owns : OwnsAll ctx.host.nil past log lists

namespace Safe

variable {ctx : Context σ V} {past : Past V} {log : CallLog V} {lists outer : List (OpenList V)}

section

variable (safe : Safe ctx past lists log) (distinct : DistinctPairs ctx.host.constants log)

include safe distinct

theorem loose_of_constant {v : V} (constant : v ∈ ctx.host.constants) :
    Loose ctx.host.constants log lists v where
  known := .inl constant
  free list member has :=
    distinct.not_constant ((safe.owns.owned list member).made_of_has has) constant

theorem loose_nil : Loose ctx.host.constants log lists ctx.host.nil :=
  safe.loose_of_constant distinct (by simp [Host.constants])

theorem loose_symbol (mark : QuoteMark) :
    Loose ctx.host.constants log lists (ctx.quoteSymbol mark) := by
  obtain ⟨name, interned⟩ := safe.orderly.symbols mark
  refine ⟨.inr ⟨_, interned, rfl⟩, fun list member has => ?_⟩
  have made := (safe.owns.owned list member).made_of_has has
  have argument := distinct.mem_arguments made interned (by simp [Call.operation]) rfl
  simp [Call.arguments] at argument

end

theorem call (safe : Safe ctx past lists log) {call : Call V}
    (loose : ∀ v ∈ call.arguments, Loose ctx.host.constants log lists v)
    (makes : call.operation ≠ .makePair) (sets : call.operation ≠ .setRest) (result : Option V) :
    Safe ctx past lists (log ++ [⟨call, result⟩]) where
  orderly := by
    refine safe.orderly.concat (fun v argument => (loose v argument).known) ?_ ?_
    · rintro pair rest rfl
      exact absurd rfl sets
    · rintro first rest rfl
      exact absurd rfl makes
  owns := safe.owns.concat fun v argument => (loose v argument).free

theorem loose_of_result (safe : Safe ctx past lists log) {call : Call V} {v : V}
    (loose : ∀ v ∈ call.arguments, Loose ctx.host.constants log lists v)
    (makes : call.operation ≠ .makePair)
    (told : Distinguishes ctx.host.constants log ⟨call, some v⟩) :
    Loose ctx.host.constants (log ++ [⟨call, some v⟩]) lists v where
  known := .inr ⟨⟨call, some v⟩, by simp, rfl⟩
  free list member has := by
    have told := told v rfl
    rw [if_neg makes] at told
    have argument := told ((safe.owns.owned list member).made_of_has has)
    exact (loose v argument).free list member has

theorem makePair (safe : Safe ctx past lists log) {first rest : V}
    (loose : Loose ctx.host.constants log lists first)
    (loose' : Loose ctx.host.constants log lists rest)
    (quotes : rest ≠ ctx.host.nil →
      (∃ mark, first = ctx.quoteSymbol mark) ∧ MadeOver log ctx.host.nil rest ∧ ¬Changed log rest)
    (result : Option V) : Safe ctx past lists (log ++ [⟨.makePair first rest, result⟩]) where
  orderly := by
    refine safe.orderly.concat ?_ ?_ ?_
    · simp [Call.arguments, loose.known, loose'.known]
    · rintro pair rest call
      cases call
    · rintro first' rest' call
      cases call
      exact quotes
  owns := by
    apply safe.owns.concat
    intro v argument
    obtain rfl | rfl : v = first ∨ v = rest := by simpa [Call.arguments] using argument
    · exact loose.free
    · exact loose'.free

theorem loose_of_made (safe : Safe ctx past lists log) {first rest pair : V}
    (fresh : ¬Known ctx.host.constants log pair) :
    Loose ctx.host.constants (log ++ [⟨.makePair first rest, some pair⟩]) lists pair where
  known := .inr ⟨⟨.makePair first rest, some pair⟩, by simp, rfl⟩
  free list member has := fresh ((safe.owns.owned list member).made_of_has has).known

theorem untouched_of_made (safe : Safe ctx past lists log) {first pair : V}
    (known : Known ctx.host.constants log first)
    (fresh : ¬Known ctx.host.constants log pair) :
    Untouched ctx.host.nil past (log ++ [⟨.makePair first ctx.host.nil, some pair⟩]) pair where
  made := ⟨first, by simp⟩
  kept := by
    rw [handedOver_concat]
    rintro (⟨record, member, handed⟩ | now)
    · exact fresh (safe.orderly.arguments record member pair (Call.mem_arguments_of_handsOver handed))
    · obtain rfl | rfl : pair = first ∨ pair = ctx.host.nil := by
        simpa [Call.handsOver] using now
      · exact fresh known
      · exact fresh (.inl (by simp [Host.constants]))
  unchanged := by
    rw [changed_concat]
    rintro (⟨rest, result, member⟩ | ⟨rest, now⟩)
    · exact fresh (safe.orderly.arguments _ member pair (by simp [Call.arguments]))
    · cases now
  unreturned count was := fresh (safe.orderly.returned pair count was)
  unlisted head was := fresh (safe.orderly.listed head pair was)

section

variable {head last new : V} (safe : Safe ctx past (⟨head, last, false⟩ :: outer) log)
  (loose : Loose ctx.host.constants log (⟨head, last, false⟩ :: outer) new) (result : Option V)

include safe loose

theorem setRest_orderly (listed : past.lists head last) :
    Orderly ctx past (log ++ [⟨.setRest last new, result⟩]) := by
  refine safe.orderly.concat ?_ ?_ ?_
  · simp [Call.arguments, loose.known, safe.owns.head.last_made.made.known]
  · rintro pair rest call
    cases call
    exact ⟨head, listed, safe.owns.head⟩
  · rintro first rest call
    cases call

theorem setRest_owns : OwnsAll ctx.host.nil past (log ++ [⟨.setRest last new, result⟩]) outer := by
  apply safe.owns.tail.concat
  intro v argument list member
  obtain rfl | rfl : v = last ∨ v = new := by simpa [Call.arguments] using argument
  · exact safe.owns.head_apart list member v (.inr rfl)
  · exact loose.free list (List.mem_cons_of_mem _ member)

theorem setRest_kept : ¬HandedOver (log ++ [⟨.setRest last new, result⟩]) head := by
  rw [handedOver_concat]
  rintro (earlier | now)
  · exact safe.owns.head.head_kept earlier
  · obtain rfl : head = new := by simpa [Call.handsOver] using now
    exact loose.free _ List.mem_cons_self (.inl rfl)

theorem setTail (listed : past.lists head last) :
    Safe ctx past (⟨head, last, true⟩ :: outer) (log ++ [⟨.setRest last new, result⟩]) where
  orderly := safe.setRest_orderly loose result listed
  owns := by
    have owned := safe.owns.head
    have grows : log <+: log ++ [⟨.setRest last new, result⟩] := List.prefix_append _ _
    refine .cons ?_ (safe.setRest_owns loose result) safe.owns.head_apart
    exact {
      head_made := owned.head_made.grow grows
      head_kept := safe.setRest_kept loose result
      head_unreturned := owned.head_unreturned
      last_made := owned.last_made.grow grows
      last_unpaired := by simpa using owned.last_unpaired
      last_unchanged := by simp
      head_eq := owned.head_eq }

theorem setNext (listed : past.lists head last) (untouched : Untouched ctx.host.nil past log new) :
    Safe ctx past (⟨head, new, false⟩ :: outer) (log ++ [⟨.setRest last new, result⟩]) where
  orderly := safe.setRest_orderly loose result listed
  owns := by
    have owned := safe.owns.head
    have grows : log <+: log ++ [⟨.setRest last new, result⟩] := List.prefix_append _ _
    refine .cons ?_ (safe.setRest_owns loose result) ?_
    · exact {
        head_made := owned.head_made.grow grows
        head_kept := safe.setRest_kept loose result
        head_unreturned := owned.head_unreturned
        last_made := untouched.made.grow grows
        last_unpaired := by simpa using untouched.owned.last_unpaired
        last_unchanged := fun _ => by
          rw [changed_concat]
          rintro (earlier | ⟨rest, now⟩)
          · exact untouched.unchanged earlier
          · cases now
            exact loose.free _ List.mem_cons_self (.inr rfl)
        head_eq := fun other was => absurd was (untouched.unlisted other) }
    · intro list member v has
      obtain rfl | rfl := has
      · exact safe.owns.head_apart list member _ (.inl rfl)
      · exact loose.free list (List.mem_cons_of_mem _ member)

end

theorem begin_list (safe : Safe ctx past lists log) {pair : V}
    (loose : Loose ctx.host.constants log lists pair)
    (untouched : Untouched ctx.host.nil past log pair) :
    Safe ctx past (⟨pair, pair, false⟩ :: lists) log where
  orderly := safe.orderly
  owns := by
    refine .cons untouched.owned safe.owns fun other member v has => ?_
    obtain rfl | rfl := has
    · exact loose.free other member
    · exact loose.free other member

theorem close {list : OpenList V} (safe : Safe ctx past (list :: outer) log) :
    Safe ctx past outer log ∧ Loose ctx.host.constants log outer list.head :=
  ⟨⟨safe.orderly, safe.owns.tail⟩, safe.owns.head.head_made.made.known,
    fun other member => safe.owns.head_apart other member list.head (.inl rfl)⟩

end Safe

def Past.none : Past V := ⟨fun _ _ => False, fun _ _ => False⟩

def Past.behind (past : Past V) (moment : Moment (Recorded σ V) V) : Past V where
  lists head last := past.lists head last ∨
    ∃ list ∈ moment.stack.lists, list.head = head ∧ list.last = last
  returned v count := past.returned v count ∨
    moment.returned = some v ∧ moment.state.log.length = count

section

variable {past : Past V} {moment : Moment (Recorded σ V) V}

theorem OwnsAll.behind {nil : V} (owns : OwnsAll nil past moment.state.log moment.stack.lists)
    (ends : moment.returned = .none ∨ moment.stack = []) :
    OwnsAll nil (past.behind moment) moment.state.log moment.stack.lists where
  owned list member := by
    have owned := owns.owned list member
    refine { owned with head_unreturned := ?_, head_eq := ?_ }
    · rintro count (earlier | ⟨now, -⟩)
      · exact owned.head_unreturned count earlier
      · obtain none | empty := ends
        · simp [none] at now
        · simp [empty, Stack.lists] at member
    · rintro head (earlier | ⟨other, member', rfl, same⟩)
      · exact owned.head_eq head earlier
      · rw [owns.eq_of_last member member' same.symm]
  apart := owns.apart

theorem Orderly.behind {ctx : Context σ V} (orderly : Orderly ctx past moment.state.log)
    (owns : OwnsAll ctx.host.nil past moment.state.log moment.stack.lists)
    (known : ∀ v, moment.returned = some v → Known ctx.host.constants moment.state.log v) :
    Orderly ctx (past.behind moment) moment.state.log where
  arguments := orderly.arguments
  symbols := orderly.symbols
  returned := by
    rintro v count (earlier | ⟨now, -⟩)
    · exact orderly.returned v count earlier
    · exact known v now
  listed := by
    rintro head last (earlier | ⟨list, member, -, rfl⟩)
    · exact orderly.listed head last earlier
    · exact (owns.owned list member).last_made.made.known
  unique := by
    rintro head head' last (earlier | ⟨list, member, rfl, rfl⟩) (earlier' | ⟨other, member', rfl, same⟩)
    · exact orderly.unique head head' last earlier earlier'
    · exact (owns.owned other member').head_eq head (same ▸ earlier)
    · exact ((owns.owned list member).head_eq head' earlier').symm
    · rw [owns.eq_of_last member member' same.symm]
  sets i pair rest result found := by
    obtain ⟨made, unchanged, head, listed, kept, unreturned⟩ := orderly.sets i pair rest result found
    refine ⟨made, unchanged, head, .inl listed, kept, ?_⟩
    rintro count (earlier | ⟨-, rfl⟩)
    · exact unreturned count earlier
    · exact (List.getElem?_eq_some_iff.mp found).1
  quotes := orderly.quotes

end

end SexprReader
