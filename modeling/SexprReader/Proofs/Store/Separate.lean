import SexprReader.Proofs.Host.CallLog
import SexprReader.Proofs.Store.Planted
import SexprReader.Proofs.Value.Compared

namespace SexprReader

open ReadM Store

/-- The read behind so many others returns a form. -/
def Context.Returns {σ V : Type} (ctx : Context σ V) (start : ReadState σ) (reads : Nat) (form : V) :
    Prop :=
  ∃ s, ctx.readForm none (ctx.afterReads start reads) = .ok form s

theorem Context.returns_of_outcome {σ V : Type} {ctx : Context σ V} {start : ReadState σ} {reads : Nat}
    {form : V} (returned : outcome (ctx.readForm none (ctx.afterReads start reads)) = .ok form) :
    ctx.Returns start reads form := by
  cases read : ctx.readForm none (ctx.afterReads start reads) with
  | ok v s =>
    rw [read] at returned
    cases returned
    exact ⟨s, read⟩
  | error e s =>
    rw [read] at returned
    cases returned

namespace Context

variable {ctx : Context Store Value} {options : StoreOptions}

theorem stores_of_create {nilAlias : Option String} {bracketLists : Bool} {store ready opened : Store}
    {host : Host Store Value} (hosts : (Store.host options).withNilAlias nilAlias store = .ok host ready)
    (opens : create host bracketLists ready = .ok ctx opened) : ctx.Stores options := by
  have plain : host = { Store.host options with nilSymbol? := host.nilSymbol? } := by
    cases nilAlias with
    | none =>
      cases hosts
      rfl
    | some name =>
      obtain ⟨symbol, s, -, hosts⟩ := HostM.exists_of_bind_ok hosts
      cases hosts
      rfl
  have interns {name : String} {s s' : Store} {v : Value}
      (interned : host.internSymbol name s = .ok v s') : v.IsAtom := by
    rw [plain] at interned
    cases interned
    trivial
  obtain ⟨dot, s₁, -, opens⟩ := HostM.exists_of_bind_ok opens
  obtain ⟨quote, s₂, quotes, opens⟩ := HostM.exists_of_bind_ok opens
  obtain ⟨quasiquote, s₃, quasiquotes, opens⟩ := HostM.exists_of_bind_ok opens
  obtain ⟨unquote, s₄, unquotes, opens⟩ := HostM.exists_of_bind_ok opens
  obtain ⟨splicing, s₅, splicings, opens⟩ := HostM.exists_of_bind_ok opens
  cases opens
  refine ⟨plain, fun mark => ?_⟩
  cases mark with
  | quote => exact interns quotes
  | quasiquote => exact interns quasiquotes
  | unquote => exact interns unquotes
  | unquoteSplicing => exact interns splicings

namespace Stores

variable (stores : ctx.Stores options) (start : ReadState Store)

include stores

theorem afterReads_agrees {reads reads' : Nat} (le : reads ≤ reads') :
    Agrees 0 (ctx.afterReads start reads).host.heap.pairs.size (ctx.afterReads start reads).host
      (ctx.afterReads start reads').host := by
  induction le with
  | refl => exact .refl _ _ _
  | @step reads' le ih =>
    have next := stores.readForm_ensures (ctx.afterReads start reads') rfl
    rw [afterReads]
    cases read : ctx.readForm none (ctx.afterReads start reads') with
    | ok form s =>
      rw [read] at next
      exact ih.trans (next.1.narrow (Nat.le_refl _) ih.size)
    | error e s =>
      rw [read] at next
      exact ih.trans (next.narrow (Nat.le_refl _) ih.size)

theorem spans_of_returns {reads reads' : Nat} {v : Value} (returns : ctx.Returns start reads v)
    (le : reads < reads') :
    (ctx.afterReads start reads').host.heap.Spans (ctx.afterReads start reads).host.heap.pairs.size
      (ctx.afterReads start (reads + 1)).host.heap.pairs.size v := by
  obtain ⟨s, read⟩ := returns
  have ensured := stores.readForm_ensures (ctx.afterReads start reads) rfl
  have later := stores.afterReads_agrees start (Nat.succ_le_of_lt le)
  rw [read] at ensured
  have reached : ctx.afterReads start (reads + 1) = s := by
    rw [afterReads, read]
    rfl
  rw [Nat.succ_eq_add_one, reached] at later
  rw [reached]
  exact ensured.2.agrees (later.narrow (Nat.zero_le _) (Nat.le_refl _))

end Stores

end Context

/-- Forms read from one source are trees. Each pair is reached in one way, from one of the forms, and
never from itself, so that listing, comparing and writing the forms comes to an end. -/
theorem forms_are_trees (options : StoreOptions) (nilAlias : Option String) (bracketLists : Bool)
    (store : Store) {ready opened : Store} {host : Host Store Value} {ctx : Context Store Value}
    (hosts : (Store.host options).withNilAlias nilAlias store = .ok host ready)
    (opens : Context.create host bracketLists ready = .ok ctx opened) (source : Source)
    (trace : Array Event) (reads : Nat) :
    let start : ReadState Store := ⟨opened, source, trace⟩
    let heap := (ctx.afterReads start reads).host.heap
    (∀ i < reads, ∀ j < reads, ∀ v w, ctx.Returns start i v → ctx.Returns start j w →
      ∀ path path' address, heap.follow v path = some (.pair address) →
        heap.follow w path' = some (.pair address) → i = j ∧ path = path') ∧
    ∀ i < reads, ∀ v, ctx.Returns start i v →
      (∀ path path' address, heap.follow v path = some (.pair address) →
        heap.follow (.pair address) path' = some (.pair address) → path' = []) ∧
      heap.toList v ≠ .error .cyclic ∧ heap.isProper v ≠ .error .cyclic ∧
      (∀ limit, heap.write v limit ≠ .error .cyclic) ∧
      ∀ w limit, heap.equal v w limit ≠ .error .cyclic := by
  intro start heap
  have stores := Context.stores_of_create hosts opens
  have spans {i : Nat} {v : Value} (earlier : i < reads) (returns : ctx.Returns start i v) :=
    stores.spans_of_returns start returns earlier
  constructor
  · intro i first j second v w returns returns' path path' address leads leads'
    -- The reads have made their pairs one behind another.
    have apart {i j : Nat} (before : i < j) := (stores.afterReads_agrees start before).size
    have inside := (spans first returns).range leads
    have inside' := (spans second returns').range leads'
    obtain before | rfl | behind := Nat.lt_trichotomy i j
    · have order := apart before
      rw [Nat.succ_eq_add_one] at order
      omega
    · obtain ⟨s, read⟩ := returns
      obtain ⟨s', read'⟩ := returns'
      rw [read] at read'
      cases read'
      exact ⟨rfl, (spans first ⟨s, read⟩).path_unique leads leads'⟩
    · have order := apart behind
      rw [Nat.succ_eq_add_one] at order
      omega
  · intro i earlier v returns
    have tree := spans earlier returns
    obtain ⟨t, unfolds⟩ := tree.exists_unfolds
    refine ⟨fun path path' address leads returns => ?_, unfolds.toList_ne_cyclic,
      unfolds.isProper_ne_cyclic, unfolds.write_ne_cyclic, unfolds.equal_ne_cyclic⟩
    have around : heap.follow v (path ++ path') = some (.pair address) := by
      rw [Heap.follow_append, leads]
      exact returns
    exact List.append_right_eq_self.mp (tree.path_unique around leads)

/-- A discarded datum in the first form, and an unfinished list between the two forms. -/
theorem forms_are_trees_around_error :
    ∃ host ctx opened, (Store.host .standard).withNilAlias none Store.initial =
        .ok host Store.initial ∧
      Context.create host true Store.initial = .ok ctx opened ∧
      let source : Source := .ofText "(a #;(b) #((c))) (d . ) '((e) f . g)".toList 1 0 none
      let start : ReadState Store := ⟨opened, source, #[]⟩
      let heap := (ctx.afterReads start 3).host.heap
      ctx.Returns start 0 (.pair 0) ∧ ctx.Returns start 2 (.pair 10) ∧
        outcome (ctx.readForm none (ctx.afterReads start 1)) =
          .error (.reading ⟨.unexpectedCharacter ')', some 1, some 23, none⟩) ∧
        heap.write (.pair 0) 2 = .ok "(a #((c)))" ∧
        heap.write (.pair 10) 0 = .ok "(quote ((e) f . g))" ∧
        heap.follow (.pair 0) [.rest, .first, .element 0] = some (.pair 2) ∧
        (∀ path, heap.follow (.pair 10) path ≠ some (.pair 2)) ∧
        ∀ w limit, heap.equal (.pair 0) w limit ≠ .error .cyclic := by
  refine ⟨_, _, _, rfl, rfl, ?_⟩
  have trees := forms_are_trees .standard none true .initial rfl rfl
    (.ofText "(a #;(b) #((c))) (d . ) '((e) f . g)".toList 1 0 none) #[] 3
  have apart := trees.1 0 (by decide) 2 (by decide) (.pair 0) (.pair 10)
    (Context.returns_of_outcome (by decide +kernel)) (Context.returns_of_outcome (by decide +kernel))
    [.rest, .first, .element 0]
  have ends := trees.2 0 (by decide) (.pair 0) (Context.returns_of_outcome (by decide +kernel))
  refine ⟨Context.returns_of_outcome (by decide +kernel),
    Context.returns_of_outcome (by decide +kernel), by decide +kernel, by decide +kernel,
    by decide +kernel, by decide +kernel, fun path leads => ?_, ends.2.2.2.2⟩
  exact absurd (apart path 2 (by decide +kernel) leads).1 (by decide)

end SexprReader
