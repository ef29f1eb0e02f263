import SexprReader.Proofs.Store.Comments

namespace SexprReader

open ReadM Store

/-- Wherever this text comes next, all of it is taken but `rest`, and `P` holds of the value and of the
store behind it. -/
def ReadM.Takes (m : ReadM Store Value) (store : Store) (text rest : List Char)
    (P : Store → Value → Prop) : Prop :=
  ∀ s : ReadState Store, s.Stands store text →
    ∃ v s', m s = .ok v s' ∧ s'.source.remaining = rest ∧ P s'.host v

/-- Wherever this text comes next, all of it is taken but `rest`, and the fault is reported. -/
def ReadM.Refuses (m : ReadM Store Value) (store : Store) (text rest : List Char) (fault : ReadFault) :
    Prop :=
  ∀ s : ReadState Store, s.Stands store text →
    ∃ e s', m s = .error (.reading e) s' ∧ s'.source.remaining = rest ∧ e.fault = fault

theorem ReadM.Takes.mono {m : ReadM Store Value} {store : Store} {text rest : List Char}
    {P Q : Store → Value → Prop} (takes : m.Takes store text rest P)
    (onward : ∀ store v, P store v → Q store v) : m.Takes store text rest Q := by
  intro s stands
  obtain ⟨v, s', result, left, holds⟩ := takes s stands
  exact ⟨v, s', result, left, onward _ _ holds⟩

variable {ctx : Context Store Value} {conv : Convention} {table : TableId} {store later : Store}
  {text rest : List Char}

theorem Convention.serves_later (conv : Convention) {opened : Store}
    (known : table.index < store.symbols.tables.size)
    (opens : conv.context table store = .ok ctx opened) (grown : opened.Agrees 0 0 later) :
    Serves ctx conv table later :=
  (conv.serves_of_context known opens).agrees grown

namespace Serves

variable (serves : Serves ctx conv table store)

include serves

/-- A text that means a form is read as a value that stands for it, and what was there before is kept. -/
theorem takes_of_parses {d : Datum} (parses : Parses conv .form text (.ok (.form d)) rest) :
    (ctx.readForm none).Takes store text rest fun after v =>
      store.Agrees 0 store.heap.pairs.size after ∧
        Denotes table after store.heap.pairs.size after.heap.pairs.size v d := by
  intro s stands
  obtain ⟨answer, s', reached, matched, read⟩ := readForm_of_parses serves stands parses
  cases matched with
  | form denotes => exact ⟨_, s', read, reached.stands.remaining, reached.agrees, denotes⟩

theorem refuses_of_parses {fault : ReadFault}
    (parses : Parses conv .form text (.error (.fault fault)) rest) :
    (ctx.readForm none).Refuses store text rest fault := by
  intro s stands
  obtain ⟨answer, s', reached, matched, read⟩ := readForm_of_parses serves stands parses
  cases matched with
  | error => exact ⟨_, s', read, reached.stands.remaining, rfl⟩

end Serves

end SexprReader
