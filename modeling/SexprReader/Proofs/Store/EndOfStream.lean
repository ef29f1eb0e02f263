import SexprReader.Proofs.Grammar.Contents
import SexprReader.Proofs.Reader.Progress
import SexprReader.Proofs.Store.Readings
import SexprReader.Proofs.Store.Spans

namespace SexprReader

open Store

variable {conv : Convention} {table : TableId} {store : Store}

/-- Wherever a path leads in a value, there is a part of the datum that the value stands for. -/
theorem Denotes.exists_of_follow {lo hi : Nat} {v w : Value} {d : Datum}
    (denotes : Denotes table store lo hi v d) {path : List Heap.Toward}
    (leads : store.heap.follow v path = some w) :
    ∃ e : Datum, e.PartOf d ∧ Denotes table store lo hi w e := by
  induction path generalizing v d with
  | nil =>
    cases leads
    exact ⟨d, .refl, denotes⟩
  | cons step path ih =>
    obtain ⟨u, part, onward⟩ := Heap.follow_cons_eq_some.mp leads
    cases denotes with
    | pair cell _ _ firsts rests =>
      obtain ⟨-, rfl⟩ | ⟨-, rfl⟩ := Heap.part?_pair cell part
      · obtain ⟨e, inside, denotes⟩ := ih firsts onward
        exact ⟨e, .first inside, denotes⟩
      · obtain ⟨e, inside, denotes⟩ := ih rests onward
        exact ⟨e, .rest inside, denotes⟩
    | @vector _ values ds elements length each =>
      obtain ⟨i, -, found⟩ := Heap.part?_vector elements part
      obtain ⟨inside, -⟩ := List.getElem?_eq_some_iff.mp found
      obtain ⟨d, found'⟩ : ∃ d, ds[i]? = some d := ⟨_, List.getElem?_eq_getElem (length ▸ inside)⟩
      obtain ⟨e, inside', denotes⟩ := ih (each i u d found found') onward
      exact ⟨e, .element (List.mem_of_getElem? found') inside', denotes⟩
    | _ => cases step <;> cases part

theorem DenotesAll.exists_of_mem {lo hi : Nat} {values : List Value} {ds : List Datum}
    (all : DenotesAll table store lo hi values ds) {v : Value} (member : v ∈ values) :
    ∃ d ∈ ds, Denotes table store lo hi v d := by
  induction all with
  | nil => cases member
  | @cons w d values ds first _ ih =>
    rcases List.mem_cons.mp member with rfl | later
    · exact ⟨d, List.mem_cons_self .., first⟩
    · obtain ⟨e, member', denotes⟩ := ih later
      exact ⟨e, List.mem_cons_of_mem _ member', denotes⟩

theorem Convention.follow_ne_endOfStream (known : table.index < store.symbols.tables.size)
    {source : Source} (ending : source.ending = .endOfInput) {form : Value}
    (member : form ∈ (conv.reading table store source).forms) (path : List Heap.Toward) :
    (conv.reading table store source).final.host.heap.follow form path ≠
      some (.sentinel .endOfStream) := by
  obtain ⟨ds, obstacle, rest, all⟩ := ParsesAll.total conv source.remaining
  obtain ⟨values, final, reads, -, denotes, -⟩ := conv.reading_of_parsesAll all ending known
  rw [reads] at member ⊢
  intro leads
  obtain ⟨d, member', denotes⟩ := DenotesAll.exists_of_mem denotes member
  obtain ⟨e, inside, mark⟩ := denotes.exists_of_follow leads
  cases mark
  exact all.every conv.admits_ne_endOfStream d member' _ inside rfl

/-- Reads make progress. From any state of a source that just ends, whatever was read before and however it
went, a read comes to an end, and it consumes something unless it comes to the end of input, where it stays.
So there are at most as many forms as characters, and over a store none of them contains the mark of the
end. The host has to return the symbols that it is asked for, and to know its mark. -/
theorem reading_progress {σ V : Type} (host : Host σ V)
    (normal : ∀ name h, ∃ v h', host.internSymbol name h = .ok v h')
    (identity : host.eq host.endOfStream host.endOfStream = true) (bracketLists : Bool) (state : σ)
    (conv : Convention) (table : TableId) (store : Store)
    (known : table.index < store.symbols.tables.size) (text : List Char) (line column : Int)
    (name : Option String) :
    ∃ ctx opened, Context.create host bracketLists state = .ok ctx opened ∧
      (∀ s : ReadState σ, s.source.ending = .endOfInput → ∃ turns result, ctx.ReadsOnward s turns result) ∧
      (let source : Source := .ofText text line column name
        let reading := readAll host ⟨bracketLists, none⟩ state source
        ctx.ReadsOut ⟨opened, source, #[]⟩ reading ∧ reading.forms.length ≤ text.length) ∧
      let reading := conv.reading table store (.ofText text line column name)
      ∀ form ∈ reading.forms, ∀ path,
        reading.final.host.heap.follow form path ≠ some (.sentinel .endOfStream) := by
  obtain ⟨ctx, opened, creates, same⟩ := Context.exists_create normal bracketLists state
  refine ⟨ctx, opened, creates, fun s ending => ctx.exists_readsOnward ending, ?_, ?_⟩
  · intro source reading
    have reads : reading = ctx.readForms none ⟨opened, source, #[]⟩ :=
      readAll_of_create creates none source
    rw [reads]
    exact Context.readsOut_readForms (by rw [same, identity]) rfl
  · intro reading form member path
    exact Convention.follow_ne_endOfStream known rfl member path

/-- Datum comments that wait for a form, and a quote whose form does not come. -/
theorem reading_progress_dangling :
    let host := Store.host .standard
    let text := "(a #;b) #;#;#e1 '#;c".toList
    let source : Source := .ofText text 1 0 none
    let reading := readAll host ⟨true, none⟩ .initial source
    let reading' := Convention.reading ⟨true, false, none⟩ .shared .initial source
    host.eq host.endOfStream host.endOfStream = true ∧
      TableId.shared.index < Store.initial.symbols.tables.size ∧
      ∃ ctx opened, Context.create host true Store.initial = .ok ctx opened ∧
        (∀ s : ReadState Store, s.source.ending = .endOfInput →
          ∃ turns result, ctx.ReadsOnward s turns result) ∧
        (ctx.ReadsOut ⟨opened, source, #[]⟩ reading ∧ reading.forms.length ≤ text.length) ∧
        ∀ form ∈ reading'.forms, ∀ path,
          reading'.final.host.heap.follow form path ≠ some (.sentinel .endOfStream) :=
  ⟨by decide, by decide, reading_progress (Store.host .standard) (fun _ _ => ⟨_, _, rfl⟩) (by decide) true
    .initial ⟨true, false, none⟩ .shared .initial (by decide) "(a #;b) #;#;#e1 '#;c".toList 1 0 none⟩

end SexprReader
