import SexprReader.Proofs.Grammar.Forms
import SexprReader.Proofs.Value.Parts

namespace SexprReader

structure Convention.Admits (conv : Convention) (p : Datum → Prop) : Prop where
  atom {text rest : List Char} {lexeme : Lexeme} {d : Datum}
    (scans : conv.dialect.scan text = (lexeme, rest))
    (means : conv.atom lexeme = some (.ok (.form d))) : p d
  nil : p .nil
  mark (mark : QuoteMark) : p (.symbol mark.symbolName)
  pair (first rest : Datum) : p (.pair first rest)
  vector (elements : List Datum) : p (.vector elements)

/-- The members of a list so far have the property with all their parts. -/
def Task.Every (p : Datum → Prop) : Task → Prop
  | .members _ before => ∀ d ∈ before, Tree.Every p d
  | _ => True

variable {conv : Convention} {p : Datum → Prop} {text rest : List Char}

theorem Convention.every_of_atom {lexeme : Lexeme} {d : Datum} (root : p d)
    (means : conv.atom lexeme = some (.ok (.form d))) : Tree.Every p d := by
  refine Tree.every_leaf root (fun first rest => ?_) (fun elements => ?_)
  all_goals
    rintro rfl
    cases Convention.means_of_atom means

namespace Convention.Admits

variable (admits : conv.Admits p)

include admits

theorem every_nil : Tree.Every p .nil := Tree.every_leaf admits.nil (by simp) (by simp)

theorem every_quoted {d : Datum} (mark : QuoteMark) (every : d.Every p) : (d.quoted mark).Every p := by
  have symbol : Tree.Every p (.symbol mark.symbolName) :=
    Tree.every_leaf (admits.mark mark) (by simp) (by simp)
  refine Tree.every_pair_iff.mpr ⟨admits.pair _ _, symbol, ?_⟩
  exact Tree.every_pair_iff.mpr ⟨admits.pair _ _, every, admits.every_nil⟩

theorem every_enclose (bracket : Bracket) {members : List Datum} {tail : Datum}
    (all : ∀ d ∈ members, d.Every p) (last : tail.Every p) : (bracket.enclose members tail).Every p := by
  have list : (Tree.ofList members tail).Every p := by
    induction members with
    | nil => exact last
    | cons d members ih =>
      refine Tree.every_pair_iff.mpr ⟨admits.pair _ _, all d (List.mem_cons_self ..), ?_⟩
      exact ih fun e member => all e (List.mem_cons_of_mem _ member)
  cases bracket with
  | round => exact list
  | square => exact list
  | vector => exact Tree.every_vector_iff.mpr ⟨admits.vector members, all⟩

end Convention.Admits

theorem Bracket.every_of_continues {bracket : Bracket} {before members : List Datum} {outcome : Outcome}
    (all : ∀ d ∈ before, d.Every p) (item : ∀ d, outcome = .ok (.form d) → d.Every p)
    (effect : bracket.effect before outcome = .continues members) : ∀ d ∈ members, d.Every p := by
  obtain ⟨-, rfl⟩ | ⟨d, rfl, -, rfl⟩ := Bracket.continues_cases effect
  · exact all
  · intro e member
    rcases List.mem_append.mp member with early | late
    · exact all e early
    · rw [List.mem_singleton] at late
      subst late
      exact item e rfl

theorem Parses.every {task : Task} {outcome : Outcome} (admits : conv.Admits p)
    (parses : Parses conv task text outcome rest) (before : task.Every p) (d : Datum)
    (form : outcome = .ok (.form d)) : d.Every p := by
  induction parses generalizing d with
  | atom scans means =>
    subst form
    exact Convention.every_of_atom (admits.atom scans means) means
  | @quoted _ _ _ mark outcome _ _ ih =>
    match outcome, form with
    | .ok (.form e), form =>
      cases form
      exact admits.every_quoted mark (ih trivial e rfl)
  | @discarded _ _ _ outcome _ _ _ =>
    match outcome, form with
    | .ok (.form _), form => cases form
    | .ok .comment, form => cases form
  | list _ _ ih => exact ih (by simp [Task.Every]) d form
  | skip _ _ _ ih => exact ih trivial d form
  | stop _ _ ih => exact ih trivial d form
  | unclosed => cases form
  | close =>
    cases form
    exact admits.every_enclose _ before admits.every_nil
  | cut _ _ effect _ =>
    obtain ⟨obstacle, rfl⟩ := Bracket.error_of_effect effect
    cases form
  | more _ _ effect _ item others =>
    exact others (Bracket.every_of_continues before (item trivial) effect) d form
  | tail _ _ effect _ ends _ tails =>
    subst form
    cases Bracket.eq_enclose_of_afterTail ends
    exact admits.every_enclose _ before (tails trivial _ rfl)
  | tailCut _ _ _ _ _ stops _ _ =>
    obtain ⟨obstacle, rfl⟩ := Bracket.error_of_effect stops
    cases form

theorem ParsesAll.every {ds : List Datum} {obstacle : Option Obstacle} (admits : conv.Admits p)
    (all : ParsesAll conv text ds obstacle rest) : ∀ d ∈ ds, d.Every p := by
  induction all with
  | stop => simp
  | fail => simp
  | form first _ ih =>
    intro d member
    rcases List.mem_cons.mp member with rfl | later
    · exact first.every admits trivial d rfl
    · exact ih d later

theorem Convention.atom_ne_endOfStream {lexeme : Lexeme} {d : Datum}
    (means : conv.atom lexeme = some (.ok (.form d))) : d ≠ .sentinel .endOfStream := by
  intro same
  cases Convention.means_of_atom means with
  | constant c => cases c <;> cases same
  | _ => cases same

theorem Bracket.enclose_ne_endOfStream {bracket : Bracket} {members : List Datum} {tail : Datum}
    (some : members ≠ [] ∨ tail = .nil) : bracket.enclose members tail ≠ .sentinel .endOfStream := by
  cases members with
  | nil =>
    rw [some.resolve_left (by simp)]
    cases bracket <;> simp [Bracket.enclose, Tree.ofList]
  | cons d members => cases bracket <;> simp [Bracket.enclose, Tree.ofList]

theorem Convention.admits_ne_endOfStream (conv : Convention) :
    conv.Admits (· ≠ .sentinel .endOfStream) where
  atom _ means := conv.atom_ne_endOfStream means
  nil := by simp
  mark _ := by simp
  pair _ _ := by simp
  vector _ := by simp

theorem Parses.ne_endOfStream {d : Datum} (parses : Parses conv .form text (.ok (.form d)) rest) :
    d ≠ .sentinel .endOfStream :=
  (parses.every conv.admits_ne_endOfStream trivial d rfl).root

end SexprReader
