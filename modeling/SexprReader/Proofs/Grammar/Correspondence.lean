import SexprReader.Proofs.Grammar.Forms
import SexprReader.Proofs.Value.Leaves

/-! Texts that correspond lexeme by lexeme, each in a convention of its own. If what the lexemes mean
differs in leaves only, then so does what the texts mean. -/

namespace SexprReader

structure Datum.KeepsLists (leaf : Datum → Datum) : Prop where
  nil : leaf .nil = .nil
  marks : ∀ mark : QuoteMark, leaf (.symbol mark.symbolName) = .symbol mark.symbolName
  dots : ∀ d : Datum, (leaf d).isDot = d.isDot

inductive Outcome.Resembles (leaf : Datum → Datum) (agree : Obstacle → Obstacle → Prop) :
    Outcome → Outcome → Prop
  | form (d : Datum) : Resembles leaf agree (.ok (.form d)) (.ok (.form (d.mapLeaves leaf)))
  | comment : Resembles leaf agree (.ok .comment) (.ok .comment)
  | endOfInput : Resembles leaf agree (.ok .endOfInput) (.ok .endOfInput)
  | error {obstacle obstacle' : Obstacle} (agrees : agree obstacle obstacle') :
      Resembles leaf agree (.error obstacle) (.error obstacle')

inductive Effect.Resembles (leaf : Datum → Datum) (agree : Obstacle → Obstacle → Prop) :
    Effect → Effect → Prop
  | stops {outcome outcome' : Outcome} (resembles : outcome.Resembles leaf agree outcome') :
      Resembles leaf agree (.stops outcome) (.stops outcome')
  | continues (members : List Datum) :
      Resembles leaf agree (.continues members) (.continues (members.map (Tree.mapLeaves leaf)))
  | expectsTail : Resembles leaf agree .expectsTail .expectsTail

structure Corresponds (conv conv' : Convention) (leaf : Datum → Datum)
    (agree : Obstacle → Obstacle → Prop) (texts : List Char → List Char → Prop) : Prop where
  lists : Datum.KeepsLists leaf
  agree_refl : ∀ obstacle, agree obstacle obstacle
  ends : texts [] []
  blanks : ∀ {text text'}, texts text text' →
    behindBlanks false text = [] ∧ behindBlanks false text' = [] ∨
      ∃ c rest rest', behindBlanks false text = c :: rest ∧ behindBlanks false text' = c :: rest' ∧
        texts rest rest'
  scans : ∀ {text text' lexeme rest}, texts text text' → conv.dialect.scan text = (lexeme, rest) →
    ∃ lexeme' rest', conv'.dialect.scan text' = (lexeme', rest') ∧ texts rest rest' ∧
      ((∃ opening, lexeme = .opening opening ∧ lexeme' = .opening opening) ∨
        ∃ outcome outcome', conv.atom lexeme = some outcome ∧ conv'.atom lexeme' = some outcome' ∧
          outcome.Resembles leaf agree outcome')

theorem Outcome.Resembles.of_eq {leaf : Datum → Datum} {agree : Obstacle → Obstacle → Prop}
    {d d' : Datum} (becomes : d.mapLeaves leaf = d') :
    Outcome.Resembles leaf agree (.ok (.form d)) (.ok (.form d')) :=
  becomes ▸ .form d

theorem Outcome.Resembles.discarded {leaf : Datum → Datum} {agree : Obstacle → Obstacle → Prop}
    {outcome outcome' : Outcome} (resembles : outcome.Resembles leaf agree outcome') :
    outcome.discarded.Resembles leaf agree outcome'.discarded := by
  cases resembles with
  | form d => exact .comment
  | comment => exact .comment
  | endOfInput => exact .endOfInput
  | error agrees => exact .error agrees

namespace Convention

variable {conv conv' : Convention} {leaf : Datum → Datum} {agree : Obstacle → Obstacle → Prop}

section

variable (integers : ∀ n, leaf (.integer n) = .integer n) (refl : ∀ obstacle, agree obstacle obstacle)

include integers refl

theorem number_resembles (radix : Nat) (digits : String) :
    (number radix digits).Resembles leaf agree (number radix digits) := by
  unfold number
  cases parseInteger digits radix with
  | error fault => exact .error (refl _)
  | ok number =>
    cases number with
    | some n => exact .of_eq ((Tree.mapLeaves_integer n).trans (integers n))
    | none => exact .error (refl _)

theorem token_resembles {text : String}
    (names : (if conv.nilAlias = some text then .nil else .symbol text : Datum).mapLeaves leaf =
      if conv'.nilAlias = some text then .nil else .symbol text) :
    (conv.token text).Resembles leaf agree (conv'.token text) := by
  unfold token
  cases parseInteger text 10 with
  | error fault => exact .error (refl _)
  | ok number =>
    cases number with
    | some n => exact .of_eq ((Tree.mapLeaves_integer n).trans (integers n))
    | none => exact .of_eq names

end

theorem opens_or_means {lexeme lexeme' : Lexeme}
    (opens : ∀ opening, lexeme = .opening opening → lexeme' = .opening opening)
    (means : ∀ outcome, conv.atom lexeme = some outcome →
      ∃ outcome', conv'.atom lexeme' = some outcome' ∧ outcome.Resembles leaf agree outcome') :
    (∃ opening, lexeme = .opening opening ∧ lexeme' = .opening opening) ∨
      ∃ outcome outcome', conv.atom lexeme = some outcome ∧ conv'.atom lexeme' = some outcome' ∧
        outcome.Resembles leaf agree outcome' := by
  cases meaning : conv.atom lexeme with
  | none =>
    cases lexeme with
    | opening opening => exact .inl ⟨opening, rfl, opens opening rfl⟩
    | _ => cases meaning
  | some outcome =>
    obtain ⟨outcome', means', resembles⟩ := means outcome meaning
    exact .inr ⟨outcome, outcome', rfl, means', resembles⟩

end Convention

theorem Bracket.mapLeaves_enclose (leaf : Datum → Datum) (bracket : Bracket) (members : List Datum)
    (tail : Datum) : (bracket.enclose members tail).mapLeaves leaf =
      bracket.enclose (members.map (Tree.mapLeaves leaf)) (tail.mapLeaves leaf) := by
  cases bracket with
  | vector => exact Tree.mapLeaves_vector members
  | round => exact Tree.mapLeaves_ofList members tail
  | square => exact Tree.mapLeaves_ofList members tail

namespace Datum.KeepsLists

variable {leaf : Datum → Datum} (lists : KeepsLists leaf)

include lists

theorem isDot_mapLeaves (d : Datum) : Datum.isDot (d.mapLeaves leaf) = d.isDot := by
  cases d with
  | pair first rest =>
    rw [Tree.mapLeaves_pair]
    rfl
  | vector elements =>
    rw [Tree.mapLeaves_vector]
    rfl
  | _ =>
    rw [Tree.mapLeaves_leaf (by simp) (by simp)]
    exact lists.dots _

theorem mapLeaves_quoted (mark : QuoteMark) (d : Datum) :
    (d.quoted mark).mapLeaves leaf = Datum.quoted mark (d.mapLeaves leaf) := by
  simp only [Datum.quoted, Tree.mapLeaves_pair, Tree.mapLeaves_symbol, Tree.mapLeaves_sentinel,
    lists.marks, lists.nil]

end Datum.KeepsLists

namespace Corresponds

variable {conv conv' : Convention} {leaf : Datum → Datum} {agree : Obstacle → Obstacle → Prop}
  {texts : List Char → List Char → Prop} {text text' : List Char} {outcome outcome' : Outcome}
  (corresponds : Corresponds conv conv' leaf agree texts)

include corresponds

theorem error (obstacle : Obstacle) :
    Outcome.Resembles leaf agree (.error obstacle) (.error obstacle) :=
  .error (corresponds.agree_refl obstacle)

theorem quoted (mark : QuoteMark) (resembles : outcome.Resembles leaf agree outcome') :
    (outcome.quoted mark).Resembles leaf agree (outcome'.quoted mark) := by
  cases resembles with
  | form d =>
    rw [Outcome.quoted, Outcome.quoted, ← corresponds.lists.mapLeaves_quoted]
    exact .form _
  | comment => exact corresponds.error _
  | endOfInput => exact corresponds.error _
  | error agrees => exact .error agrees

theorem effect {bracket : Bracket} {before : List Datum} {effect : Effect}
    (resembles : outcome.Resembles leaf agree outcome')
    (does : bracket.effect before outcome = effect) :
    ∃ effect', bracket.effect (before.map (Tree.mapLeaves leaf)) outcome' = effect' ∧
      effect.Resembles leaf agree effect' := by
  refine ⟨_, rfl, ?_⟩
  subst does
  cases resembles with
  | form d =>
    simp only [Bracket.effect, corresponds.lists.isDot_mapLeaves, List.isEmpty_map]
    split
    · split
      · exact .stops (corresponds.error _)
      · split
        · exact .stops (corresponds.error _)
        · exact .expectsTail
    · rw [← List.map_singleton, ← List.map_append]
      exact .continues _
  | comment => exact .continues before
  | endOfInput => exact .stops (corresponds.error _)
  | error agrees => exact .stops (.error agrees)

theorem opens {inner : List Char} {opening : Opening} (related : texts text text')
    (scans : conv.dialect.scan text = (.opening opening, inner)) :
    ∃ inner', conv'.dialect.scan text' = (.opening opening, inner') ∧ texts inner inner' := by
  obtain ⟨lexeme', inner', scans', inside, ⟨_, same, rfl⟩ | ⟨_, _, means, -⟩⟩ :=
    corresponds.scans related scans
  · cases same
    exact ⟨inner', scans', inside⟩
  · cases means

theorem means {rest : List Char} {lexeme : Lexeme} (related : texts text text')
    (scans : conv.dialect.scan text = (lexeme, rest)) (means : conv.atom lexeme = some outcome) :
    ∃ lexeme' outcome' rest', conv'.dialect.scan text' = (lexeme', rest') ∧
      conv'.atom lexeme' = some outcome' ∧ outcome.Resembles leaf agree outcome' ∧
      texts rest rest' := by
  obtain ⟨lexeme', rest', scans', behind, ⟨_, rfl, -⟩ | ⟨_, outcome', means₁, means', resembles⟩⟩ :=
    corresponds.scans related scans
  · cases means
  · rw [means] at means₁
    cases means₁
    exact ⟨lexeme', outcome', rest', scans', means', resembles, behind⟩

theorem unclosed {bracket : Bracket} (related : texts text text') (unclosed : bracket.Unclosed text) :
    bracket.Unclosed text' := by
  obtain ⟨c, rest, behind, open_⟩ := unclosed
  obtain ⟨nothing, -⟩ | ⟨c', rest₁, rest', behind₁, behind', -⟩ := corresponds.blanks related
  · rw [behind] at nothing
    cases nothing
  · rw [behind] at behind₁
    cases behind₁
    exact ⟨c, rest', behind', open_⟩

theorem afterTail {bracket : Bracket} {before : List Datum} {tail : Datum} {rest : List Char}
    (related : texts text text') (ends : bracket.afterTail before tail text = (outcome, rest)) :
    ∃ outcome' rest', bracket.afterTail (before.map (Tree.mapLeaves leaf)) (tail.mapLeaves leaf) text' =
        (outcome', rest') ∧ outcome.Resembles leaf agree outcome' ∧ texts rest rest' := by
  unfold Bracket.afterTail at ends ⊢
  obtain ⟨behind, behind'⟩ | ⟨c, inner, inner', behind, behind', inside⟩ := corresponds.blanks related
  · rw [behind] at ends
    rw [behind']
    cases ends
    exact ⟨_, _, rfl, corresponds.error _, corresponds.ends⟩
  · rw [behind] at ends
    rw [behind']
    dsimp only at ends ⊢
    split at ends
    next closer =>
      cases ends
      rw [if_pos closer, ← bracket.mapLeaves_enclose]
      exact ⟨_, _, rfl, .form _, inside⟩
    next other =>
      cases ends
      rw [if_neg other]
      exact ⟨_, _, rfl, corresponds.error _, inside⟩

end Corresponds

def Task.mapLeaves (leaf : Datum → Datum) : Task → Task
  | .item => .item
  | .form => .form
  | .members bracket before => .members bracket (before.map (Tree.mapLeaves leaf))

theorem Parses.corresponds {conv conv' : Convention} {leaf : Datum → Datum}
    {agree : Obstacle → Obstacle → Prop} {texts : List Char → List Char → Prop}
    (corresponds : Corresponds conv conv' leaf agree texts) {task : Task} {text text' rest : List Char}
    {outcome : Outcome} (parses : Parses conv task text outcome rest) (related : texts text text') :
    ∃ outcome' rest', Parses conv' (task.mapLeaves leaf) text' outcome' rest' ∧
      outcome.Resembles leaf agree outcome' ∧ texts rest rest' := by
  -- Both derivations are built of the same rules: each rule is carried over by what its parts come
  -- to.
  induction parses generalizing text' with
  | atom scans means =>
    obtain ⟨_, outcome', rest', scans', means', resembles, behind⟩ :=
      corresponds.means related scans means
    exact ⟨outcome', rest', .atom scans' means', resembles, behind⟩
  | quoted scans _ form =>
    obtain ⟨inner', scans', inside⟩ := corresponds.opens related scans
    obtain ⟨outcome', rest', form', resembles, behind⟩ := form inside
    exact ⟨_, rest', .quoted scans' form', corresponds.quoted _ resembles, behind⟩
  | discarded scans _ form =>
    obtain ⟨inner', scans', inside⟩ := corresponds.opens related scans
    obtain ⟨outcome', rest', form', resembles, behind⟩ := form inside
    exact ⟨_, rest', .discarded scans' form', resembles.discarded, behind⟩
  | list scans _ members =>
    obtain ⟨inner', scans', inside⟩ := corresponds.opens related scans
    obtain ⟨outcome', rest', members', resembles, behind⟩ := members inside
    exact ⟨outcome', rest', .list scans' members', resembles, behind⟩
  | skip _ _ comment form =>
    obtain ⟨_, inner', comment', ⟨⟩, inside⟩ := comment related
    obtain ⟨outcome', rest', form', resembles, behind⟩ := form inside
    exact ⟨outcome', rest', .skip comment' form', resembles, behind⟩
  | stop _ there item =>
    obtain ⟨outcome', rest', item', resembles, behind⟩ := item related
    refine ⟨outcome', rest', .stop item' ?_, resembles, behind⟩
    rintro rfl
    cases resembles
    exact there rfl
  | unclosed blank =>
    obtain ⟨-, blank'⟩ | ⟨c, rest, rest', behind, -⟩ := corresponds.blanks related
    · exact ⟨_, [], .unclosed blank', corresponds.error _, corresponds.ends⟩
    · rw [blank] at behind
      cases behind
  | @close _ _ bracket before closer =>
    obtain ⟨blank, -⟩ | ⟨c, rest, rest', behind, behind', inside⟩ := corresponds.blanks related
    · rw [closer] at blank
      cases blank
    · rw [closer] at behind
      cases behind
      -- The empty tail is a leaf too, and is kept as it is.
      have encloses := bracket.mapLeaves_enclose leaf before .nil
      rw [Tree.mapLeaves_sentinel, corresponds.lists.nil] at encloses
      exact ⟨_, rest', .close behind', encloses ▸ .form _, inside⟩
  | cut unclosed _ effect item =>
    obtain ⟨_, rest', item', resembles, behind⟩ := item related
    obtain ⟨_, effect', ⟨resembles'⟩⟩ := corresponds.effect resembles effect
    exact ⟨_, rest', .cut (corresponds.unclosed related unclosed) item' effect', resembles', behind⟩
  | more unclosed _ effect _ item others =>
    obtain ⟨_, inner', item', resembles, inside⟩ := item related
    obtain ⟨_, effect', ⟨⟩⟩ := corresponds.effect resembles effect
    obtain ⟨outcome', rest', others', resembles', behind⟩ := others inside
    exact ⟨outcome', rest', .more (corresponds.unclosed related unclosed) item' effect' others',
      resembles', behind⟩
  | tail unclosed _ effect _ ends dot form =>
    obtain ⟨_, inner', dot', resembles, inside⟩ := dot related
    obtain ⟨_, effect', ⟨⟩⟩ := corresponds.effect resembles effect
    obtain ⟨_, behind', form', ⟨⟩, inside'⟩ := form inside
    obtain ⟨outcome', rest', ends', resembles', behind⟩ := corresponds.afterTail inside' ends
    exact ⟨outcome', rest', .tail (corresponds.unclosed related unclosed) dot' effect' form' ends',
      resembles', behind⟩
  | tailCut unclosed _ effect _ without stops dot form =>
    obtain ⟨_, inner', dot', resembles, inside⟩ := dot related
    obtain ⟨_, effect', ⟨⟩⟩ := corresponds.effect resembles effect
    obtain ⟨reason', rest', form', alike, behind⟩ := form inside
    obtain ⟨_, stops', ⟨resembles'⟩⟩ := corresponds.effect alike stops
    refine ⟨_, rest', .tailCut (corresponds.unclosed related unclosed) dot' effect' form' ?_ stops',
      resembles', behind⟩
    rintro d rfl
    cases alike
    exact without _ rfl

theorem ParsesAll.corresponds {conv conv' : Convention} {leaf : Datum → Datum}
    {agree : Obstacle → Obstacle → Prop} {texts : List Char → List Char → Prop}
    (corresponds : Corresponds conv conv' leaf agree texts) {text text' rest : List Char}
    {ds : List Datum} {obstacle : Option Obstacle} (all : ParsesAll conv text ds obstacle rest)
    (related : texts text text') :
    ∃ obstacle' rest', ParsesAll conv' text' (ds.map (Tree.mapLeaves leaf)) obstacle' rest' ∧
      Option.Rel agree obstacle obstacle' ∧ texts rest rest' := by
  induction all generalizing text' with
  | stop end_ =>
    obtain ⟨_, rest', end', ⟨⟩, behind⟩ := end_.corresponds corresponds related
    exact ⟨none, rest', .stop end', .none, behind⟩
  | fail error =>
    obtain ⟨_, rest', error', resembles, behind⟩ := error.corresponds corresponds related
    cases resembles with
    | error agrees => exact ⟨_, rest', .fail error', .some agrees, behind⟩
  | form first _ ih =>
    obtain ⟨_, inner', first', ⟨⟩, inside⟩ := first.corresponds corresponds related
    obtain ⟨obstacle', rest', others', agrees, behind⟩ := ih inside
    exact ⟨obstacle', rest', .form first' others', agrees, behind⟩

end SexprReader
