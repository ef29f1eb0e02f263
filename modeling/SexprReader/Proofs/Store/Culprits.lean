import SexprReader.Proofs.Grammar.Completion
import SexprReader.Proofs.Reader.Culprits
import SexprReader.Proofs.Source.Location
import SexprReader.Proofs.Store.Incomplete

namespace SexprReader

/-- What a part of a text comes to, if it is an error, is to be blamed on its last character. A dot that is
delivered has just been read. -/
def Outcome.PointsAt (bracketLists : Bool) (text rest : List Char) : Outcome → Prop
  | .error (.fault reason) => ∃ taken, text = taken ++ rest ∧ reason.PointsAt bracketLists taken rest
  | .error (.value _) => True
  | .ok .endOfInput => rest = []
  | .ok .comment => True
  | .ok (.form d) => d.isDot → ∃ taken, text = taken ++ rest ∧ ['.'] <:+ taken

variable {conv : Convention} {table : TableId} {store : Store} {text inner rest : List Char}
  {outcome outcome' : Outcome} {bracketLists : Bool}

theorem Outcome.PointsAt.behind (points : outcome.PointsAt bracketLists inner rest)
    (suffix : inner <:+ text) : outcome.PointsAt bracketLists text rest := by
  obtain ⟨before, rfl⟩ := suffix
  match outcome, points with
  | .error (.fault _), points =>
    obtain ⟨taken, rfl, blames⟩ := points
    exact ⟨before ++ taken, (List.append_assoc before taken rest).symm, blames.behind before⟩
  | .error (.value _), _ => trivial
  | .ok .endOfInput, points => exact points
  | .ok .comment, _ => trivial
  | .ok (.form d), points =>
    intro dot
    obtain ⟨taken, rfl, ends⟩ := points dot
    exact ⟨before ++ taken, (List.append_assoc before taken rest).symm,
      ends.trans (List.suffix_append before taken)⟩

theorem Convention.pointsAt_of_atom {lexeme : Lexeme} (scans : conv.dialect.scan text = (lexeme, rest))
    (means : conv.atom lexeme = some outcome) : outcome.PointsAt conv.bracketLists text rest := by
  obtain ⟨taken, split, points⟩ := Dialect.pointsAt_of_scan scans
  cases Convention.means_of_atom means with
  | endOfInput => exact points
  | comment | unreadable | unreadableNumber => trivial
  | @name chars =>
    intro dot
    have dot : chars = ['.'] := by
      rw [← String.toList_ofList (l := chars), eq_of_beq dot]
      rfl
    exact ⟨taken, split, dot ▸ points⟩
  | constant | integer | aliased | number | string | character =>
    intro dot
    cases dot
  | invalid | fault => exact ⟨taken, split, points⟩

theorem Bracket.pointsAt_of_effect {bracket : Bracket} {before : List Datum}
    (effect : bracket.effect before outcome = .stops outcome')
    (points : outcome.PointsAt bracketLists text rest) (suffix : rest <:+ text) :
    outcome'.PointsAt bracketLists text rest := by
  obtain ⟨obstacle, rfl, rfl⟩ | ⟨rfl, rfl⟩ | ⟨d, fault, rfl, dot, rfl, place⟩ :=
    Bracket.stops_cases effect
  · exact points
  · obtain rfl : rest = [] := points
    exact ⟨text, (List.append_nil text).symm, rfl⟩
  · obtain ⟨rfl, -⟩ | ⟨rfl, -⟩ := place
    · exact points dot
    · exact points dot

theorem Bracket.pointsAt_of_afterTail {bracket : Bracket} {before : List Datum} {tail : Datum}
    (ends : bracket.afterTail before tail text = (outcome, rest)) (some : before ≠ []) :
    outcome.PointsAt bracketLists text rest := by
  obtain ⟨blanks, split⟩ := behindBlanks_suffix false text
  obtain ⟨-, rfl, rfl⟩ | ⟨-, rfl⟩ | ⟨c, behind, -, rfl⟩ := Bracket.afterTail_cases ends
  · exact ⟨text, (List.append_nil text).symm, rfl⟩
  · intro dot
    rw [isDot_enclose (.inl some)] at dot
    cases dot
  · refine ⟨blanks ++ [c], ?_, List.suffix_append blanks [c]⟩
    rw [List.append_assoc, List.singleton_append, ← behind, split]

/-- Whatever is read of a text, errors are reported at the last character that was consumed for them. -/
theorem Parses.pointsAt {task : Task} (parses : Parses conv task text outcome rest) :
    outcome.PointsAt conv.bracketLists text rest := by
  induction parses with
  | atom scans means => exact Convention.pointsAt_of_atom scans means
  | @quoted text inner rest mark outcome scans form ih =>
    have ih := ih.behind (Dialect.scan_suffix scans)
    match outcome, form, ih with
    | .error _, _, ih => exact ih
    | .ok .endOfInput, _, ih =>
      obtain rfl : rest = [] := ih
      exact ⟨text, (List.append_nil text).symm, rfl⟩
    | .ok .comment, form, _ => exact absurd rfl form.ne_comment
    | .ok (.form d), _, _ =>
      intro dot
      cases dot
  | @discarded _ _ _ outcome scans _ ih =>
    have ih := ih.behind (Dialect.scan_suffix scans)
    match outcome, ih with
    | .error _, ih => exact ih
    | .ok .endOfInput, ih => exact ih
    | .ok .comment, _ => trivial
    | .ok (.form _), _ => trivial
  | list scans _ ih => exact ih.behind (Dialect.scan_suffix scans)
  | skip comment _ _ ih => exact ih.behind comment.suffix
  | stop _ _ ih => exact ih
  | unclosed => exact ⟨_, (List.append_nil _).symm, rfl⟩
  | close =>
    intro dot
    rw [Bracket.isDot_enclose (.inr rfl)] at dot
    cases dot
  | cut _ item effect ih => exact Bracket.pointsAt_of_effect effect ih item.suffix
  | more _ item _ _ _ ih => exact ih.behind item.suffix
  | tail _ dot effect form ends _ _ =>
    have there := Bracket.ne_nil_of_expectsTail effect
    exact (Bracket.pointsAt_of_afterTail ends there).behind (form.suffix.trans dot.suffix)
  | tailCut _ dot _ form _ stops _ ih =>
    exact (Bracket.pointsAt_of_effect stops ih form.suffix).behind dot.suffix

theorem ParsesAll.pointsAt {ds : List Datum} {fault : ReadFault}
    (all : ParsesAll conv text ds (some (.fault fault)) rest) :
    ∃ taken, text = taken ++ rest ∧ fault.PointsAt conv.bracketLists taken rest := by
  generalize same : some (Obstacle.fault fault) = obstacle at all
  induction all with
  | stop => cases same
  | fail error =>
    cases same
    exact error.pointsAt
  | form first _ ih =>
    obtain ⟨before, rfl⟩ := first.suffix
    obtain ⟨taken, rfl, blames⟩ := ih same
    exact ⟨before ++ taken, (List.append_assoc before taken _).symm, blames.behind before⟩

theorem Parses.eq_of_nil {task : Task} (parses : Parses conv task [] outcome rest)
    (other : ∀ bracket before, task ≠ .members bracket before) : outcome = .ok .endOfInput := by
  generalize empty : [] = text at parses
  induction parses with
  | atom scans means =>
    subst empty
    cases scans
    exact (Option.some.inj means).symm
  | quoted scans =>
    subst empty
    cases scans
  | discarded scans =>
    subst empty
    cases scans
  | list scans =>
    subst empty
    cases scans
  | skip _ _ comment _ => cases comment (by simp) empty
  | stop _ _ item => exact item (by simp) empty
  | _ => exact absurd rfl (other _ _)

theorem ParsesAll.nonempty {ds : List Datum} {obstacle : Obstacle}
    (all : ParsesAll conv text ds (some obstacle) rest) : text ≠ [] := by
  rintro rfl
  cases all with
  | fail error => cases error.eq_of_nil (by simp)
  | form first => cases first.eq_of_nil (by simp)

/-- An error of a text is located where the last character was consumed, and this character is the one
that the error is about. -/
theorem reading_error_location (conv : Convention) (table : TableId) (store : Store)
    (known : table.index < store.symbols.tables.size) (text : List Char) (line column : Int)
    (name : Option String) (e : ReadError)
    (failed : (conv.reading table store (.ofText text line column name)).failure =
      some (.reading e)) :
    ∃ taken, text =
        taken ++ (conv.reading table store (.ofText text line column name)).final.source.remaining ∧
      taken ≠ [] ∧ e.line = some (Place.lineOf line taken) ∧
      e.column = some (Place.columnOf column taken) ∧
      e.fault.PointsAt conv.bracketLists taken
        (conv.reading table store (.ofText text line column name)).final.source.remaining := by
  obtain ⟨ds, obstacle, rest, all⟩ := ParsesAll.total conv text
  have allOf : ParsesAll conv (Source.ofText text line column name).remaining ds obstacle rest := all
  obtain ⟨values, final, reads, -, -, remaining, moves⟩ := conv.reading_of_parsesAll allOf rfl known
  rw [reads] at failed ⊢
  obtain ⟨rfl, located⟩ := Obstacle.of_failure_eq_reading failed
  obtain ⟨taken, split, blames⟩ := all.pointsAt
  obtain ⟨consumed, split', place, -⟩ := moves
  obtain rfl : consumed = taken := by
    rw [remaining] at split'
    exact List.append_cancel_right (split'.symm.trans split)
  have place : final.source.place = some ((Place.start line column).advanceAll consumed) := place
  rw [Place.advanceAll_start] at place
  have atLine : e.line = some (Place.lineOf line consumed) := by
    rw [located, Source.line?, place]
    rfl
  have atColumn : e.column = some (Place.columnOf column consumed) := by
    rw [located, Source.column?, place]
    rfl
  refine ⟨consumed, split', ?_, atLine, atColumn, remaining ▸ blames⟩
  exact blames.ne_nil (split ▸ all.nonempty)

/-- Behind a dotted tail, after line ends of each sort, comments and a nested form. -/
theorem reading_error_location_behind_tail :
    let text := "(a\r\n\t#e|x\r|# . (b)\r c)".toList
    let e : ReadError := ⟨.afterDottedTail ')' 'c', some 4, some 2, none⟩
    let final := (Convention.reading ⟨true, false, none⟩ .shared .initial (.ofText text 1 0 none)).final
    TableId.shared.index < Store.initial.symbols.tables.size ∧
      (Convention.reading ⟨true, false, none⟩ .shared .initial (.ofText text 1 0 none)).failure =
        some (.reading e) ∧
      ∃ taken, text = taken ++ final.source.remaining ∧ taken ≠ [] ∧
        e.line = some (Place.lineOf 1 taken) ∧ e.column = some (Place.columnOf 0 taken) ∧
        e.fault.PointsAt true taken final.source.remaining :=
  ⟨by decide, by decide +kernel, reading_error_location ⟨true, false, none⟩ .shared .initial (by decide)
    "(a\r\n\t#e|x\r|# . (b)\r c)".toList 1 0 none ⟨.afterDottedTail ')' 'c', some 4, some 2, none⟩
    (by decide +kernel)⟩

end SexprReader
