import SexprReader.Proofs.Grammar.Lines
import SexprReader.Proofs.Source.Utf8
import SexprReader.Proofs.Store.Postprocess

namespace SexprReader

open LineEnds

theorem LineEnds.Abreast.line?_eq {text text' : List Char} {line column column' : Int}
    {name name' : Option String} {s s' : Source}
    (before : (Source.ofText text line column name).Precedes s)
    (before' : (Source.ofText text' line column' name').Precedes s')
    (abreast : Abreast text text' s.remaining s'.remaining) : s.line? = s'.line? := by
  obtain ⟨taken, split, place, -⟩ := before
  obtain ⟨taken', split', place', -⟩ := before'
  rw [Source.line?, Source.line?, place, place']
  exact congrArg some (abreast.line_eq split split' line column column')

/-- Failures of the same class, and on the same line if they are errors in a text. -/
inductive Failure.Alike : Failure → Failure → Prop
  | reading {e e' : ReadError} (kind : e.kind = e'.kind) (line : e.line = e'.line) :
      Alike (.reading e) (.reading e')
  | value (fault : ValueFault) : Alike (.value fault) (.value fault)

theorem Obstacle.Alike.failure {obstacle obstacle' : Obstacle} (alike : obstacle.Alike obstacle')
    {s s' : Source} (line : s.line? = s'.line?) :
    (obstacle.failure s).Alike (obstacle'.failure s') := by
  cases obstacle with
  | fault reason =>
    cases obstacle' with
    | fault reason' => exact .reading (Sum.inl.inj alike) line
    | value reason' => cases alike
  | value reason =>
    cases obstacle' with
    | fault reason' => cases alike
    | value reason' =>
      cases Sum.inr.inj alike
      exact .value reason

/-- A text whose lines end with LF or CR LF has the same forms in a file, but for line ends in strings
and characters, and the same class of error on the same line, if any. -/
theorem readContents_alike (bracketLists : Bool) (table : TableId) (store store' : Store)
    (known : table.index < store.symbols.tables.size)
    (known' : table.index < store'.symbols.tables.size) (text : List Char) (paired : Paired text)
    (line column column' : Int) (name : Option String) (file : String) :
    let host := Store.host ⟨table, false, .all, true, .raise⟩
    let fromText := readAll host ⟨bracketLists, none⟩ store (.ofText text line column name)
    let fromFile := readContents host ⟨bracketLists, none⟩ store'
      (some (text.flatMap String.utf8EncodeChar)) line column' file
    fromFile.forms.map fromFile.final.host.heap.datum? =
        fromText.forms.map (fun form =>
          (fromText.final.host.heap.datum? form).map (Tree.mapLeaves Datum.joinLineEnds)) ∧
      (∀ form ∈ fromFile.forms, (fromFile.final.host.heap.datum? form).isSome) ∧
      Option.Rel Failure.Alike fromText.failure fromFile.failure := by
  intro host fromText fromFile
  let conv : Convention := ⟨bracketLists, false, none⟩
  obtain ⟨ds, obstacle, rest, all⟩ := ParsesAll.total conv text
  have delivers := paired.delivers
  obtain ⟨obstacle', rest', all', alike, abreast⟩ :=
    all.corresponds (Convention.corresponds_joinLineEnds rfl delivers) (.even (.start delivers))
  have remains : (Source.ofText text line column name).remaining = text := rfl
  have remains' : (Source.ofText (normalize text) line column' (some file)).remaining = normalize text :=
    rfl
  rw [← remains] at all
  rw [← remains'] at all'
  obtain ⟨values, final, reads, -, denotes, left, precedes⟩ :=
    Convention.reading_of_parsesAll all rfl known
  obtain ⟨values', final', reads', -, denotes', left', precedes'⟩ :=
    Convention.reading_of_parsesAll all' rfl known'
  have reads : fromText = _ := reads
  have delivered := Source.ofBytes_encode text line column' (some file)
  have reads' : fromFile = _ :=
    (congrArg (readAll host ⟨bracketLists, none⟩ store') delivered).trans reads'
  have lines : final.source.line? = final'.source.line? := by
    refine Abreast.line?_eq precedes precedes' ?_
    rw [left, left']
    exact abreast
  rw [reads, reads']
  refine ⟨denotes.map_datum?_of_map denotes', denotes'.isSome_datum?, ?_⟩
  cases alike with
  | none => exact .none
  | some alike => exact .some (alike.failure lines)

/-- Line ends in a string, behind both kinds of comments, as a character, and behind `#`. -/
theorem readContents_alike_six_lines :
    let text := "(\"x\r\ny\" ; c\r\n #! s\r\n #\\\r\n)\r\n#\r\n".toList
    let host := Store.host ⟨.shared, false, .all, true, .raise⟩
    let fromText := readAll host ⟨true, none⟩ .initial (.ofText text 1 0 none)
    let fromFile := readContents host ⟨true, none⟩ .initial
      (some (text.flatMap String.utf8EncodeChar)) 1 0 "s.lisp"
    TableId.shared.index < Store.initial.symbols.tables.size ∧ Paired text ∧
      fromText.forms.map (fromText.final.host.heap.write · 0) = [.ok "('x\\r\\ny' #\\\r)"] ∧
      fromFile.forms.map (fromFile.final.host.heap.write · 0) = [.ok "('x\\ny' #\\newline)"] ∧
      fromText.failure = some (.reading ⟨.unsupportedHash '\r', some 6, some 2, none⟩) ∧
      fromFile.failure = some (.reading ⟨.unsupportedHash '\n', some 6, some 2, "s.lisp"⟩) ∧
      fromFile.forms.map fromFile.final.host.heap.datum? =
        fromText.forms.map (fun form =>
          (fromText.final.host.heap.datum? form).map (Tree.mapLeaves Datum.joinLineEnds)) ∧
      Option.Rel Failure.Alike fromText.failure fromFile.failure := by
  have paired : Paired "(\"x\r\ny\" ; c\r\n #! s\r\n #\\\r\n)\r\n#\r\n".toList := by decide +kernel
  have alike := readContents_alike true .shared .initial .initial (by decide) (by decide)
    "(\"x\r\ny\" ; c\r\n #! s\r\n #\\\r\n)\r\n#\r\n".toList paired 1 0 0 none "s.lisp"
  exact ⟨by decide, paired, by decide +kernel, by decide +kernel, by decide +kernel,
    by decide +kernel, alike.1, alike.2.2⟩

end SexprReader
