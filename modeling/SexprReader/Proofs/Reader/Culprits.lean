import SexprReader.Proofs.Reader.Lexing

namespace SexprReader

open Lexeme

/-- The last of the characters `taken` is the one at fault. Numbers and character names end there, so
that what follows them belongs to neither, and an early end comes behind all characters. -/
def ReadFault.PointsAt (bracketLists : Bool) (taken rest : List Char) : ReadFault → Prop
  | .endOfInput _ => rest = []
  | .unexpectedCharacter c => [c] <:+ taken
  | .nothingBeforeDot => ['.'] <:+ taken
  | .dotInVector => ['.'] <:+ taken
  | .afterDottedTail _ found => [found] <:+ taken
  | .invalidNumber digits radix =>
    (∃ marks letter, marks.all isExactness ∧ radix? letter = some radix ∧
      '#' :: marks ++ letter :: digits.toList <:+ taken) ∧
    rest.head?.all (isTerminator bracketLists)
  | .unknownCharacter name =>
    (∃ marks, marks.all isExactness ∧ '#' :: marks ++ '\\' :: name.toList <:+ taken) ∧
    name ≠ "" ∧ rest.head?.all (!isLetter ·)
  | .unsupportedHash c => ∃ marks, marks.all isExactness ∧ '#' :: marks ++ [c] <:+ taken
  | .custom _ _ => False

/-- Where an error about the lexeme would point. A quote ends with its own mark. -/
def Lexeme.PointsAt (bracketLists : Bool) (taken rest : List Char) : Lexeme → Prop
  | .endOfInput => rest = []
  | .opening (.quoted mark) => mark.text.toList <:+ taken
  | .token text => text <:+ taken
  | .number radix digits =>
    (ReadFault.invalidNumber (String.ofList digits) radix).PointsAt bracketLists taken rest
  | .fault reason => reason.PointsAt bracketLists taken rest
  | _ => True

theorem ReadFault.PointsAt.behind {bracketLists : Bool} {taken rest : List Char} {fault : ReadFault}
    (points : fault.PointsAt bracketLists taken rest) (before : List Char) :
    fault.PointsAt bracketLists (before ++ taken) rest := by
  have further {text : List Char} (suffix : text <:+ taken) : text <:+ before ++ taken :=
    suffix.trans (List.suffix_append before taken)
  cases fault with
  | endOfInput => exact points
  | invalidNumber digits radix =>
    obtain ⟨⟨marks, letter, exact_marks, same, suffix⟩, next⟩ := points
    exact ⟨⟨marks, letter, exact_marks, same, further suffix⟩, next⟩
  | unknownCharacter name =>
    obtain ⟨⟨marks, exact_marks, suffix⟩, next⟩ := points
    exact ⟨⟨marks, exact_marks, further suffix⟩, next⟩
  | unsupportedHash c =>
    obtain ⟨marks, exact_marks, suffix⟩ := points
    exact ⟨marks, exact_marks, further suffix⟩
  | custom => exact points
  | _ => exact further points

theorem ReadFault.PointsAt.ne_nil {bracketLists : Bool} {taken rest : List Char} {fault : ReadFault}
    (points : fault.PointsAt bracketLists taken rest) (some : taken ++ rest ≠ []) : taken ≠ [] := by
  rintro rfl
  have nothing {c : Char} {front : List Char} (suffix : c :: front <:+ []) : False := by
    cases List.suffix_nil.mp suffix
  cases fault with
  | endOfInput => exact some points
  | invalidNumber =>
    obtain ⟨⟨_, _, -, -, suffix⟩, -⟩ := points
    exact nothing suffix
  | unknownCharacter =>
    obtain ⟨⟨_, -, suffix⟩, -⟩ := points
    exact nothing suffix
  | unsupportedHash =>
    obtain ⟨_, -, suffix⟩ := points
    exact nothing suffix
  | custom => exact points
  | _ => exact nothing points

theorem Lexeme.PointsAt.behind {bracketLists : Bool} {taken rest : List Char} {lexeme : Lexeme}
    (points : lexeme.PointsAt bracketLists taken rest) (before : List Char) :
    lexeme.PointsAt bracketLists (before ++ taken) rest := by
  cases lexeme with
  | endOfInput => exact points
  | opening opening =>
    cases opening with
    | quoted mark => exact List.IsSuffix.trans points (List.suffix_append before taken)
    | _ => trivial
  | token text => exact List.IsSuffix.trans points (List.suffix_append before taken)
  | number radix digits =>
    have points : ReadFault.PointsAt _ _ _ (.invalidNumber (String.ofList digits) radix) := points
    exact points.behind before
  | fault reason => exact ReadFault.PointsAt.behind points before
  | _ => trivial

theorem all_head?_dropWhile (p : Char → Bool) (text : List Char) :
    (text.dropWhile p).head?.all (!p ·) := by
  have stops := List.head?_dropWhile_not p text
  cases first : (text.dropWhile p).head? with
  | none => rfl
  | some c =>
    rw [first] at stops
    simp only [Option.all_some, stops, Bool.not_false]

def Starter.Suits (c : Char) : Starter → Prop
  | .mark quoting => quoting.text.toList = [c]
  | .comma => c = ','
  | .hash => c = '#'
  | _ => True

theorem Starter.ofChar_suits (bracketLists : Bool) (c : Char) :
    (Starter.ofChar bracketLists c).Suits c := by
  unfold Starter.ofChar
  split
  case h_7 =>
    split
    · trivial
    · split <;> trivial
  all_goals first | rfl | trivial

namespace Dialect

theorem radix?_of_hashStarter {dialect : Dialect} {c : Char} {radix : Nat}
    (starts : dialect.hashStarter c = .radix radix) : radix? c = some radix := by
  unfold hashStarter at starts
  split at starts
  case h_6 =>
    split at starts
    · cases starts
    next found =>
      cases starts
      exact found
    · cases starts
  all_goals cases starts

theorem eq_of_hashStarter_character {dialect : Dialect} {c : Char}
    (starts : dialect.hashStarter c = .character) : c = '\\' := by
  unfold hashStarter at starts
  split at starts
  case h_5 => rfl
  case h_6 => split at starts <;> cases starts
  all_goals cases starts

variable {bracketLists : Bool} {marks : List Char} (exact_marks : marks.all isExactness)

include exact_marks

theorem named_pointsAt (first : Char) (others rest : List Char)
    (next : rest.head?.all (!isLetter ·)) :
    (named first others).PointsAt bracketLists ('#' :: marks ++ '\\' :: first :: others) rest := by
  unfold named
  split
  · trivial
  · trivial
  · refine ⟨⟨marks, exact_marks, ?_⟩, ?_, next⟩
    · simp only [String.toList_ofList, List.suffix_rfl]
    · intro empty
      have empty := congrArg String.toList empty
      rw [String.toList_ofList] at empty
      cases empty

theorem scanCharacter_pointsAt (text : List Char) :
    ∃ taken, text = taken ++ (scanCharacter text).2 ∧
      (scanCharacter text).1.PointsAt bracketLists ('#' :: marks ++ '\\' :: taken)
        (scanCharacter text).2 := by
  cases text with
  | nil => exact ⟨[], rfl, rfl⟩
  | cons first text =>
    simp only [scanCharacter]
    split
    · refine ⟨first :: text.takeWhile isLetter, ?_, ?_⟩
      · rw [List.cons_append, List.takeWhile_append_dropWhile]
      · exact named_pointsAt exact_marks _ _ _ (all_head?_dropWhile isLetter text)
    next other =>
      refine ⟨[first], rfl, ?_⟩
      unfold named
      split
      · trivial
      · trivial
      next => cases ‹[] = _›

variable (dialect : Dialect)

theorem scanSequence_pointsAt (c : Char) (text : List Char) :
    ∃ taken, text = taken ++ (dialect.scanSequence c text).2 ∧
      (dialect.scanSequence c text).1.PointsAt dialect.bracketLists ('#' :: marks ++ c :: taken)
        (dialect.scanSequence c text).2 := by
  unfold scanSequence
  cases starts : dialect.hashStarter c with
  | shebang => exact ⟨_, List.takeWhile_append_dropWhile.symm, trivial⟩
  | blockComment =>
    dsimp only
    cases splits : splitThrough scanBlock ⟨0, none⟩ [] text with
    | none => exact ⟨text, (List.append_nil text).symm, rfl⟩
    | some split => exact ⟨split.1, (splitThrough_append splits).symm, trivial⟩
  | datumComment => exact ⟨[], rfl, trivial⟩
  | vector => exact ⟨[], rfl, trivial⟩
  | character =>
    obtain rfl := eq_of_hashStarter_character starts
    exact scanCharacter_pointsAt exact_marks text
  | constant kind => exact ⟨[], rfl, trivial⟩
  | radix radix =>
    refine ⟨_, List.takeWhile_append_dropWhile.symm, ?_, ?_⟩
    · refine ⟨marks, c, exact_marks, radix?_of_hashStarter starts, ?_⟩
      simp only [String.toList_ofList, List.suffix_rfl]
    · have stops := all_head?_dropWhile dialect.inToken text
      simpa only [inToken, Bool.not_not] using stops
  | unknown => exact ⟨[], rfl, marks, exact_marks, List.suffix_rfl⟩

omit exact_marks

theorem scanHash_pointsAt (text : List Char) :
    ∃ taken, text = taken ++ (dialect.scanHash text).2 ∧
      (dialect.scanHash text).1.PointsAt dialect.bracketLists ('#' :: taken)
        (dialect.scanHash text).2 := by
  have parts : text.takeWhile isExactness ++ text.dropWhile isExactness = text :=
    List.takeWhile_append_dropWhile
  have exact_marks : (text.takeWhile isExactness).all isExactness := List.all_takeWhile
  unfold scanHash
  cases behind : text.dropWhile isExactness with
  | nil => exact ⟨text, (List.append_nil text).symm, rfl⟩
  | cons c rest =>
    obtain ⟨taken, split, points⟩ := scanSequence_pointsAt exact_marks dialect c rest
    refine ⟨text.takeWhile isExactness ++ c :: taken, ?_, points⟩
    rw [List.append_assoc, List.cons_append, ← split, ← behind, parts]

theorem scanStarted_pointsAt (c : Char) (text : List Char) :
    ∃ taken, text = taken ++ (dialect.scanStarted c text).2 ∧
      (dialect.scanStarted c text).1.PointsAt dialect.bracketLists (c :: taken)
        (dialect.scanStarted c text).2 := by
  have suits := Starter.ofChar_suits dialect.bracketLists c
  unfold scanStarted
  cases starts : Starter.ofChar dialect.bracketLists c with
  | mark mark =>
    rw [starts] at suits
    have suits : mark.text.toList = [c] := suits
    exact ⟨[], rfl, suits ▸ List.suffix_rfl⟩
  | comma =>
    rw [starts] at suits
    obtain rfl : c = ',' := suits
    dsimp only
    split
    next splicing =>
      obtain ⟨text, rfl⟩ := List.head?_eq_some_iff.mp (eq_of_beq splicing)
      exact ⟨['@'], rfl, List.suffix_rfl⟩
    next => exact ⟨[], rfl, List.suffix_rfl⟩
  | list bracket => exact ⟨[], rfl, trivial⟩
  | hash =>
    rw [starts] at suits
    obtain rfl : c = '#' := suits
    exact scanHash_pointsAt dialect text
  | string =>
    dsimp only
    cases splits : splitThrough scanString false [] text with
    | none => exact ⟨text, (List.append_nil text).symm, rfl⟩
    | some split => exact ⟨split.1, (splitThrough_append splits).symm, trivial⟩
  | token => exact ⟨_, List.takeWhile_append_dropWhile.symm, List.suffix_rfl⟩
  | nothing => exact ⟨[], rfl, List.suffix_rfl⟩

variable {dialect} in
theorem pointsAt_of_scan {text rest : List Char} {lexeme : Lexeme}
    (scans : dialect.scan text = (lexeme, rest)) :
    ∃ taken, text = taken ++ rest ∧ lexeme.PointsAt dialect.bracketLists taken rest := by
  obtain ⟨blanks, split⟩ := behindBlanks_suffix false text
  unfold scan at scans
  cases behind : behindBlanks false text with
  | nil =>
    rw [behind] at scans
    cases scans
    exact ⟨text, (List.append_nil text).symm, rfl⟩
  | cons c inner =>
    rw [behind] at scans
    have scans : dialect.scanStarted c inner = (lexeme, rest) := scans
    obtain ⟨taken, split', points⟩ := scanStarted_pointsAt dialect c inner
    rw [scans] at split' points
    refine ⟨blanks ++ c :: taken, ?_, points.behind blanks⟩
    rw [List.append_assoc, List.cons_append, ← split', ← behind, split]

end Dialect

end SexprReader
