import SexprReader.Proofs.Reader.Culprits
import SexprReader.Proofs.Reader.Lookahead

namespace SexprReader

open ReadM Lexeme

variable {σ V : Type}

/-- The characters end with those that make up the lexeme. Only quotes, tokens, numbers and unknown
sequences are read off them. -/
def Lexeme.EndsIn (taken : List Char) : Lexeme → Prop
  | .token text => text <:+ taken
  | .number radix digits =>
    ∃ marks letter, marks.all isExactness ∧ radix? letter = some radix ∧
      '#' :: marks ++ letter :: digits <:+ taken
  | .opening (.quoted mark) => mark.text.toList <:+ taken
  | .fault (.unsupportedHash c) => ∃ marks, marks.all isExactness ∧ '#' :: marks ++ [c] <:+ taken
  | .fault reason => reason.IsOwn
  | _ => True

def Found.EndsIn (taken : List Char) : Found → Prop
  | .part lexeme => lexeme.EndsIn taken
  | .closer => True
  | .fault reason => reason.IsOwn

def Found.IsSpelt (found : Found) (text rest : List Char) : Prop :=
  ∃ taken, text = taken ++ rest ∧ found.EndsIn taken

theorem Lexeme.PointsAt.endsIn {bracketLists : Bool} {lexeme : Lexeme} {taken rest : List Char}
    (points : lexeme.PointsAt bracketLists taken rest) : lexeme.EndsIn taken := by
  cases lexeme with
  | token text => exact points
  | number radix digits =>
    obtain ⟨⟨marks, letter, exact_marks, same, suffix⟩, -⟩ := points
    rw [String.toList_ofList] at suffix
    exact ⟨marks, letter, exact_marks, same, suffix⟩
  | opening opening =>
    cases opening with
    | quoted mark => exact points
    | _ => trivial
  | fault reason =>
    cases reason with
    | unsupportedHash c => exact points
    | custom _ _ => exact points
    | _ => trivial
  | _ => trivial

namespace Dialect

variable (dialect : Dialect)

/-- A lexeme is spelt by the characters that are taken for it, the last of them its own. -/
theorem scan_spelt (text : List Char) :
    ∃ taken, text = taken ++ (dialect.scan text).2 ∧ (dialect.scan text).1.EndsIn taken := by
  have scans : dialect.scan text = ((dialect.scan text).1, (dialect.scan text).2) := rfl
  obtain ⟨taken, split, points⟩ := pointsAt_of_scan scans
  exact ⟨taken, split, points.endsIn⟩

theorem scanTurn_isSpelt (expected : Expected) (text : List Char) :
    (dialect.scanTurn expected text).1.IsSpelt text (dialect.scanTurn expected text).2 := by
  obtain ⟨blanks, split⟩ := behindBlanks_suffix false text
  cases expected with
  | part => exact dialect.scan_spelt text
  | partOrCloser bracket =>
    simp only [scanTurn]
    cases behind : behindBlanks false text with
    | nil => exact ⟨text, (List.append_nil text).symm, trivial⟩
    | cons c rest =>
      dsimp only
      split
      · refine ⟨blanks ++ [c], ?_, trivial⟩
        rw [List.append_assoc, List.singleton_append, ← behind, split]
      · exact dialect.scan_spelt text
  | closer bracket =>
    simp only [scanTurn]
    cases behind : behindBlanks false text with
    | nil => exact ⟨text, (List.append_nil text).symm, trivial⟩
    | cons c rest =>
      have taken : text = (blanks ++ [c]) ++ rest := by
        rw [List.append_assoc, List.singleton_append, ← behind, split]
      dsimp only
      split
      · exact ⟨blanks ++ [c], taken, trivial⟩
      · exact ⟨blanks ++ [c], taken, trivial⟩

/-- The scanner finds what a turn takes, also where the text is followed by something that cannot be
decoded. -/
theorem scanTurn_of_takeTurn {dialect : Dialect} {expected : Expected} {s s' : ReadState σ}
    {found : Found} (took : dialect.takeTurn expected s = .ok found s') :
    dialect.scanTurn expected s.source.remaining = (found, s'.source.remaining) := by
  have lexical : Lexical (dialect.takeTurn expected : ReadM σ Found)
      (dialect.takeTurn expected : ReadM σ Found) := dialect.takeTurn_lexical expected
  obtain ⟨t, ended, -, remaining⟩ := lexical.nearsighted.ended took
  have stands : s.ended.Stands s.host s.source.remaining := ⟨rfl, rfl, rfl⟩
  obtain ⟨t', stands', scanned⟩ :=
    dialect.takeTurn_becomes expected s.host s.source.remaining s.ended stands
  have scanned : dialect.takeTurn expected s.ended =
      .ok (dialect.scanTurn expected s.source.remaining).1 t' := scanned
  rw [ended] at scanned
  cases scanned
  exact Prod.ext rfl (stands'.remaining.symm.trans remaining)

theorem isSpelt_of_takeTurn {dialect : Dialect} {expected : Expected} {s s' : ReadState σ}
    {found : Found} (took : dialect.takeTurn expected s = .ok found s') :
    s'.host = s.host ∧ found.IsSpelt s.source.remaining s'.source.remaining := by
  have free : HostFree (dialect.takeTurn expected : ReadM σ Found)
      (dialect.takeTurn expected : ReadM σ Found) := dialect.takeTurn_hostFree expected
  have same := free.host_eq s
  have spelt := dialect.scanTurn_isSpelt expected s.source.remaining
  rw [scanTurn_of_takeTurn took] at spelt
  rw [took] at same
  exact ⟨same, spelt⟩

end Dialect

end SexprReader
