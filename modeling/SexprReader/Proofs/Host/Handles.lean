import SexprReader.Host.Handle
import SexprReader.Proofs.Host.Replay

namespace SexprReader

namespace Handles

/-- What a handle stands for, if it was given out. -/
def kind (s : Handles) : Handle → Option Kind
  | .nil => some (.constant .nil)
  | .true => some (.constant .true)
  | .false => some (.constant .false)
  | .unspecified => some (.constant .unspecified)
  | .endOfStream => some (.constant .endOfStream)
  | .logicalEof => some (.constant .logicalEof)
  | .pair number => if number < s.pairs then some .object else none
  | .string number => if number < s.strings then some .object else none
  | .processedString number => if number < s.processedStrings then some .object else none
  | .vector number => if number < s.vectors then some .object else none
  | .symbol number => s.symbols[number]?.map .symbol
  | .integer n => some (.integer n)
  | .character codePoint => some (.character codePoint)

def Distinct (s : Handles) : Prop :=
  ∀ (i j : Nat) (name : String), s.symbols[i]? = some name → s.symbols[j]? = some name → i = j

theorem distinct_initial : Distinct initial := by
  intro i j name found
  simp [initial] at found

structure Grows (s s' : Handles) : Prop where
  pairs : s.pairs ≤ s'.pairs
  strings : s.strings ≤ s'.strings
  processedStrings : s.processedStrings ≤ s'.processedStrings
  vectors : s.vectors ≤ s'.vectors
  symbols : ∀ (i : Nat) (name : String), s.symbols[i]? = some name → s'.symbols[i]? = some name

variable {s s' : Handles}

theorem Grows.onward (grows : Grows s s') (distinct : Distinct s') :
    Onward Distinct kind s s' := by
  refine ⟨distinct, fun v k stands => ?_⟩
  cases v with
  | pair number =>
    have less := grows.pairs
    simp only [kind, Option.ite_none_right_eq_some] at stands ⊢
    exact ⟨by omega, stands.2⟩
  | string number =>
    have less := grows.strings
    simp only [kind, Option.ite_none_right_eq_some] at stands ⊢
    exact ⟨by omega, stands.2⟩
  | processedString number =>
    have less := grows.processedStrings
    simp only [kind, Option.ite_none_right_eq_some] at stands ⊢
    exact ⟨by omega, stands.2⟩
  | vector number =>
    have less := grows.vectors
    simp only [kind, Option.ite_none_right_eq_some] at stands ⊢
    exact ⟨by omega, stands.2⟩
  | symbol number =>
    simp only [kind, Option.map_eq_some_iff] at stands ⊢
    obtain ⟨name, found, same⟩ := stands
    exact ⟨name, grows.symbols _ _ found, same⟩
  | _ => exact stands

theorem Grows.refl (s : Handles) : Grows s s :=
  ⟨Nat.le_refl _, Nat.le_refl _, Nat.le_refl _, Nat.le_refl _, fun _ _ found => found⟩

theorem getElem?_of_idxOf? {name : String} {number : Nat} (found : s.symbols.idxOf? name = some number) :
    s.symbols[number]? = some name := by
  rw [Array.idxOf?_eq_map_finIdxOf?_val, Option.map_eq_some_iff] at found
  obtain ⟨i, found, rfl⟩ := found
  have same := (Array.finIdxOf?_eq_some_iff.mp found).1
  exact Array.getElem?_eq_some_iff.mpr ⟨i.isLt, same⟩

theorem Distinct.push (distinct : Distinct s) {name : String} (new : name ∉ s.symbols) :
    Distinct { s with symbols := s.symbols.push name } := by
  have inside (i : Nat) (name' : String) (found : (s.symbols.push name)[i]? = some name') :
      s.symbols[i]? = some name' ∨ i = s.symbols.size ∧ name' = name := by
    grind
  intro i j name' found found'
  obtain here | ⟨rfl, rfl⟩ := inside i name' found
  · obtain here' | ⟨rfl, rfl⟩ := inside j name' found'
    · exact distinct i j name' here here'
    · exact absurd (Array.mem_of_getElem? here) new
  · obtain here' | ⟨rfl, -⟩ := inside j name' found'
    · exact absurd (Array.mem_of_getElem? here') new
    · rfl

theorem intern_issues (distinct : Distinct s) (name : String) :
    Issues Distinct kind s (.symbol name) (intern name s) := by
  unfold intern
  split
  next number found =>
    refine .handle ((Grows.refl s).onward distinct) ?_ nofun
    simp [kind, getElem?_of_idxOf? found]
  next missing =>
    have new : name ∉ s.symbols := Array.idxOf?_eq_none_iff.mp missing
    have grows : Grows s { s with symbols := s.symbols.push name } :=
      { Grows.refl s with symbols := by grind }
    refine .handle (grows.onward (distinct.push new)) ?_ nofun
    simp [kind]

def ofSentinel : Sentinel → Handle
  | .nil => .nil
  | .true => .true
  | .false => .false
  | .unspecified => .unspecified
  | .endOfStream => .endOfStream
  | .logicalEof => .logicalEof

theorem eq_ofSentinel {v : Handle} {c : Sentinel} (stands : kind s v = some (.constant c)) :
    v = ofSentinel c := by
  cases v <;> simp_all [kind] <;> subst stands <;> rfl

theorem exists_of_kind_symbol {v : Handle} {name : String} (stands : kind s v = some (.symbol name)) :
    ∃ number, v = .symbol number ∧ s.symbols[number]? = some name := by
  cases v <;> simp_all [kind]

theorem hides : (host ⟨.all, false, .raise⟩).Opaque Distinct kind where
  makePair s distinct first rest := by
    have grows : Grows s { s with pairs := s.pairs + 1 } :=
      { Grows.refl s with pairs := Nat.le_succ _ }
    exact .handle (grows.onward distinct) (by simp [kind]) (by simp [kind])
  makeString s distinct text := by
    have grows : Grows s { s with strings := s.strings + 1 } :=
      { Grows.refl s with strings := Nat.le_succ _ }
    exact .handle (grows.onward distinct) (by simp [kind]) (by simp [kind])
  listToVector s distinct list := by
    have grows : Grows s { s with vectors := s.vectors + 1 } :=
      { Grows.refl s with vectors := Nat.le_succ _ }
    exact .handle (grows.onward distinct) (by simp [kind]) (by simp [kind])
  internSymbol s distinct name := intern_issues distinct name
  makeCharacter s distinct codePoint :=
    .handle ((Grows.refl s).onward distinct) rfl (by simp)
  parseNumber s distinct text radix := by
    change IssuesNumber _ _ _ _ (Handles.parseNumber text radix s)
    unfold Handles.parseNumber
    generalize parseInteger text radix = parsed
    have same := (Grows.refl s).onward distinct
    rcases parsed with fault | _ | n
    · exact ⟨s, same, rfl⟩
    · exact .handle same rfl (by simp)
    · exact .handle same rfl (by simp)
  setRest s distinct pair rest := ⟨s, (Grows.refl s).onward distinct, rfl⟩
  postProcessString v s := rfl
  signalError s distinct e := ⟨s, (Grows.refl s).onward distinct, rfl⟩
  eq_iff v w := beq_iff_eq
  -- Constants and symbols alone have a handle of their own: pairs are numbered, and so always new.
  unique s distinct v w k named stands stands' := by
    cases k with
    | constant c => rw [eq_ofSentinel stands, eq_ofSentinel stands']
    | symbol name =>
      obtain ⟨i, rfl, found⟩ := exists_of_kind_symbol stands
      obtain ⟨j, rfl, found'⟩ := exists_of_kind_symbol stands'
      rw [distinct i j name found found']
    | integer n => cases named
    | character codePoint => cases named
    | object => cases named
  constants s distinct := rfl
  supports constant := by cases constant <;> rfl
  nilSymbol?_eq := rfl

end Handles

end SexprReader
