import SexprReader.Proofs.Grammar.Parses
import SexprReader.Value.Printer

namespace SexprReader

namespace Numeral

def isDecimal (text : List Char) : Bool :=
  let digits := (splitSign text).2
  !digits.isEmpty && digits.all Char.isDigit

theorem toNat_of_isDigit {c : Char} (digit : c.isDigit = true) : 48 ≤ c.toNat ∧ c.toNat ≤ 57 := by
  simp only [Char.isDigit, Bool.and_eq_true, decide_eq_true_eq, ge_iff_le,
    UInt32.le_iff_toNat_le] at digit
  exact digit

theorem admittedValue?_ten (c : Char) :
    admittedValue? 10 c = if c.isDigit then some (c.toNat - 48) else none := by
  have ten : admittedDigits 10 = 10 := rfl
  unfold admittedValue? digitValue?
  by_cases digit : c.isDigit = true
  · have range := toNat_of_isDigit digit
    have small : c.toNat - 48 < 10 := by omega
    rw [if_pos digit, if_pos digit, ten]
    exact if_pos small
  · rw [if_neg digit, if_neg digit, ten]
    have large (offset : Nat) : ¬offset + 10 < 10 := by omega
    by_cases lower : c.isLower = true
    · rw [if_pos lower]
      exact if_neg (large _)
    · rw [if_neg lower]
      by_cases upper : c.isUpper = true
      · rw [if_pos upper]
        exact if_neg (large _)
      · rw [if_neg upper]

theorem digitValues?_ten (digits : List Char) :
    digitValues? 10 digits =
      if !digits.isEmpty && digits.all Char.isDigit then some (digits.map fun c => c.toNat - 48)
      else none := by
  have each : digits.mapM (admittedValue? 10) =
      if digits.all Char.isDigit then some (digits.map fun c => c.toNat - 48) else none := by
    induction digits with
    | nil => rfl
    | cons c digits ih =>
      rw [List.mapM_cons, ih, admittedValue?_ten]
      by_cases digit : c.isDigit = true
      · by_cases others : digits.all Char.isDigit = true
        · simp [digit, others]
        · simp [digit, others]
      · simp [digit]
  unfold digitValues?
  rw [each]
  cases digits <;> simp

theorem parseInteger_eq_none_iff {text : String} :
    parseInteger text 10 = .ok none ↔ isDecimal text.toList = false := by
  unfold parseInteger isDecimal
  simp only [digitValues?_ten]
  cases (!(splitSign text.toList).2.isEmpty && (splitSign text.toList).2.all Char.isDigit) with
  | false => simp
  | true =>
    simp only [if_true]
    split
    · simp
    · split <;> simp

theorem splitSign_of_digits {digits : List Char} (all : digits.all Char.isDigit = true) :
    splitSign digits = (false, digits) := by
  unfold splitSign
  split
  · simp at all
  · simp at all
  · rfl

/-- A sign, perhaps, and then more decimal digits than are evaluated. -/
def IsOverlong (text : List Char) : Prop :=
  ∃ sign digits, text = sign ++ digits ∧ (sign = [] ∨ sign = ['+'] ∨ sign = ['-']) ∧
    digits.all Char.isDigit = true ∧ digitLimit < digits.length

theorem isOverlong_iff {text : List Char} :
    IsOverlong text ↔
      (splitSign text).2.all Char.isDigit = true ∧ digitLimit < (splitSign text).2.length := by
  constructor
  · rintro ⟨_, digits, rfl, rfl | rfl | rfl, decimal, many⟩
    · rw [List.nil_append, splitSign_of_digits decimal]
      exact ⟨decimal, many⟩
    · exact ⟨decimal, many⟩
    · exact ⟨decimal, many⟩
  · intro overlong
    unfold splitSign at overlong
    split at overlong
    · exact ⟨['-'], _, rfl, .inr (.inr rfl), overlong⟩
    · exact ⟨['+'], _, rfl, .inr (.inl rfl), overlong⟩
    · exact ⟨[], _, rfl, .inl rfl, overlong⟩

theorem parseInteger_ten_error_iff {text : String} {fault : ValueFault} :
    parseInteger text 10 = .error fault ↔ fault = .tooManyDigits ∧ IsOverlong text.toList := by
  rw [isOverlong_iff]
  unfold parseInteger
  simp only [digitValues?_ten]
  generalize (splitSign text.toList).2 = digits
  have ten : ((10 : Int) < 2 || (36 : Int) < 10) = false := rfl
  have power : isPowerOfTwo (10 : Int).toNat = false := rfl
  cases decimal : !digits.isEmpty && digits.all Char.isDigit with
  | false =>
    have other : ¬(digits.all Char.isDigit = true ∧ digitLimit < digits.length) := by
      rintro ⟨all, many⟩
      cases digits with
      | nil => cases many
      | cons => cases decimal.symm.trans all
    simp only [other, and_false, iff_false]
    exact nofun
  | true =>
    have all : digits.all Char.isDigit = true := (Bool.and_eq_true_iff.mp decimal).2
    simp only [if_true, ten, power, List.length_map, all, true_and]
    by_cases many : digitLimit < digits.length
    · simp [many, eq_comm]
    · simp [many]

theorem parseInteger_of_isPowerOfTwo {radix : Nat} (power : isPowerOfTwo radix = true)
    (text : String) : ∃ n?, parseInteger text radix = .ok n? := by
  have usable : 2 ≤ radix ∧ radix ≤ 36 := by
    simp only [isPowerOfTwo, List.contains_cons, List.contains_nil, Bool.or_eq_true, beq_iff_eq,
      Bool.false_eq_true, or_false] at power
    omega
  unfold parseInteger
  dsimp only
  split
  · exact ⟨_, rfl⟩
  · have inside : ((radix : Int) < 2 || (36 : Int) < radix) = false := by
      rw [Bool.or_eq_false_iff, decide_eq_false_iff_not, decide_eq_false_iff_not]
      omega
    rw [inside, Int.toNat_natCast, power, Bool.not_true, Bool.and_false]
    exact ⟨_, rfl⟩

theorem magnitude_toDigits (m : Nat) :
    magnitude 10 ((Nat.toDigits 10 m).map fun c => c.toNat - 48) = m := by
  have value : Nat.ofDigitChars 10 (Nat.toDigits 10 m) 0 = m := Nat.ofDigitChars_ten_toDigits
  rw [Nat.ofDigitChars_eq_foldl] at value
  rw [magnitude_eq_foldl, List.foldl_map]
  simp only [Nat.mul_comm _ 10]
  exact value

theorem all_isDigit_toDigits (m : Nat) : (Nat.toDigits 10 m).all Char.isDigit = true :=
  List.all_eq_true.mpr fun _ => Nat.isDigit_of_mem_toDigits (by omega) (by omega)

theorem length_toDigits_le {m limit : Nat} (positive : 0 < limit) (short : m < Nat.pow 10 limit) :
    (Nat.toDigits 10 m).length ≤ limit :=
  (Nat.length_toDigits_le_iff (by omega) positive).mpr short

theorem parseInteger_of_splitSign {text : String} {negative : Bool} {m : Nat}
    (split : splitSign text.toList = (negative, Nat.toDigits 10 m))
    (short : m < Nat.pow 10 printedDigitLimit) :
    parseInteger text 10 = .ok (some (if negative then -m else m)) := by
  have limit : printedDigitLimit = digitLimit := rfl
  rw [limit] at short
  have length : (Nat.toDigits 10 m).length ≤ digitLimit := length_toDigits_le (by decide) short
  have values := digitValues?_ten (Nat.toDigits 10 m)
  rw [if_pos (by simp [all_isDigit_toDigits])] at values
  have few : ¬digitLimit < ((Nat.toDigits 10 m).map fun c => c.toNat - 48).length := by
    rw [List.length_map]
    omega
  have value : magnitude (10 : Int).toNat ((Nat.toDigits 10 m).map fun c => c.toNat - 48) = m :=
    magnitude_toDigits m
  simp only [parseInteger, split, values, few, value]
  rfl

theorem parseInteger_repr {n : Int} (short : n.natAbs < Nat.pow 10 printedDigitLimit) :
    parseInteger n.repr 10 = .ok (some n) := by
  cases n with
  | ofNat m =>
    have split : splitSign (Nat.repr m).toList = (false, Nat.toDigits 10 m) := by
      rw [Nat.toList_repr, splitSign_of_digits (all_isDigit_toDigits m)]
    exact parseInteger_of_splitSign split short
  | negSucc m =>
    have split : splitSign ("-" ++ Nat.repr (m + 1)).toList = (true, Nat.toDigits 10 (m + 1)) := by
      simp [splitSign]
    exact parseInteger_of_splitSign split short

end Numeral

namespace Lexeme

def isName (bracketLists : Bool) : List Char → Bool
  | [] => false
  | c :: others =>
    startsToken c && others.all (!isTerminator bracketLists ·) && !Numeral.isDecimal (c :: others)

theorem solid_of_startsToken {c : Char} (starts : startsToken c = true) :
    isWhitespace c = false ∧ c ≠ ';' := by
  constructor
  · by_contra blank
    simp only [isWhitespace, Bool.not_eq_false, Bool.or_eq_true, beq_iff_eq] at blank
    rcases blank with ((((rfl | rfl) | rfl) | rfl) | rfl) | rfl <;> exact absurd starts (by decide)
  · rintro rfl
    exact absurd starts (by decide)

theorem ofChar_of_startsToken (bracketLists : Bool) {c : Char} (starts : startsToken c = true) :
    Starter.ofChar bracketLists c = .token := by
  unfold Starter.ofChar
  split
  case h_7 =>
    have other : c ≠ '[' := by
      rintro rfl
      exact absurd starts (by decide)
    simp [starts, other]
  all_goals exact absurd starts (by decide)

theorem not_isTerminator_of_isDigit (bracketLists : Bool) {c : Char} (digit : c.isDigit = true) :
    isTerminator bracketLists c = false := by
  have range := Numeral.toNat_of_isDigit digit
  have other (d : Char) (outside : d.toNat < 48 ∨ 57 < d.toNat) : c ≠ d := by
    rintro rfl
    omega
  simp [isTerminator, isWhitespace, other]

theorem startsToken_of_isDigit {c : Char} (digit : c.isDigit = true) : startsToken c = true := by
  simp [startsToken, Char.isAlphanum, digit]

end Lexeme

namespace Dialect

variable {dialect : Dialect} {more : List Char}

def Bounds (dialect : Dialect) (text : List Char) : Prop :=
  ∀ c, text.head? = some c → dialect.inToken c = false

theorem Bounds.nil (dialect : Dialect) : dialect.Bounds [] := by
  intro c first
  cases first

theorem Bounds.space (dialect : Dialect) (text : List Char) : dialect.Bounds (' ' :: text) := by
  rintro c ⟨⟩
  simp [inToken, Lexeme.isTerminator, Lexeme.isWhitespace]

theorem Bounds.closer (dialect : Dialect) (text : List Char) : dialect.Bounds (')' :: text) := by
  rintro c ⟨⟩
  simp [inToken, Lexeme.isTerminator]

theorem Bounds.takeWhile (bounds : dialect.Bounds more) :
    more.takeWhile dialect.inToken = [] ∧ more.dropWhile dialect.inToken = more := by
  cases more with
  | nil => exact ⟨rfl, rfl⟩
  | cons c more => simp [bounds c rfl]

theorem scan_token {c : Char} {others : List Char} (starts : Lexeme.startsToken c = true)
    (inside : others.all dialect.inToken = true) (bounds : dialect.Bounds more) :
    dialect.scan (c :: others ++ more) = (.token (c :: others), more) := by
  obtain ⟨solid, other⟩ := Lexeme.solid_of_startsToken starts
  have blanks : behindBlanks false (c :: others ++ more) = c :: (others ++ more) := by
    simp [behindBlanks, solid, other]
  have all := List.all_eq_true.mp inside
  simp only [scan, blanks, scanStarted, Lexeme.ofChar_of_startsToken _ starts,
    List.takeWhile_append_of_pos all, List.dropWhile_append_of_pos all, bounds.takeWhile,
    List.append_nil]

end Dialect

namespace Convention

variable {conv : Convention} {more : List Char}

theorem parses_token {c : Char} {others : List Char} (starts : Lexeme.startsToken c = true)
    (inside : others.all conv.dialect.inToken = true) (bounds : conv.dialect.Bounds more) :
    Parses conv .item (c :: others ++ more) (conv.token (String.ofList (c :: others))) more :=
  .atom (Dialect.scan_token starts inside bounds) rfl

theorem parses_name {name : String} (plain : conv.nilAlias ≠ some name)
    (token : Lexeme.isName conv.bracketLists name.toList = true) (bounds : conv.dialect.Bounds more) :
    Parses conv .item (name.toList ++ more) (.ok (.form (.symbol name))) more := by
  cases chars : name.toList with
  | nil => simp [chars, Lexeme.isName] at token
  | cons c others =>
    rw [chars] at token
    simp only [Lexeme.isName, Bool.and_eq_true, Bool.not_eq_true'] at token
    obtain ⟨⟨starts, inside⟩, other⟩ := token
    rw [← chars] at other
    have means : conv.token (String.ofList (c :: others)) = .ok (.form (.symbol name)) := by
      rw [← chars]
      simp [Convention.token, Numeral.parseInteger_eq_none_iff.mpr other, plain]
    rw [← means]
    exact parses_token starts inside bounds

theorem parses_dot (plain : conv.nilAlias = none) (inner : List Char) :
    Parses conv .item ('.' :: ' ' :: inner) (.ok (.form (.symbol "."))) (' ' :: inner) := by
  have token : Lexeme.isName conv.bracketLists ".".toList = true := by
    cases conv.bracketLists <;> decide
  exact parses_name (by simp [plain]) token (.space conv.dialect inner)

theorem parses_integer {n : Int} (short : n.natAbs < Nat.pow 10 printedDigitLimit)
    (bounds : conv.dialect.Bounds more) :
    Parses conv .item (n.repr.toList ++ more) (.ok (.form (.integer n))) more := by
  have digits (m : Nat) (c : Char) (member : c ∈ Nat.toDigits 10 m) :=
    List.all_eq_true.mp (Numeral.all_isDigit_toDigits m) c member
  have inside {chars : List Char} (all : ∀ c ∈ chars, c.isDigit = true) :
      chars.all conv.dialect.inToken = true := by
    refine List.all_eq_true.mpr fun c member => ?_
    simp [Dialect.inToken, Lexeme.not_isTerminator_of_isDigit _ (all c member)]
  have shape : ∃ c others, n.repr.toList = c :: others ∧ Lexeme.startsToken c = true ∧
      others.all conv.dialect.inToken = true := by
    cases n with
    | ofNat m =>
      obtain ⟨c, others, chars⟩ := List.exists_cons_of_ne_nil (Nat.toDigits_ne_nil (n := m) (b := 10))
      refine ⟨c, others, by simp [Int.repr, chars], ?_, inside fun d member => ?_⟩
      · exact Lexeme.startsToken_of_isDigit (digits m c (by simp [chars]))
      · exact digits m d (by simp [chars, member])
    | negSucc m =>
      exact ⟨'-', Nat.toDigits 10 (m + 1), by simp [Int.repr], by decide, inside (digits (m + 1))⟩
  obtain ⟨c, others, chars, starts, inside⟩ := shape
  have means : conv.token (String.ofList (c :: others)) = .ok (.form (.integer n)) := by
    rw [← chars]
    simp [token, Numeral.parseInteger_repr short]
  rw [chars, ← means]
  exact parses_token starts inside bounds

end Convention

end SexprReader
