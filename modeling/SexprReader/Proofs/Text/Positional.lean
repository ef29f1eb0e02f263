import Mathlib.Algebra.BigOperators.Fin
import Mathlib.Data.Nat.Digits.Lemmas
import Mathlib.Tactic.IntervalCases
import SexprReader.Numeral

namespace SexprReader

namespace Numeral

def lowerDigits : List Char := "0123456789abcdefghijklmnopqrstuvwxyz".toList

def capitalDigits : List Char := "0123456789ABCDEFGHIJKLMNOPQRSTUVWXYZ".toList

structure Digit (radix : Nat) where
  char : Char
  value : Nat
  spells : lowerDigits[value]? = some char ∨ capitalDigits[value]? = some char
  below : value < radix

inductive Sign where
  | unsigned
  | plus
  | minus
deriving DecidableEq, Repr

def Sign.text : Sign → List Char
  | unsigned => []
  | plus => ['+']
  | minus => ['-']

def Sign.apply (sign : Sign) (n : Nat) : Int := if sign = .minus then -n else n

/-- A numeral as it is written: a sign, perhaps, in front of at least one digit. -/
structure Written (radix : Nat) where
  sign : Sign
  digits : List (Digit radix)
  some : digits ≠ []

namespace Written

variable {radix : Nat}

def text (w : Written radix) : List Char := w.sign.text ++ w.digits.map Digit.char

def magnitude (w : Written radix) : Nat :=
  ∑ i : Fin w.digits.length, w.digits[i].value * radix ^ (w.digits.length - (i + 1))

def value (w : Written radix) : Int := w.sign.apply w.magnitude

end Written

def Evaluable (radix length : Nat) : Prop := (∃ k, radix = 2 ^ k) ∨ length ≤ digitLimit

/-- The values of the digits that a number has, the last of them ones. -/
def places (radix n : Nat) : List Nat := if n = 0 then [0] else (Nat.digits radix n).reverse

def digitChar (capital : Bool) (value : Nat) : Char :=
  (if capital then capitalDigits else lowerDigits).getD value ' '

/-- The numeral of an integer behind so many zeros. For each of its digits `capital` says whether it is a
capital letter. -/
def spell (radix : Nat) (n : Int) (plus : Bool) (zeros : Nat) (capital : Nat → Bool) : List Char :=
  let sign : Sign := if n < 0 then .minus else if plus then .plus else .unsigned
  sign.text ++ (List.replicate zeros 0 ++ places radix n.natAbs).mapIdx fun i => digitChar (capital i)

section Digits

theorem toNat_lt_of_digitValue? {c : Char} {value : Nat} (counts : digitValue? c = some value) :
    c.toNat < 128 := by
  have ascii {high : UInt32} (below : c.val ≤ high) (small : high < 128) : c.toNat < 128 :=
    UInt32.lt_iff_toNat_lt.mp (UInt32.lt_of_le_of_lt below small)
  unfold digitValue? at counts
  split at counts
  next digit =>
    simp only [Char.isDigit, Bool.and_eq_true, decide_eq_true_eq] at digit
    exact ascii digit.2 (by decide)
  · split at counts
    next lower =>
      have range : (decide (c.val ≥ 'a'.val) && decide (c.val ≤ 'z'.val)) = true := lower
      rw [Bool.and_eq_true, decide_eq_true_eq, decide_eq_true_eq] at range
      exact ascii range.2 (by decide)
    · split at counts
      next upper =>
        have range : c.val ≥ 'A'.val ∧ c.val ≤ 'Z'.val := of_decide_eq_true upper
        exact ascii range.2 (by decide)
      · cases counts

theorem digitValue?_eq_some_iff {c : Char} {value : Nat} :
    digitValue? c = some value ↔ lowerDigits[value]? = some c ∨ capitalDigits[value]? = some c := by
  constructor
  · intro counts
    have all : ∀ n < 128, ∀ value ∈ digitValue? (Char.ofNat n),
        lowerDigits[value]? = some (Char.ofNat n) ∨ capitalDigits[value]? = some (Char.ofNat n) := by
      decide +kernel
    simpa using all c.toNat (toNat_lt_of_digitValue? counts) value (by simpa using counts)
  · have all : ∀ value < 36, lowerDigits[value]?.bind digitValue? = some value ∧
        capitalDigits[value]?.bind digitValue? = some value := by
      decide +kernel
    rintro (spells | spells)
    · have counted := (all value (List.getElem?_eq_some_iff.mp spells).1).1
      rwa [spells] at counted
    · have counted := (all value (List.getElem?_eq_some_iff.mp spells).1).2
      rwa [spells] at counted

variable {radix : Nat}

theorem admittedValue?_eq_some_iff (most : radix ≤ 36) {c : Char} {value : Nat} :
    admittedValue? radix c = some value ↔ ∃ digit : Digit radix, digit.char = c ∧ digit.value = value := by
  have admitted : admittedDigits radix = radix := by
    rw [admittedDigits, if_neg (by omega), Int.toNat_natCast]
    exact Nat.min_eq_left most
  unfold admittedValue?
  rw [admitted]
  constructor
  · intro counts
    split at counts
    next value' counted =>
      split at counts
      next below =>
        cases counts
        exact ⟨⟨c, value, digitValue?_eq_some_iff.mp counted, below⟩, rfl, rfl⟩
      next => cases counts
    next => cases counts
  · rintro ⟨digit, rfl, rfl⟩
    rw [digitValue?_eq_some_iff.mpr digit.spells]
    exact if_pos digit.below

theorem mapM_admittedValue?_eq_some_iff (most : radix ≤ 36) {text : List Char} {values : List Nat} :
    text.mapM (admittedValue? radix) = some values ↔
      ∃ digits : List (Digit radix), digits.map Digit.char = text ∧ digits.map Digit.value = values := by
  induction text generalizing values with
  | nil =>
    constructor
    · rintro ⟨⟩
      exact ⟨[], rfl, rfl⟩
    · rintro ⟨digits, empty, rfl⟩
      rw [List.map_eq_nil_iff.mp empty]
      rfl
  | cons c text ih =>
    rw [List.mapM_cons, Option.bind_eq_bind, Option.bind_eq_some_iff]
    constructor
    · rintro ⟨value, counts, others⟩
      obtain ⟨values', counted, same⟩ := Option.bind_eq_some_iff.mp others
      cases same
      obtain ⟨digit, rfl, rfl⟩ := (admittedValue?_eq_some_iff most).mp counts
      obtain ⟨digits, rfl, rfl⟩ := ih.mp counted
      exact ⟨digit :: digits, rfl, rfl⟩
    · rintro ⟨digits, chars, rfl⟩
      obtain ⟨digit, digits, rfl, rfl, rfl⟩ := List.map_eq_cons_iff.mp chars
      refine ⟨digit.value, (admittedValue?_eq_some_iff most).mpr ⟨digit, rfl, rfl⟩, ?_⟩
      rw [ih.mpr ⟨digits, rfl, rfl⟩]
      rfl

theorem digitValues?_eq_some_iff (most : radix ≤ 36) {text : List Char} {values : List Nat} :
    digitValues? radix text = some values ↔ ∃ digits : List (Digit radix), digits ≠ [] ∧
      digits.map Digit.char = text ∧ digits.map Digit.value = values := by
  unfold digitValues?
  rw [Option.ite_none_left_eq_some, mapM_admittedValue?_eq_some_iff most, List.isEmpty_iff]
  constructor
  · rintro ⟨some, digits, rfl, rfl⟩
    exact ⟨digits, fun empty => some (by rw [empty]; rfl), rfl, rfl⟩
  · rintro ⟨digits, some, rfl, rfl⟩
    exact ⟨by simpa using some, digits, rfl, rfl⟩

theorem Digit.ne_sign (digit : Digit radix) : digit.char ≠ '+' ∧ digit.char ≠ '-' := by
  have counts := digitValue?_eq_some_iff.mpr digit.spells
  have plus : digitValue? '+' = none := by decide
  have minus : digitValue? '-' = none := by decide
  constructor
  · intro same
    rw [same, plus] at counts
    cases counts
  · intro same
    rw [same, minus] at counts
    cases counts

end Digits

section Signs

theorem splitSign_append (sign : Sign) {behind : List Char}
    (unsigned : behind.head? ≠ some '+' ∧ behind.head? ≠ some '-') :
    splitSign (sign.text ++ behind) = (sign == .minus, behind) := by
  cases sign with
  | plus => rfl
  | minus => rfl
  | unsigned =>
    change splitSign behind = (false, behind)
    unfold splitSign
    split
    · exact absurd rfl unsigned.2
    · exact absurd rfl unsigned.1
    · rfl

theorem exists_sign (text : List Char) :
    ∃ sign : Sign, text = sign.text ++ (splitSign text).2 ∧ (splitSign text).1 = (sign == .minus) := by
  unfold splitSign
  split
  · exact ⟨.minus, rfl, rfl⟩
  · exact ⟨.plus, rfl, rfl⟩
  · exact ⟨.unsigned, rfl, rfl⟩

end Signs

section Values

variable {radix : Nat}

theorem foldl_places (digits : List (Digit radix)) (n : Nat) :
    (digits.map Digit.value).foldl (fun n digit => n * radix + digit) n =
      n * radix ^ digits.length +
        ∑ i : Fin digits.length, digits[i].value * radix ^ (digits.length - (i + 1)) := by
  induction digits generalizing n with
  | nil => simp
  | cons digit digits ih =>
    have first : (n * radix + digit.value) * radix ^ digits.length =
        n * radix ^ (digits.length + 1) + digit.value * radix ^ digits.length := by
      ring
    rw [List.map_cons, List.foldl_cons, ih, first]
    simp [Fin.sum_univ_succ, Nat.add_assoc]

theorem Written.magnitude_eq (w : Written radix) :
    Numeral.magnitude radix (w.digits.map Digit.value) = w.magnitude := by
  rw [magnitude_eq_foldl, foldl_places]
  simp [Written.magnitude]

theorem isPowerOfTwo_iff (least : 2 ≤ radix) (most : radix ≤ 36) :
    isPowerOfTwo radix = true ↔ ∃ k, radix = 2 ^ k := by
  simp only [isPowerOfTwo, List.contains_cons, List.contains_nil, Bool.or_eq_true, beq_iff_eq,
    Bool.false_eq_true, or_false]
  constructor
  · rintro (rfl | rfl | rfl | rfl | rfl)
    · exact ⟨1, rfl⟩
    · exact ⟨2, rfl⟩
    · exact ⟨3, rfl⟩
    · exact ⟨4, rfl⟩
    · exact ⟨5, rfl⟩
  · rintro ⟨k, rfl⟩
    have below : 2 ^ k < 2 ^ 6 := Nat.lt_of_le_of_lt most (by decide)
    have few : k < 6 := (Nat.pow_lt_pow_iff_right (by decide)).mp below
    interval_cases k <;> simp_all

theorem Evaluable.of_length_le {length length' : Nat} (fits : Evaluable radix length')
    (le : length ≤ length') : Evaluable radix length :=
  fits.imp_right (Nat.le_trans le)

theorem parseInteger_append (least : 2 ≤ radix) (most : radix ≤ 36) (sign : Sign) {behind : List Char}
    (unsigned : behind.head? ≠ some '+' ∧ behind.head? ≠ some '-') :
    (digitValues? radix behind = none →
      parseInteger (String.ofList (sign.text ++ behind)) radix = .ok none) ∧
    ∀ values, digitValues? radix behind = some values →
      (Evaluable radix values.length → parseInteger (String.ofList (sign.text ++ behind)) radix =
        .ok (some (sign.apply (Numeral.magnitude radix values)))) ∧
      (¬Evaluable radix values.length →
        parseInteger (String.ofList (sign.text ++ behind)) radix = .error .tooManyDigits) := by
  have inside : ((radix : Int) < 2 || (36 : Int) < radix) = false := by
    rw [Bool.or_eq_false_iff, decide_eq_false_iff_not, decide_eq_false_iff_not]
    omega
  have power := isPowerOfTwo_iff least most
  unfold parseInteger
  simp only [String.toList_ofList, splitSign_append sign unsigned, inside, Int.toNat_natCast]
  refine ⟨fun none => by rw [none], fun values counted => ?_⟩
  rw [counted]
  constructor
  · intro fits
    have free : ¬((decide (digitLimit < values.length) && !isPowerOfTwo radix) = true) := by
      rw [Bool.and_eq_true, decide_eq_true_eq, Bool.not_eq_true', Bool.eq_false_iff, Ne, power]
      rintro ⟨long, other⟩
      exact (fits.resolve_left other).not_gt long
    simp [free, Sign.apply]
  · intro overlong
    rw [Evaluable, not_or] at overlong
    have limited : (decide (digitLimit < values.length) && !isPowerOfTwo radix) = true := by
      rw [Bool.and_eq_true, decide_eq_true_eq, Bool.not_eq_true', Bool.eq_false_iff, Ne, power]
      exact ⟨Nat.lt_of_not_le overlong.2, overlong.1⟩
    simp [limited]

end Values

namespace Written

variable {radix : Nat} (least : 2 ≤ radix) (most : radix ≤ 36)

theorem unsigned (w : Written radix) :
    (w.digits.map Digit.char).head? ≠ Option.some '+' ∧
      (w.digits.map Digit.char).head? ≠ Option.some '-' := by
  obtain ⟨digit, digits, same⟩ := List.exists_cons_of_ne_nil w.some
  rw [same, List.map_cons, List.head?_cons, Ne, Option.some_inj, Ne, Option.some_inj]
  exact digit.ne_sign

include least most

theorem parseInteger_text (w : Written radix) :
    (Evaluable radix w.digits.length →
      parseInteger (String.ofList w.text) radix = .ok (Option.some w.value)) ∧
    (¬Evaluable radix w.digits.length →
      parseInteger (String.ofList w.text) radix = .error .tooManyDigits) := by
  have counted := (digitValues?_eq_some_iff most).mpr ⟨w.digits, w.some, rfl, rfl⟩
  have parsed := (parseInteger_append least most w.sign w.unsigned).2 _ counted
  rwa [List.length_map, w.magnitude_eq] at parsed

omit least in
theorem parseInteger_of_forall_ne {text : String} (other : ∀ w : Written radix, w.text ≠ text.toList) :
    parseInteger text radix = .ok none := by
  obtain ⟨sign, same, negative⟩ := exists_sign text.toList
  unfold parseInteger
  cases counted : digitValues? radix (splitSign text.toList).2 with
  | none => simp [counted]
  | some values =>
    obtain ⟨digits, some, chars, -⟩ := (digitValues?_eq_some_iff most).mp counted
    refine absurd ?_ (other ⟨sign, digits, some⟩)
    rw [Written.text, chars]
    exact same.symm

theorem parseInteger_eq_none_iff {text : String} :
    parseInteger text radix = .ok none ↔ ∀ w : Written radix, w.text ≠ text.toList := by
  refine ⟨fun none w same => ?_, parseInteger_of_forall_ne most⟩
  obtain ⟨evaluated, overlong⟩ := w.parseInteger_text least most
  rw [same, String.ofList_toList, none] at evaluated overlong
  by_cases fits : Evaluable radix w.digits.length
  · cases evaluated fits
  · cases overlong fits

theorem parseInteger_eq_some_iff {text : String} {n : Int} :
    parseInteger text radix = .ok (Option.some n) ↔ ∃ w : Written radix,
      w.text = text.toList ∧ Evaluable radix w.digits.length ∧ w.value = n := by
  constructor
  · intro number
    by_contra other
    have unwritten : parseInteger text radix = .ok none := by
      refine parseInteger_of_forall_ne most fun w same => ?_
      obtain ⟨evaluated, overlong⟩ := w.parseInteger_text least most
      rw [same, String.ofList_toList, number] at evaluated overlong
      by_cases fits : Evaluable radix w.digits.length
      · cases evaluated fits
        exact other ⟨w, same, fits, rfl⟩
      · cases overlong fits
    rw [number] at unwritten
    cases unwritten
  · rintro ⟨w, same, fits, rfl⟩
    rw [← (w.parseInteger_text least most).1 fits, same, String.ofList_toList]

end Written

section Spelled

variable {radix : Nat} (most : radix ≤ 36)

include most

theorem exists_digits {values : List Nat} (below : ∀ value ∈ values, value < radix)
    (capital : Nat → Bool) :
    ∃ digits : List (Digit radix),
      digits.map Digit.char = values.mapIdx (fun i => digitChar (capital i)) ∧
        digits.map Digit.value = values := by
  have spells : ∀ value < 36, ∀ capital : Bool, lowerDigits[value]? = some (digitChar capital value) ∨
      capitalDigits[value]? = some (digitChar capital value) := by
    decide
  induction values generalizing capital with
  | nil => exact ⟨[], rfl, rfl⟩
  | cons value values ih =>
    rw [List.forall_mem_cons] at below
    obtain ⟨digits, chars, same⟩ := ih below.2 (fun i => capital (i + 1))
    have digit := spells value (Nat.lt_of_lt_of_le below.1 most) (capital 0)
    refine ⟨⟨_, value, digit, below.1⟩ :: digits, ?_, ?_⟩
    · rw [List.map_cons, chars, List.mapIdx_cons]
    · rw [List.map_cons, same]

end Spelled

theorem places_ne_nil (radix n : Nat) : places radix n ≠ [] := by
  unfold places
  split
  · simp
  next other => simpa [Nat.digits_eq_nil_iff_eq_zero] using other

theorem lt_of_mem_places {radix n value : Nat} (least : 2 ≤ radix) (member : value ∈ places radix n) :
    value < radix := by
  unfold places at member
  split at member
  · rw [List.mem_singleton] at member
    omega
  · exact Nat.digits_lt_base least (List.mem_reverse.mp member)

theorem magnitude_places {radix n : Nat} : magnitude radix (places radix n) = n := by
  have value : Nat.ofDigits radix (Nat.digits radix n) = n := Nat.ofDigits_digits radix n
  rw [magnitude_eq_foldl]
  unfold places
  split
  next zero => simp [zero]
  next =>
    rw [Nat.ofDigits_eq_foldr] at value
    simpa [Nat.mul_comm, Nat.add_comm] using value

theorem magnitude_zeros (radix zeros : Nat) (values : List Nat) :
    magnitude radix (List.replicate zeros 0 ++ values) = magnitude radix values := by
  rw [magnitude_eq_foldl, magnitude_eq_foldl, List.foldl_append]
  induction zeros with
  | zero => rfl
  | succ zeros ih => simpa [List.replicate_succ] using ih

section Laws

variable {radix : Nat} (least : 2 ≤ radix) (most : radix ≤ 36)

include least most

theorem parseInteger_spell (n : Int) (plus : Bool) (zeros : Nat) (capital : Nat → Bool)
    (fits : Evaluable radix (zeros + (places radix n.natAbs).length)) :
    parseInteger (String.ofList (spell radix n plus zeros capital)) radix = .ok (some n) := by
  let values := List.replicate zeros 0 ++ places radix n.natAbs
  have below : ∀ value ∈ values, value < radix := by
    intro value member
    rcases List.mem_append.mp member with zero | digit
    · rw [List.eq_of_mem_replicate zero]
      omega
    · exact lt_of_mem_places least digit
  obtain ⟨digits, chars, same⟩ := exists_digits most below capital
  have some : digits ≠ [] := by
    rintro rfl
    exact places_ne_nil radix n.natAbs (List.append_eq_nil_iff.mp same.symm).2
  -- The spelling is a numeral in the sense of `Written`, and its value is the integer.
  let w : Written radix := ⟨if n < 0 then .minus else if plus then .plus else .unsigned, digits, some⟩
  have length : w.digits.length = zeros + (places radix n.natAbs).length := by
    rw [← List.length_map Digit.value, same, List.length_append, List.length_replicate]
  have value : w.value = n := by
    have counted : w.magnitude = n.natAbs := by
      rw [← w.magnitude_eq, same, magnitude_zeros, magnitude_places]
    rw [Written.value, counted, Sign.apply]
    by_cases negative : n < 0
    · simp only [w, if_pos negative, if_true]
      omega
    · have other : w.sign ≠ .minus := by
        simp only [w, if_neg negative]
        split <;> decide
      rw [if_neg other]
      omega
  have text : w.text = spell radix n plus zeros capital := by
    rw [Written.text, chars]
    rfl
  rw [← text, (w.parseInteger_text least most).1 (length ▸ fits), value]

omit least in
/-- A character that is neither a digit of the radix nor a sign makes a text no number. -/
theorem parseInteger_of_mem {text : String} {c : Char} (member : c ∈ text.toList)
    (unsigned : c ≠ '+' ∧ c ≠ '-') (foreign : ∀ digit : Digit radix, digit.char ≠ c) :
    parseInteger text radix = .ok none := by
  refine Written.parseInteger_of_forall_ne most fun w same => ?_
  rw [← same, Written.text, List.mem_append] at member
  rcases member with sign | digit
  · cases shape : w.sign with
    | unsigned => simp [shape, Sign.text] at sign
    | plus => exact unsigned.1 (by simpa [shape, Sign.text] using sign)
    | minus => exact unsigned.2 (by simpa [shape, Sign.text] using sign)
  · obtain ⟨digit, -, same⟩ := List.mem_map.mp digit
    exact foreign digit same

theorem parseInteger_leading_zero (sign : Sign) {c : Char} {behind : List Char}
    (unsigned : c ≠ '+' ∧ c ≠ '-') (fits : Evaluable radix (behind.length + 2)) :
    parseInteger (String.ofList (sign.text ++ '0' :: c :: behind)) radix =
      parseInteger (String.ofList (sign.text ++ c :: behind)) radix := by
  have bare : (c :: behind).head? ≠ some '+' ∧ (c :: behind).head? ≠ some '-' := by
    simpa using unsigned
  have bare' : ('0' :: c :: behind).head? ≠ some '+' ∧ ('0' :: c :: behind).head? ≠ some '-' := by simp
  obtain ⟨none, evaluated⟩ := parseInteger_append least most sign bare
  obtain ⟨none', evaluated'⟩ := parseInteger_append least most sign bare'
  have zero : admittedValue? radix '0' = some 0 :=
    (admittedValue?_eq_some_iff most).mpr ⟨⟨'0', 0, .inl rfl, by omega⟩, rfl, rfl⟩
  have counted : digitValues? radix ('0' :: c :: behind) =
      (digitValues? radix (c :: behind)).map (0 :: ·) := by
    simp only [digitValues?, List.isEmpty_cons, Bool.false_eq_true, if_false]
    rw [List.mapM_cons, zero]
    cases (c :: behind).mapM (admittedValue? radix) <;> rfl
  cases values : digitValues? radix (c :: behind) with
  | none =>
    rw [values] at counted
    rw [none values, none' counted]
  | some digits =>
    rw [values] at counted
    have length : digits.length = behind.length + 1 := by
      obtain ⟨written, -, chars, rfl⟩ := (digitValues?_eq_some_iff most).mp values
      rw [List.length_map, ← List.length_map Digit.char, chars, List.length_cons]
    rw [(evaluated _ values).1 (fits.of_length_le (by omega)),
      (evaluated' _ counted).1 (fits.of_length_le (by rw [List.length_cons]; omega))]
    exact congrArg (fun n => Except.ok (some (sign.apply n))) (magnitude_zeros radix 1 digits)

end Laws

end Numeral

open Numeral

/-- Integers are read in exact positional notation. In a radix from 2 to 36 a text denotes an integer
exactly if it is a numeral, which is a sign, perhaps, in front of digits of the radix, and the integer is
the sum that the numeral stands for. Any other text is no number. How long a numeral is only matters in a
radix that is no power of two. In particular an integer is read from each of its numerals, a text with a
foreign character is no number, and no letter behind a leading zero is more than a digit. -/
theorem parseInteger_positional {radix : Nat} (least : 2 ≤ radix) (most : radix ≤ 36) :
    (∀ (text : String) (n : Int), parseInteger text radix = .ok (some n) ↔ ∃ w : Written radix,
      w.text = text.toList ∧ Evaluable radix w.digits.length ∧ w.value = n) ∧
    (∀ text : String, parseInteger text radix = .ok none ↔
      ∀ w : Written radix, w.text ≠ text.toList) ∧
    (∀ (n : Int) (plus : Bool) (zeros : Nat) (capital : Nat → Bool),
      Evaluable radix (zeros + (places radix n.natAbs).length) →
        parseInteger (String.ofList (spell radix n plus zeros capital)) radix = .ok (some n)) ∧
    (∀ (text : String) (c : Char), c ∈ text.toList → c ≠ '+' ∧ c ≠ '-' →
      (∀ digit : Digit radix, digit.char ≠ c) → parseInteger text radix = .ok none) ∧
    ∀ (sign : Sign) (c : Char) (behind : List Char), c ≠ '+' ∧ c ≠ '-' →
      Evaluable radix (behind.length + 2) →
        parseInteger (String.ofList (sign.text ++ '0' :: c :: behind)) radix =
          parseInteger (String.ofList (sign.text ++ c :: behind)) radix := by
  refine ⟨fun text n => ?_, fun text => ?_, fun n plus zeros capital => ?_, fun text c => ?_,
    fun sign c behind => ?_⟩
  · exact Written.parseInteger_eq_some_iff least most
  · exact Written.parseInteger_eq_none_iff least most
  · exact parseInteger_spell least most n plus zeros capital
  · exact parseInteger_of_mem most
  · exact parseInteger_leading_zero least most sign

/-- In radix sixteen `b` is a digit, also behind a leading zero, and `x` is none. -/
theorem parseInteger_positional_sixteen :
    2 ≤ 16 ∧ 16 ≤ 36 ∧ parseInteger "+b1" 16 = .ok (some 177) ∧
      parseInteger "-0B1f" 16 = .ok (some (-2847)) ∧ parseInteger "0x1" 16 = .ok none ∧
      parseInteger "0b1" 16 = parseInteger "b1" 16 := by
  obtain ⟨number, -, spelled, foreign, zero⟩ :=
    parseInteger_positional (by decide : 2 ≤ 16) (by decide : 16 ≤ 36)
  have fits (length : Nat) : Evaluable 16 length := .inl ⟨4, rfl⟩
  refine ⟨by decide, by decide, ?_, ?_, ?_, ?_⟩
  · refine (number "+b1" 177).mpr ⟨⟨.plus, [⟨'b', 11, ?_, ?_⟩, ⟨'1', 1, ?_, ?_⟩], ?_⟩, ?_, fits 2, ?_⟩
    all_goals decide
  · have text : String.ofList (spell 16 (-2847) false 1 (· == 1)) = "-0B1f" := by decide
    rw [← text]
    exact spelled (-2847) false 1 (· == 1) (fits _)
  · refine foreign "0x1" 'x' (by decide) (by decide) fun digit same => ?_
    have counts := digitValue?_eq_some_iff.mpr digit.spells
    have below := digit.below
    have thirtyThree : digitValue? 'x' = some 33 := by decide
    rw [same, thirtyThree, Option.some_inj] at counts
    omega
  · exact zero .unsigned 'b' ['1'] (by decide) (fits 3)

end SexprReader
