import Mathlib.Data.List.Basic
import SexprReader.Source.Decoding

namespace SexprReader

namespace Utf8

def step : Option Partial → Nat → Step
  | none, b => first b
  | some p, b => next p b

section

variable {offset : Nat} {open? : Option Partial} {done : List Positioned} {b : UInt8}

theorem decodeFrom_completes {c : Char} (steps : step open? b.toNat = .completes c)
    (bytes : List UInt8) :
    decodeFrom offset open? done (b :: bytes) =
      decodeFrom (offset + 1) none ((c, offset + 1) :: done) bytes := by
  conv => lhs; unfold decodeFrom
  cases open? <;> (rw [step] at steps; simp only [steps])

theorem decodeFrom_continues {p : Partial} (steps : step open? b.toNat = .continues p)
    (bytes : List UInt8) :
    decodeFrom offset open? done (b :: bytes) = decodeFrom (offset + 1) (some p) done bytes := by
  conv => lhs; unfold decodeFrom
  cases open? <;> (rw [step] at steps; simp only [steps])

end

theorem next_last {bits low high rest : Nat} (above : low ≤ rest + 128) (below : rest + 128 ≤ high) :
    next ⟨bits, 1, low, high⟩ (rest + 128) = .completes (Char.ofNat (bits * 64 + rest)) := by
  simp [next, Nat.not_lt.mpr above, Nat.not_lt.mpr below]

theorem next_middle {bits missing low high rest : Nat} (above : low ≤ rest + 128)
    (below : rest + 128 ≤ high) : next ⟨bits, missing + 2, low, high⟩ (rest + 128) =
      .continues ⟨bits * 64 + rest, missing + 1, 0x80, 0xBF⟩ := by
  simp [next, Nat.not_lt.mpr above, Nat.not_lt.mpr below]

theorem first_of_two {lead : Nat} (above : 2 ≤ lead) (below : lead < 32) :
    first (lead + 192) = .continues ⟨lead, 1, 0x80, 0xBF⟩ := by
  unfold first
  rw [if_neg (by omega), if_neg (by omega), if_pos (by omega), Nat.add_sub_cancel]

theorem first_of_three (lead second : Nat) (few : lead < 16) (six : second < 64)
    (long : 32 ≤ lead * 64 + second)
    (proper : lead * 64 + second < 864 ∨ 896 ≤ lead * 64 + second) :
    ∃ low high, first (lead + 224) = .continues ⟨lead, 2, low, high⟩ ∧ low ≤ second + 128 ∧
      second + 128 ≤ high := by
  by_cases zero : lead = 0
  · subst zero
    exact ⟨0xA0, 0xBF, rfl, by omega, by omega⟩
  · by_cases surrogates : lead = 13
    · subst surrogates
      exact ⟨0x80, 0x9F, rfl, by omega, by omega⟩
    · refine ⟨0x80, 0xBF, ?_, by omega, by omega⟩
      unfold first
      rw [if_neg (by omega), if_neg (by omega), if_neg (by omega), if_neg (by omega),
        if_neg (by omega), if_pos (by omega), Nat.add_sub_cancel]

theorem first_of_four (lead second : Nat) (six : second < 64) (long : 16 ≤ lead * 64 + second)
    (short : lead * 64 + second < 272) :
    ∃ low high, first (lead + 240) = .continues ⟨lead, 3, low, high⟩ ∧ low ≤ second + 128 ∧
      second + 128 ≤ high := by
  by_cases zero : lead = 0
  · subst zero
    exact ⟨0x90, 0xBF, rfl, by omega, by omega⟩
  · by_cases last : lead = 4
    · subst last
      exact ⟨0x80, 0x8F, rfl, by omega, by omega⟩
    · refine ⟨0x80, 0xBF, ?_, by omega, by omega⟩
      unfold first
      rw [if_neg (by omega), if_neg (by omega), if_neg (by omega), if_neg (by omega),
        if_neg (by omega), if_neg (by omega), if_neg (by omega), if_pos (by omega),
        Nat.add_sub_cancel]

theorem toNat_ofNat {n : Nat} (small : n < 256) : (UInt8.ofNat n).toNat = n :=
  UInt8.toNat_ofNat_of_lt small

section

variable (c : Char) (offset : Nat) (done : List Positioned) (bytes : List UInt8)

theorem decodeFrom_last {bits low high rest : Nat} (six : rest < 64) (above : low ≤ rest + 128)
    (below : rest + 128 ≤ high) (char : Char.ofNat (bits * 64 + rest) = c) :
    decodeFrom offset (some ⟨bits, 1, low, high⟩) done (UInt8.ofNat (rest + 128) :: bytes) =
      decodeFrom (offset + 1) none ((c, offset + 1) :: done) bytes := by
  refine decodeFrom_completes ?_ bytes
  rw [toNat_ofNat (by omega), step, next_last above below, char]

theorem decodeFrom_middle {bits missing low high rest : Nat} (six : rest < 64)
    (above : low ≤ rest + 128) (below : rest + 128 ≤ high) :
    decodeFrom offset (some ⟨bits, missing + 2, low, high⟩) done
        (UInt8.ofNat (rest + 128) :: bytes) =
      decodeFrom (offset + 1) (some ⟨bits * 64 + rest, missing + 1, 0x80, 0xBF⟩) done bytes := by
  refine decodeFrom_continues ?_ bytes
  rw [toNat_ofNat (by omega), step, next_middle above below]

theorem decodeFrom_encodeChar :
    ∃ behind, decodeFrom offset none done (String.utf8EncodeChar c ++ bytes) =
      decodeFrom behind none ((c, behind) :: done) bytes := by
  have valid : c.toNat < 0xD800 ∨ 0xDFFF < c.toNat ∧ c.toNat < 0x110000 := c.valid
  have char : Char.ofNat c.toNat = c := Char.ofNat_toNat c
  rw [String.utf8EncodeChar, show c.val.toNat = c.toNat from rfl]
  generalize c.toNat = n at valid char
  -- The cases are the numbers of bytes. In each the first byte fixes how many follow, and in three
  -- or four bytes also which second byte may.
  by_cases one : n ≤ 127
  · rw [if_pos one, List.singleton_append]
    refine ⟨_, decodeFrom_completes ?_ bytes⟩
    rw [toNat_ofNat (by omega), step, first, if_pos (by omega), char]
  rw [if_neg one]
  by_cases two : n ≤ 2047
  · rw [if_pos two]
    have lead : step none (UInt8.ofNat (n / 64 % 32 + 192)).toNat =
        .continues ⟨n / 64 % 32, 1, 0x80, 0xBF⟩ := by
      rw [toNat_ofNat (by omega), step]
      exact first_of_two (by omega) (by omega)
    have bits : n / 64 % 32 * 64 + n % 64 = n := by omega
    refine ⟨offset + 1 + 1, (decodeFrom_continues lead _).trans ?_⟩
    exact decodeFrom_last c _ done bytes (by omega) (by omega) (by omega) (by rw [bits, char])
  rw [if_neg two]
  by_cases three : n ≤ 65535
  · rw [if_pos three]
    obtain ⟨low, high, leads, above, below⟩ := first_of_three (n / 4096 % 16)
      (n / 64 % 64) (by omega) (by omega) (by omega) (by omega)
    have lead : step none (UInt8.ofNat (n / 4096 % 16 + 224)).toNat =
        .continues ⟨n / 4096 % 16, 2, low, high⟩ := by
      rw [toNat_ofNat (by omega), step]
      exact leads
    have bits : (n / 4096 % 16 * 64 + n / 64 % 64) * 64 + n % 64 = n := by omega
    refine ⟨offset + 1 + 1 + 1, (decodeFrom_continues lead _).trans ?_⟩
    refine (decodeFrom_middle _ done _ (by omega) above below).trans ?_
    exact decodeFrom_last c _ done bytes (by omega) (by omega) (by omega) (by rw [bits, char])
  · rw [if_neg three]
    obtain ⟨low, high, leads, above, below⟩ := first_of_four (n / 262144 % 8)
      (n / 4096 % 64) (by omega) (by omega) (by omega)
    have lead : step none (UInt8.ofNat (n / 262144 % 8 + 240)).toNat =
        .continues ⟨n / 262144 % 8, 3, low, high⟩ := by
      rw [toNat_ofNat (by omega), step]
      exact leads
    have bits : ((n / 262144 % 8 * 64 + n / 4096 % 64) * 64 + n / 64 % 64) * 64 + n % 64 = n := by
      omega
    refine ⟨offset + 1 + 1 + 1 + 1, (decodeFrom_continues lead _).trans ?_⟩
    refine (decodeFrom_middle _ done _ (by omega) above below).trans ?_
    refine (decodeFrom_middle _ done _ (by omega) (by omega) (by omega)).trans ?_
    exact decodeFrom_last c _ done bytes (by omega) (by omega) (by omega) (by rw [bits, char])

end

theorem decodeFrom_encode (text : List Char) (offset : Nat) (done : List Positioned) :
    ∃ chars, decodeFrom offset none done (text.flatMap String.utf8EncodeChar) =
        (done.reverse ++ chars, .complete) ∧ chars.map Prod.fst = text := by
  induction text generalizing offset done with
  | nil => exact ⟨[], by simp [decodeFrom], rfl⟩
  | cons c text ih =>
    obtain ⟨behind, steps⟩ := decodeFrom_encodeChar c offset done (text.flatMap String.utf8EncodeChar)
    obtain ⟨chars, decoded, same⟩ := ih behind ((c, behind) :: done)
    refine ⟨(c, behind) :: chars, ?_, congrArg _ same⟩
    rw [List.flatMap_cons, steps, decoded]
    simp

end Utf8

/-- A file that holds the encoding of a text delivers the text with its line ends made one character. -/
theorem Source.ofBytes_encode (text : List Char) (line column : Int) (name : Option String) :
    Source.ofBytes (text.flatMap String.utf8EncodeChar) line column name =
      .ofText (LineEnds.normalize text) line column name := by
  obtain ⟨chars, decoded, same⟩ := Utf8.decodeFrom_encode text 0 []
  rw [ofBytes, Utf8.decode, decoded, List.reverse_nil, List.nil_append, delivered, same]
  rfl

end SexprReader
