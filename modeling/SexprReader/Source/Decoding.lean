import SexprReader.Source

/-! Sources over the bytes of a file: UTF-8, with every line end delivered as LF. -/

namespace SexprReader

namespace Utf8

/-- A character whose first bytes were met: their bits, how many bytes are to come, and the
range in which the next must lie. -/
structure Partial where
  bits : Nat
  missing : Nat
  low : Nat
  high : Nat
deriving DecidableEq, Repr

inductive Step where
  | completes (c : Char)
  | continues (state : Partial)
  | malformed
deriving DecidableEq, Repr

/-- The first byte of a character. Ranges of the second byte keep out overlong forms,
surrogates and code points past the last. -/
def first (b : Nat) : Step :=
  if b < 0x80 then .completes (Char.ofNat b)
  else if b < 0xC2 then .malformed
  else if b < 0xE0 then .continues ⟨b - 0xC0, 1, 0x80, 0xBF⟩
  else if b = 0xE0 then .continues ⟨0, 2, 0xA0, 0xBF⟩
  else if b = 0xED then .continues ⟨0xD, 2, 0x80, 0x9F⟩
  else if b < 0xF0 then .continues ⟨b - 0xE0, 2, 0x80, 0xBF⟩
  else if b = 0xF0 then .continues ⟨0, 3, 0x90, 0xBF⟩
  else if b < 0xF4 then .continues ⟨b - 0xF0, 3, 0x80, 0xBF⟩
  else if b = 0xF4 then .continues ⟨4, 3, 0x80, 0x8F⟩
  else .malformed

def next (p : Partial) (b : Nat) : Step :=
  if b < p.low || p.high < b then .malformed
  else
    let bits := p.bits * 64 + (b - 0x80)
    if p.missing ≤ 1 then .completes (Char.ofNat bits)
    else .continues ⟨bits, p.missing - 1, 0x80, 0xBF⟩

inductive Stop where
  | complete
  | truncated
  | malformedAt (offset : Nat)
deriving DecidableEq, Repr

abbrev Positioned := Char × Nat

def decodeFrom : (offset : Nat) → (open? : Option Partial) → (done : List Positioned) →
    List UInt8 → List Positioned × Stop
  | _, none, done, [] => (done.reverse, .complete)
  | _, some _, done, [] => (done.reverse, .truncated)
  | offset, open?, done, b :: bytes =>
    match (match open? with | none => first b.toNat | some p => next p b.toNat) with
    | .completes c => decodeFrom (offset + 1) none ((c, offset + 1) :: done) bytes
    | .continues p => decodeFrom (offset + 1) (some p) done bytes
    | .malformed => (done.reverse, .malformedAt offset)

def decode (bytes : List UInt8) : List Positioned × Stop := decodeFrom 0 none [] bytes

end Utf8

namespace LineEnds

/-- Delivers CR LF and lone CR as LF. The state says that the last character was a CR. -/
def normalizeFrom : (afterCR : Bool) → (done : List Char) → List Char → List Char
  | _, done, [] => done.reverse
  | afterCR, done, c :: rest =>
    if c == '\r' then normalizeFrom true ('\n' :: done) rest
    else if c == '\n' && afterCR then normalizeFrom false done rest
    else normalizeFrom false (c :: done) rest

def normalize (text : List Char) : List Char := normalizeFrom false [] text

end LineEnds

namespace Source

def blockSize : Nat := 8192

/-- The characters delivered before decoding fails, if it does: a block with malformed bytes
delivers none, and a CR is held back until what follows it is known. -/
def delivered : List Utf8.Positioned × Utf8.Stop → List Char × Ending
  | (chars, .complete) => (chars.map Prod.fst, .endOfInput)
  | (chars, .truncated) => (heldBack (chars.map Prod.fst), .undecodable)
  | (chars, .malformedAt offset) =>
    let start := offset / blockSize * blockSize
    (heldBack ((chars.takeWhile (·.2 ≤ start)).map Prod.fst), .undecodable)
where
  heldBack (text : List Char) : List Char :=
    if text.getLast? = some '\r' then text.dropLast else text

def ofBytes (bytes : List UInt8) (line column : Int) (name : Option String) : Source :=
  let (text, ending) := delivered (Utf8.decode bytes)
  ⟨none, LineEnds.normalize text, ending, some (.start line column), name⟩

end Source

end SexprReader
