import Mathlib.Data.List.Induction
import SexprReader.Proofs.Reader.Advance

/-! Line and column of a source in closed form. The counter puts each line break off until the next
character is consumed; what it shows is a count of the line breaks that end before the last consumed
character, whatever mixture of LF, CR LF and CR the text has and however often it is peeked at. -/

namespace SexprReader

namespace Place

/-- A line break ends at index `i` of the consumed text, before its last character. It is an LF, which a
CR in front of it belongs to, or a CR that another character than LF follows. -/
def BreakEndsAt (text : List Char) (i : Nat) : Prop :=
  i + 1 < text.length ∧ (text[i]? = some '\n' ∨ text[i]? = some '\r' ∧ text[i + 1]? ≠ some '\n')

instance (text : List Char) (i : Nat) : Decidable (BreakEndsAt text i) :=
  inferInstanceAs (Decidable (_ ∧ (_ ∨ _)))

def breaks (text : List Char) : List Nat := (List.range text.length).filter (BreakEndsAt text ·)

/-- The line of the last character of the consumed text. -/
def lineOf (line : Int) (text : List Char) : Int := line + (breaks text).length

/-- The number of characters behind the last line break, to which the first line adds its offset. -/
def columnOf (column : Int) (text : List Char) : Int :=
  match (breaks text).getLast? with
  | some i => (text.drop (i + 1)).length
  | none => column + text.length

@[simp] theorem lineOf_nil (line : Int) : lineOf line [] = line := Int.add_zero line

@[simp] theorem columnOf_nil (column : Int) : columnOf column [] = column := Int.add_zero column

variable {text : List Char} {c : Char} {i : Nat}

theorem breakEndsAt_append_singleton (inside : i + 1 < text.length) :
    BreakEndsAt (text ++ [c]) i ↔ BreakEndsAt text i := by
  unfold BreakEndsAt
  rw [List.getElem?_append_left (by omega), List.getElem?_append_left inside, List.length_append]
  constructor
  · exact fun ends => ⟨inside, ends.2⟩
  · exact fun ends => ⟨Nat.lt_add_right _ inside, ends.2⟩

theorem not_breakEndsAt_of_length_le (outside : text.length ≤ i + 1) : ¬ BreakEndsAt text i :=
  fun ends => absurd ends.1 (Nat.not_lt.mpr outside)

/-- The character before the last one is the only one that another character can complete a line break
at. -/
theorem breakEndsAt_last {p : Place} {d : Char} (last : p.last = some d) :
    BreakEndsAt (text ++ [d] ++ [c]) text.length ↔ p.endsLineBefore c := by
  simp [BreakEndsAt, endsLineBefore, last, bne]

theorem breaks_append_singleton (text : List Char) (c : Char) {p : Place} (last : p.last = text.getLast?) :
    breaks (text ++ [c]) =
      breaks text ++ if p.endsLineBefore c then [text.length - 1] else [] := by
  rcases List.eq_nil_or_concat' text with rfl | ⟨text, d, rfl⟩
  · have nowhere : p.endsLineBefore c = false := by simp [endsLineBefore, last]
    simp [breaks, nowhere, BreakEndsAt]
  · rw [List.getLast?_concat] at last
    have earlier : (List.range text.length).filter (BreakEndsAt (text ++ [d] ++ [c]) ·) =
        (List.range text.length).filter (BreakEndsAt (text ++ [d]) ·) := by
      apply List.filter_congr
      intro i inside
      have := List.mem_range.mp inside
      exact decide_eq_decide.mpr (breakEndsAt_append_singleton (by simp; omega))
    have final : ¬ BreakEndsAt (text ++ [d]) text.length := not_breakEndsAt_of_length_le (by simp)
    have final' : ¬ BreakEndsAt (text ++ [d] ++ [c]) (text.length + 1) :=
      not_breakEndsAt_of_length_le (by simp)
    unfold breaks
    simp only [List.length_append, List.length_singleton, List.range_succ, List.filter_append, earlier,
      List.filter_singleton, final, final', breakEndsAt_last last, Nat.add_sub_cancel]
    cases p.endsLineBefore c <;> simp

theorem lineOf_append_of_ends {line : Int} (counted : breaks (text ++ [c]) = breaks text ++ [i]) :
    lineOf line (text ++ [c]) = lineOf line text + 1 := by
  simp [lineOf, counted, Int.add_assoc]

theorem lineOf_append_of_goesOn {line : Int} (counted : breaks (text ++ [c]) = breaks text) :
    lineOf line (text ++ [c]) = lineOf line text := by
  simp [lineOf, counted]

theorem columnOf_append_of_ends {column : Int} (nonempty : text ≠ [])
    (counted : breaks (text ++ [c]) = breaks text ++ [text.length - 1]) :
    columnOf column (text ++ [c]) = 1 := by
  have := List.length_pos_iff.mpr nonempty
  simp only [columnOf, counted, List.getLast?_concat, List.length_drop, List.length_append,
    List.length_singleton]
  omega

theorem lt_of_mem_breaks (ends : i ∈ breaks text) : i + 1 < text.length :=
  (of_decide_eq_true (List.mem_filter.mp ends).2).1

theorem columnOf_append_of_goesOn {column : Int} (counted : breaks (text ++ [c]) = breaks text) :
    columnOf column (text ++ [c]) = columnOf column text + 1 := by
  unfold columnOf
  rw [counted]
  split
  next i last =>
    have := lt_of_mem_breaks (List.mem_of_getLast? last)
    simp only [List.length_drop, List.length_append, List.length_singleton]
    omega
  next =>
    simp only [List.length_append, List.length_singleton]
    omega

theorem advanceAll_start (line column : Int) (text : List Char) :
    (start line column).advanceAll text = ⟨lineOf line text, columnOf column text, text.getLast?⟩ := by
  induction text using List.reverseRecOn with
  | nil => simp [start]
  | append_singleton text c ih =>
    have counted := breaks_append_singleton text c
      (p := ⟨lineOf line text, columnOf column text, text.getLast?⟩) rfl
    rw [advanceAll_append, ih, advanceAll_cons, advanceAll_nil, List.getLast?_concat]
    unfold advance
    split
    next ends =>
      have nonempty : text ≠ [] := by
        rintro rfl
        cases ends
      rw [if_pos ends] at counted
      rw [lineOf_append_of_ends counted, columnOf_append_of_ends nonempty counted]
    next goesOn =>
      rw [if_neg goesOn, List.append_nil] at counted
      rw [lineOf_append_of_goesOn counted, columnOf_append_of_goesOn counted]

example : (start 1 0).advanceAll "ab\n\r\n\r\rx\r".toList = ⟨5, 2, some '\r'⟩ := by decide

end Place

/-- A character is asked for, to look at it or to consume it. -/
inductive Request where
  | peek
  | take
deriving DecidableEq, Repr

structure Sight where
  answer : Option Char
  line : Option Int
  column : Option Int
deriving DecidableEq, Repr

/-- Of a source over `text` that counts from `line` and `column`, the first `n` characters are
consumed. -/
structure Source.ReadTo (text : List Char) (line column : Int) (n : Nat) (s : Source) : Prop where
  remaining : s.remaining = text.drop n
  place : s.place = some ((Place.start line column).advanceAll (text.take n))
  ending : s.ending = .endOfInput

namespace Source.ReadTo

variable {text : List Char} {line column : Int} {n : Nat} {s : Source}

theorem ofText (text : List Char) (line column : Int) (name : Option String) :
    (Source.ofText text line column name).ReadTo text line column 0 :=
  ⟨rfl, rfl, rfl⟩

theorem decodable (reads : s.ReadTo text line column n) : s.atUndecodable = false := by
  simp [atUndecodable, reads.ending]

theorem line_eq (reads : s.ReadTo text line column n) :
    s.line? = some (Place.lineOf line (text.take n)) := by
  rw [line?, reads.place, Place.advanceAll_start]
  rfl

theorem column_eq (reads : s.ReadTo text line column n) :
    s.column? = some (Place.columnOf column (text.take n)) := by
  rw [column?, reads.place, Place.advanceAll_start]
  rfl

theorem pull (reads : s.ReadTo text line column n) : s.pull.ReadTo text line column n := by
  refine ⟨(remaining_pull s).trans reads.remaining, (place_pull s).trans reads.place, ?_⟩
  unfold Source.pull
  split <;> exact reads.ending

theorem consume {taken rest : List Char} (reads : s.ReadTo text line column n)
    (split : s.remaining = taken ++ rest) :
    (s.consume taken rest).ReadTo text line column (n + taken.length) := by
  have behind : text.drop n = taken ++ rest := reads.remaining.symm.trans split
  refine ⟨?_, ?_, reads.ending⟩
  · rw [remaining_consume, ← List.drop_drop, behind, List.drop_left]
  · rw [place_consume, reads.place, List.take_add, behind, List.take_left, Place.advanceAll_append]
    rfl

theorem past_end (reads : s.ReadTo text line column n) (ends : s.remaining = []) :
    s.ReadTo text line column (n + 1) := by
  have outside : text.length ≤ n := List.drop_eq_nil_iff.mp (reads.remaining.symm.trans ends)
  refine ⟨?_, ?_, reads.ending⟩
  · rw [ends, List.drop_eq_nil_of_le (by omega)]
  · rw [reads.place, List.take_of_length_le outside, List.take_of_length_le (by omega)]

end Source.ReadTo

namespace Request

variable {σ : Type} {text : List Char} {line column : Int} {n : Nat}

def serve : Request → ReadM σ (Option Char)
  | peek => ReadM.peekChar
  | take => ReadM.nextChar

def serveAll : List Request → ReadM σ (List Sight)
  | [] => pure []
  | request :: requests => do
    let answer ← request.serve
    let here ← get
    let sights ← serveAll requests
    return ⟨answer, here.source.line?, here.source.column?⟩ :: sights

/-- The characters that were consumed, one after the other. -/
def consumed : List Request → List Sight → List Char
  | take :: requests, sight :: sights => sight.answer.toList ++ consumed requests sights
  | peek :: requests, _ :: sights => consumed requests sights
  | _, _ => []

theorem serve_readTo (request : Request) {s : ReadState σ} (reads : s.source.ReadTo text line column n) :
    ∃ source, request.serve s = .ok text[n]? { s with source := source } ∧
      source.ReadTo text line column (n + [request].count take) := by
  have next : s.source.remaining.head? = text[n]? := by rw [reads.remaining, List.head?_drop]
  cases request with
  | peek =>
    refine ⟨s.source.pull, ?_, reads.pull⟩
    rw [serve, ReadM.peekChar_apply, reads.decodable, next]
    rfl
  | take =>
    rw [serve, ReadM.nextChar_apply, reads.decodable, ← next]
    cases split : s.source.remaining with
    | nil => exact ⟨s.source, rfl, reads.past_end split⟩
    | cons c rest =>
      have split : s.source.remaining = [c] ++ rest := split
      exact ⟨_, rfl, reads.consume split⟩

theorem serveAll_readTo (requests : List Request) (s : ReadState σ)
    (reads : s.source.ReadTo text line column n) :
    ∃ sights source, serveAll requests s = .ok sights { s with source := source } ∧
      source.ReadTo text line column (n + requests.count take) ∧
      sights.length = requests.length ∧
      consumed requests sights = (text.drop n).take (requests.count take) ∧
      ∀ i sight, sights[i]? = some sight →
        sight.answer = text[n + (requests.take i).count take]? ∧
        sight.line =
          some (Place.lineOf line (text.take (n + (requests.take (i + 1)).count take))) ∧
        sight.column =
          some (Place.columnOf column (text.take (n + (requests.take (i + 1)).count take))) := by
  induction requests generalizing n s with
  | nil => exact ⟨[], s.source, rfl, reads, rfl, by simp [consumed], by simp⟩
  | cons request requests ih =>
    obtain ⟨source, served, reads'⟩ := request.serve_readTo reads
    obtain ⟨sights, source', servedAll, reads'', count, all, each⟩ :=
      ih { s with source := source } reads'
    have total : n + (request :: requests).count take =
        n + [request].count take + requests.count take := by
      rw [Nat.add_assoc, ← List.count_append, List.singleton_append]
    refine ⟨⟨text[n]?, source.line?, source.column?⟩ :: sights, source', ?_, total ▸ reads'',
      congrArg (· + 1) count, ?_, ?_⟩
    · rw [serveAll, ReadM.bind_of_ok served]
      exact ReadM.bind_of_ok servedAll _
    · cases request with
      | peek => exact all
      | take =>
        change text[n]?.toList ++ consumed requests sights = _
        have one : [take].count take = 1 := rfl
        rw [all, one, List.count_cons_self, ← List.tail_drop, ← List.head?_drop]
        cases text.drop n <;> simp
    · rintro (_ | i) sight found
      · obtain rfl := Option.some.inj found
        exact ⟨rfl, reads'.line_eq, reads'.column_eq⟩
      · obtain ⟨answer, atLine, atColumn⟩ := each i sight found
        have shift (j : Nat) : n + ((request :: requests).take (j + 1)).count take =
            n + [request].count take + (requests.take j).count take := by
          rw [Nat.add_assoc, ← List.count_append, List.singleton_append, List.take_succ_cons]
        rw [shift i, shift (i + 1)]
        exact ⟨answer, atLine, atColumn⟩

/-- However looks and takes are mixed, the characters taken spell the consumed text, a look shows the
character behind it and changes nothing, and each time line and column are those of the closed form. -/
theorem serveAll_location (text : List Char) (line column : Int) (name : Option String) (host : σ)
    (trace : Array Event) (requests : List Request) :
    ∃ sights source, serveAll requests ⟨host, .ofText text line column name, trace⟩ =
        .ok sights ⟨host, source, trace⟩ ∧
      source.remaining = text.drop (requests.count take) ∧
      sights.length = requests.length ∧
      consumed requests sights = text.take (requests.count take) ∧
      ∀ i sight, sights[i]? = some sight →
        sight.answer = text[(requests.take i).count take]? ∧
        sight.line = some (Place.lineOf line (text.take ((requests.take (i + 1)).count take))) ∧
        sight.column = some (Place.columnOf column (text.take ((requests.take (i + 1)).count take))) := by
  obtain ⟨sights, source, served, reads, count, all, each⟩ :=
    serveAll_readTo requests ⟨host, .ofText text line column name, trace⟩ (.ofText text line column name)
  simp only [Nat.zero_add, List.drop_zero] at reads all each
  exact ⟨sights, source, served, reads.remaining, count, all, each⟩

end Request

end SexprReader
