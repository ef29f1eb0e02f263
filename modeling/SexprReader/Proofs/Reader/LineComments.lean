import Mathlib.Data.List.TakeWhile
import SexprReader.Proofs.Reader.Lookahead
import SexprReader.Proofs.Source.Location
import SexprReader.Reader.Reading
import SexprReader.Store

/-! Where line comments end. They go on up to an LF, while lines are also counted at a CR that no LF
follows; so a comment with such a CR inside takes characters of later lines. -/

namespace SexprReader

open ReadM Lexeme

variable {σ V : Type} {text blanks marks body : List Char} {line column : Int} {n start : Nat}
  {s : ReadState σ}

/-- Where a line comment ends that begins at `start`: in front of an LF, or with the text. -/
def commentEnd (text : List Char) (start : Nat) : Nat :=
  start + ((text.drop start).takeWhile (· != '\n')).length

/-- The line of the character at an index, as a source counts it when it consumes the character. -/
def lineAt (text : List Char) (line column : Int) (i : Nat) : Int :=
  ((Place.start line column).advanceAll (text.take (i + 1))).line

theorem commentEnd_of_shebang (split : text.drop start = '#' :: (marks ++ '!' :: body))
    (mean : ∀ c ∈ marks, isExactness c = true) :
    commentEnd text (start + 1 + marks.length + 1) = commentEnd text start := by
  let opening := '#' :: (marks ++ ['!'])
  have length : start + 1 + marks.length + 1 = start + opening.length := by
    simp only [opening, List.length_cons, List.length_append, List.length_nil]
    omega
  have through : ∀ c ∈ opening, (c != '\n') = true := by
    intro c member
    refine bne_iff_ne.mpr ?_
    rintro rfl
    have inside : '\n' ∈ marks := by simpa [opening] using member
    exact absurd (mean _ inside) (by decide)
  have split : text.drop start = opening ++ body := by simp [opening, split]
  rw [length, commentEnd, commentEnd, ← List.drop_drop, split, List.drop_left,
    List.takeWhile_append_of_pos through, List.length_append, Nat.add_assoc]

namespace ReadM

theorem peekChar_readTo (reads : s.source.ReadTo text line column n) :
    ∃ source, peekChar s = .ok text[n]? { s with source := source } ∧ source.ReadTo text line column n :=
  Request.peek.serve_readTo reads

theorem nextChar_readTo (reads : s.source.ReadTo text line column n) :
    ∃ source, nextChar s = .ok text[n]? { s with source := source } ∧
      source.ReadTo text line column (n + 1) :=
  Request.take.serve_readTo reads

theorem takeWhile_readTo (p : Char → Bool) (reads : s.source.ReadTo text line column n) :
    ∃ source, takeWhile p s = .ok ((text.drop n).takeWhile p) { s with source := source } ∧
      source.ReadTo text line column (n + ((text.drop n).takeWhile p).length) := by
  let source := s.source.consume ((text.drop n).takeWhile p) ((text.drop n).dropWhile p)
  have consumed : consumeWhile p s = .ok ((text.drop n).takeWhile p) { s with source := source } := by
    simp only [source, ← reads.remaining]
    rfl
  have split : text.drop n = (text.drop n).takeWhile p ++ (text.drop n).dropWhile p :=
    List.takeWhile_append_dropWhile.symm
  obtain ⟨source', peeked, reads'⟩ :=
    peekChar_readTo (s := { s with source := source }) (reads.consume (reads.remaining.trans split))
  refine ⟨source', ?_, reads'⟩
  rw [takeWhile, bind_of_ok consumed]
  exact bind_of_ok peeked _

theorem takeWhile_until {p : Char → Bool} {run : List Char} {c : Char}
    (reads : s.source.ReadTo text line column n) (split : text.drop n = run ++ c :: body)
    (all : ∀ c ∈ run, p c = true) (stops : p c = false) :
    ∃ source, (do let _ ← takeWhile p; peekChar) s = .ok (some c) { s with source := source } ∧
      source.ReadTo text line column (n + run.length) ∧ text[n + run.length]? = some c := by
  have passed : (text.drop n).takeWhile p = run := by
    rw [split, List.takeWhile_append_of_pos all, List.takeWhile_cons_of_neg (by simp [stops]),
      List.append_nil]
  have there : text[n + run.length]? = some c := by
    rw [← List.getElem?_drop, split, List.getElem?_append_right (Nat.le_refl _), Nat.sub_self]
    rfl
  obtain ⟨source, taken, reads'⟩ := takeWhile_readTo p reads
  rw [passed] at taken reads'
  obtain ⟨source', peeked, reads''⟩ := peekChar_readTo (s := { s with source := source }) reads'
  rw [there] at peeked
  exact ⟨source', (bind_of_ok taken _).trans peeked, reads'', there⟩

end ReadM

namespace Context

theorem skipLine_readTo (reads : s.source.ReadTo text line column n) :
    ∃ source, skipLine s = .ok () { s with source := source } ∧
      source.ReadTo text line column (commentEnd text n) := by
  obtain ⟨source, taken, behind⟩ := takeWhile_readTo (· != '\n') reads
  exact ⟨source, bind_of_ok taken _, behind⟩

theorem lt_commentEnd {c : Char} (there : text[start]? = some c) (inside : (c != '\n') = true) :
    start < commentEnd text start := by
  rw [← List.head?_drop] at there
  rw [commentEnd, List.eq_cons_of_mem_head? there, List.takeWhile_cons, if_pos inside, List.length_cons]
  omega

theorem skipBlanks_comment (reads : s.source.ReadTo text line column n)
    (split : text.drop n = blanks ++ ';' :: body) (white : ∀ c ∈ blanks, isWhitespace c = true) :
    ∃ s', s'.host = s.host ∧ s'.source.ReadTo text line column (commentEnd text (n + blanks.length)) ∧
      skipBlanks s = skipBlanks s' := by
  obtain ⟨source, looked, reads₁, there⟩ := takeWhile_until reads split white rfl
  let s₁ : ReadState σ := { s with
    source := source, trace := s.trace.push (.lineComment source.line? source.column?) }
  obtain ⟨source', skipped, reads₂⟩ := skipLine_readTo (s := s₁) reads₁
  refine ⟨{ s₁ with source := source' }, rfl, reads₂, ?_⟩
  obtain ⟨c, bound, turns⟩ : ∃ c bound, s.source.remaining = c :: bound := by
    rw [reads.remaining, split]
    cases blanks <;> exact ⟨_, _, rfl⟩
  have few : source'.remaining.length ≤ bound.length := by
    have begun := lt_commentEnd there rfl
    have all := congrArg List.length (turns.symm.trans reads.remaining)
    rw [List.length_cons, List.length_drop] at all
    rw [reads₂.remaining, List.length_drop]
    omega
  have onward : skipBlanks s = skipBlanksWithin bound { s₁ with source := source' } := by
    change skipBlanksWithin s.source.remaining s = _
    rw [turns, skipBlanksWithin, ← bind_assoc, bind_of_ok looked]
    exact bind_of_ok skipped _
  rw [onward]
  exact skipBlanksWithin_enough few (Nat.le_refl _)

theorem readHash_shebang (ctx : Context σ V) (hook : Option (Hook σ V)) (readForm : ReadM σ V)
    (reads : s.source.ReadTo text line column (start + 1))
    (split : text.drop start = '#' :: (marks ++ '!' :: body)) (mean : ∀ c ∈ marks, isExactness c = true) :
    ∃ s', s'.host = s.host ∧ s'.source.ReadTo text line column (commentEnd text start) ∧
      ctx.readHash hook readForm s = .ok .comment s' := by
  have behind : text.drop (start + 1) = marks ++ '!' :: body := by
    rw [← List.tail_drop, split]
    rfl
  obtain ⟨source, looked, reads₁, -⟩ := takeWhile_until reads behind mean rfl
  let s₁ : ReadState σ := { s with
    source := source, trace := s.trace.push (.shebangComment source.line? source.column?) }
  obtain ⟨source₂, next, reads₂⟩ := nextChar_readTo (s := s₁) reads₁
  obtain ⟨source₃, skipped, reads₃⟩ := skipLine_readTo (s := { s₁ with source := source₂ }) reads₂
  refine ⟨{ s₁ with source := source₃ }, rfl, commentEnd_of_shebang split mean ▸ reads₃, ?_⟩
  rw [readHash, ← bind_assoc, bind_of_ok looked]
  refine (bind_of_ok next _).trans ?_
  exact bind_of_ok skipped _

end Context

section Lines

variable {i j k : Nat} {c d : Char}

theorem lineAt_succ (here : text[i]? = some d) (next : text[i + 1]? = some c) :
    lineAt text line column (i + 1) =
      lineAt text line column i + if d = '\n' ∨ d = '\r' ∧ c ≠ '\n' then 1 else 0 := by
  have last : ((Place.start line column).advanceAll (text.take (i + 1))).last = some d := by
    rw [Place.advanceAll_start, List.take_add_one, here, Option.toList_some, List.getLast?_concat]
  rw [lineAt, lineAt, List.take_add_one, next, Option.toList_some, Place.advanceAll_append]
  generalize (Place.start line column).advanceAll (text.take (i + 1)) = p at last
  rw [Place.advanceAll_cons, Place.advanceAll_nil, Place.advance, Place.endsLineBefore, last]
  by_cases ends : d = '\n' ∨ d = '\r' ∧ c ≠ '\n' <;> simp [ends]

theorem exists_of_lt_commentEnd (below : start + k < commentEnd text start) :
    ∃ c, text[start + k]? = some c ∧ c ≠ '\n' := by
  have few := Nat.lt_of_add_lt_add_left below
  have inside := List.getElem?_eq_getElem few
  have plain := List.mem_takeWhile_imp (List.mem_of_getElem? inside)
  refine ⟨_, ?_, bne_iff_ne.mp plain⟩
  rw [← inside, ← List.getElem?_drop]
  conv_lhs => rw [← List.takeWhile_append_dropWhile (p := (· != '\n')) (l := text.drop start)]
  exact List.getElem?_append_left few

theorem lineAt_of_comment (below : start + k < commentEnd text start) :
    lineAt text line column (start + k) =
      lineAt text line column start + ((text.drop start).take k).count '\r' := by
  induction k with
  | zero => simp
  | succ k ih =>
    have below' : start + k < commentEnd text start := by omega
    obtain ⟨d, here, plain⟩ := exists_of_lt_commentEnd below'
    obtain ⟨c, next, plain'⟩ := exists_of_lt_commentEnd below
    rw [← Nat.add_assoc, lineAt_succ here next, ih below', List.take_add_one, List.getElem?_drop, here,
      Option.toList_some, List.count_append]
    by_cases ends : d = '\r' <;> simp [ends, plain, plain', Int.add_assoc]

/-- The characters of a comment are on the line on which it begins unless there is a CR among them, other
than as the last. -/
theorem line_kept_iff :
    (∀ k, start + k < commentEnd text start →
      lineAt text line column (start + k) = lineAt text line column start) ↔
    ∀ k, start + k + 1 < commentEnd text start → text[start + k]? ≠ some '\r' := by
  constructor
  · intro kept k below found
    have one := kept (k + 1) below
    rw [lineAt_of_comment below] at one
    have none : ((text.drop start).take (k + 1)).count '\r' = 0 := by omega
    refine List.count_eq_zero.mp none (List.mem_of_getElem? (i := k) ?_)
    rw [List.getElem?_take_of_lt (Nat.lt_succ_self k), List.getElem?_drop, found]
  · intro free k below
    rw [lineAt_of_comment below, List.count_eq_zero.mpr, Int.natCast_zero, Int.add_zero]
    intro member
    obtain ⟨i, found⟩ := List.mem_iff_getElem?.mp member
    have early : i < k := by
      have inside := (List.getElem?_eq_some_iff.mp found).1
      rw [List.length_take] at inside
      omega
    rw [List.getElem?_take_of_lt early, List.getElem?_drop] at found
    exact free i (by omega) found

end Lines

/-- A line comment, behind blanks or as a hash sequence, is skipped up to an LF or to the end of the text.
The lines of its characters go up behind each CR in it. So all of them are on the line on which the comment
begins exactly if there is no CR among them, but for one that is the last and so itself still on that line. -/
theorem line_comments (text : List Char) (line column : Int) (start : Nat) :
    (∀ n blanks body, text.drop n = blanks ++ ';' :: body → (∀ c ∈ blanks, isWhitespace c = true) →
      start = n + blanks.length → ∀ s : ReadState σ, s.source.ReadTo text line column n →
      ∃ s', s'.host = s.host ∧ s'.source.ReadTo text line column (commentEnd text start) ∧
        Context.skipBlanks s = Context.skipBlanks s') ∧
    (∀ marks body, text.drop start = '#' :: (marks ++ '!' :: body) →
      (∀ c ∈ marks, isExactness c = true) → ∀ (ctx : Context σ V) hook readForm (s : ReadState σ),
      s.source.ReadTo text line column (start + 1) →
      ∃ s', s'.host = s.host ∧ s'.source.ReadTo text line column (commentEnd text start) ∧
        ctx.readHash hook readForm s = .ok .comment s') ∧
    (∀ k, start + k < commentEnd text start → lineAt text line column (start + k) =
      lineAt text line column start + ((text.drop start).take k).count '\r') ∧
    ((∀ k, start + k < commentEnd text start →
        lineAt text line column (start + k) = lineAt text line column start) ↔
      ∀ k, start + k + 1 < commentEnd text start → text[start + k]? ≠ some '\r') := by
  refine ⟨?_, ?_, fun k below => lineAt_of_comment below, line_kept_iff⟩
  · rintro n blanks body split white rfl s reads
    exact Context.skipBlanks_comment reads split white
  · intro marks body split mean ctx hook readForm s reads
    exact ctx.readHash_shebang hook readForm reads split mean

/-- A CR that belongs to an LF is left on the line of the comment. -/
theorem line_comments_before_crlf :
    let text := " ;c\r\nb".toList
    let s : ReadState Store := ⟨.initial, .ofText text 1 0 none, #[]⟩
    (∃ s', s'.source.ReadTo text 1 0 4 ∧ Context.skipBlanks s = Context.skipBlanks s') ∧
      ∀ k, 1 + k < 4 → lineAt text 1 0 (1 + k) = 1 := by
  intro text s
  obtain ⟨skips, -, -, kept⟩ := line_comments (σ := Store) (V := Value) text 1 0 1
  have white : ∀ c ∈ [' '], isWhitespace c = true := List.forall_mem_singleton.mpr rfl
  obtain ⟨s', -, reads, same⟩ := skips 0 [' '] "c\r\nb".toList rfl white rfl s (.ofText text 1 0 none)
  have free : ∀ k < 2, text[1 + k]? ≠ some '\r' := by decide
  refine ⟨⟨s', reads, same⟩, kept.mpr fun k below => free k ?_⟩
  have stop : commentEnd text 1 = 4 := rfl
  omega

/-- A form on a later line is taken for a part of the comment. -/
theorem exists_swallowed_form : ∃ text : List Char, text[0]? = some ';' ∧ text[4]? = some 'a' ∧
    lineAt text 1 0 0 = 1 ∧ lineAt text 1 0 4 = 2 ∧ commentEnd text 0 = 5 ∧
    (readAll (Store.host .standard) ⟨false, none⟩ .initial (.ofText text 1 0 none)).forms = [] :=
  ⟨"; c\ra".toList, rfl, rfl, rfl, rfl, rfl, by decide +kernel⟩

end SexprReader
